import ObjectEnvelope.Step
import ObjectEnvelope.Types.RuntimeType

/-!
# Codecs

A codec encodes and decodes the bodies of one runtime type where one declared type stands. Codecs
are made on first request and kept under a key that different types can share; a kept codec serves
only the very type that it was made for. So a request never depends on what is kept: it is answered
exactly when the type fits the declared type and has values (`request_eq_error_iff`), and the codec
is one of that type (`type_of_request`, `form_of_request`).
-/

namespace ObjectEnvelope

/-- The two kinds of body: slot values, or the ordinal of a constant. -/
inductive BodyForm where
  | slots
  | ordinal
  deriving DecidableEq, Repr

/-- The form of the values of a kind of type; interfaces have none. -/
def BodyForm.ofKind? : TypeKind → Option BodyForm
  | .composite => some .slots
  | .enumeration => some .ordinal
  | .interface => none

/-- Whether values of the type have a codec where `declared` stands. -/
def RuntimeType.bodyForm (t : RuntimeType) (declared : ValueType) : Except WireError BodyForm :=
  if t.accepts declared then
    match BodyForm.ofKind? t.kind with
    | some form => .ok form
    | none => .error (.notSerializable (.noInstances t.name))
  else .error (.notSerializable (.unfit t.name declared))

theorem RuntimeType.bodyForm_eq_ok_iff {type : RuntimeType} {declared : ValueType}
    {form : BodyForm} :
    type.bodyForm declared = .ok form ↔
      type.accepts declared = true ∧ BodyForm.ofKind? type.kind = some form := by
  unfold bodyForm
  by_cases haccepts : type.accepts declared = true
  · rw [if_pos haccepts]
    cases BodyForm.ofKind? type.kind <;> simp [haccepts]
  · simp [haccepts]

/-- A codec of one runtime type. -/
structure Codec where
  /-- Its number among the codecs made in the same cache. -/
  serial : Nat
  type : RuntimeType
  form : BodyForm
  ofKind?_type : BodyForm.ofKind? type.kind = some form

/-- The descriptors that a codec adds to a schema: its type and the supertypes. -/
def Codec.descriptors (c : Codec) : List Descriptor :=
  c.type.descriptor.lineage

/-- What a codec is kept under. A registered and a synthesized type can have one digest. -/
structure CodecKey where
  origin : Origin
  digest : Digest
  declared : ValueType
  deriving DecidableEq

/-- The key of a type where `declared` stands. -/
def RuntimeType.codecKey (t : RuntimeType) (declared : ValueType) : CodecKey :=
  ⟨t.origin, t.digest, declared⟩

/-- The codecs that are kept, one for each key, and the number made so far. -/
structure CodecCache where
  made : Nat
  entries : List (CodecKey × Codec)
  /-- A codec is kept only where its type may stand. -/
  accepts : ∀ entry ∈ entries, entry.2.type.accepts entry.1.declared = true

namespace CodecCache

/-- The cache without codecs. -/
def empty : CodecCache := ⟨0, [], nofun⟩

/-- The number of codecs that are kept. -/
def size (cache : CodecCache) : Nat := cache.entries.length

/-- The entries with the codec under the key, in the place of the one it replaces or at the end. -/
def insert (key : CodecKey) (codec : Codec) : List (CodecKey × Codec) → List (CodecKey × Codec)
  | [] => [(key, codec)]
  | entry :: rest => if entry.1 = key then (key, codec) :: rest else entry :: insert key codec rest

theorem forall_mem_insert {holds : CodecKey × Codec → Prop} {key : CodecKey} {codec : Codec}
    {entries : List (CodecKey × Codec)} (hnew : holds (key, codec))
    (hold : ∀ entry ∈ entries, holds entry) : ∀ entry ∈ insert key codec entries, holds entry := by
  induction entries with
  | nil => exact List.forall_mem_singleton.mpr hnew
  | cons first rest ih =>
    obtain ⟨hfirst, hrest⟩ := List.forall_mem_cons.mp hold
    unfold insert
    split
    · exact List.forall_mem_cons.mpr ⟨hnew, hrest⟩
    · exact List.forall_mem_cons.mpr ⟨hfirst, ih hrest⟩

/-- Makes and keeps the codec of a type where `declared` stands. -/
def make (cache : CodecCache) (t : RuntimeType) (declared : ValueType) :
    Except WireError (Codec × CodecCache) :=
  match h : t.bodyForm declared with
  | .ok form =>
    have hform := RuntimeType.bodyForm_eq_ok_iff.mp h
    let codec : Codec := ⟨cache.made, t, form, hform.2⟩
    .ok (codec, ⟨cache.made + 1, insert (t.codecKey declared) codec cache.entries,
      forall_mem_insert hform.1 cache.accepts⟩)
  | .error e => .error e

/-- The codec of a type where `declared` stands: the kept one if it is of the very type, otherwise a
new one in its place. -/
def request (cache : CodecCache) (t : RuntimeType) (declared : ValueType) :
    Except WireError (Codec × CodecCache) :=
  match cache.entries.lookup (t.codecKey declared) with
  | some codec => if codec.type = t then .ok (codec, cache) else cache.make t declared
  | none => cache.make t declared

/-- The codec of a type where `declared` stands, as a step. -/
def provide (t : RuntimeType) (declared : ValueType) : Step CodecCache Codec := fun cache =>
  match cache.request t declared with
  | .ok (codec, after) => .ok codec after
  | .error e => .error e cache

/-! ## Requests do not depend on what is kept -/

variable {cache after : CodecCache} {t : RuntimeType} {declared : ValueType} {codec : Codec}
  {e : WireError}

theorem make_eq_error_iff : cache.make t declared = .error e ↔ t.bodyForm declared = .error e := by
  unfold make
  split
  · next h => simp [h]
  · next h => simp [h]

theorem of_make (h : cache.make t declared = .ok (codec, after)) :
    codec.type = t ∧ t.accepts declared = true := by
  unfold make at h
  split at h
  · next hform =>
    cases h
    exact ⟨rfl, (RuntimeType.bodyForm_eq_ok_iff.mp hform).1⟩
  · cases h

/-- A codec under the key of a type where `declared` stands is of a type that may stand there. -/
theorem accepts_of_lookup (h : cache.entries.lookup (t.codecKey declared) = some codec) :
    codec.type.accepts declared = true := by
  obtain ⟨before, rest, hentries, -⟩ := List.lookup_eq_some_iff.mp h
  refine cache.accepts (t.codecKey declared, codec) ?_
  rw [hentries]
  exact List.mem_append.mpr (.inr List.mem_cons_self)

theorem of_request (h : cache.request t declared = .ok (codec, after)) :
    codec.type = t ∧ t.accepts declared = true := by
  unfold request at h
  split at h
  · next kept hlookup =>
    split at h
    · next htype =>
      cases h
      exact ⟨htype, htype ▸ accepts_of_lookup hlookup⟩
    · exact of_make h
  · exact of_make h

/-- The codec is one of the very type. -/
theorem type_of_request (h : cache.request t declared = .ok (codec, after)) : codec.type = t :=
  (of_request h).1

/-- The form of the bodies is that of the type. -/
theorem form_of_request (h : cache.request t declared = .ok (codec, after)) :
    t.bodyForm declared = .ok codec.form := by
  obtain ⟨rfl, haccepts⟩ := of_request h
  exact RuntimeType.bodyForm_eq_ok_iff.mpr ⟨haccepts, codec.ofKind?_type⟩

/-- A request is refused for the type alone. -/
theorem request_eq_error_iff :
    cache.request t declared = .error e ↔ t.bodyForm declared = .error e := by
  unfold request
  split
  · next kept hlookup =>
    split
    · next htype =>
      have hform : t.bodyForm declared = .ok kept.form := by
        subst htype
        exact RuntimeType.bodyForm_eq_ok_iff.mpr ⟨accepts_of_lookup hlookup, kept.ofKind?_type⟩
      simp [hform]
    · exact make_eq_error_iff
  · exact make_eq_error_iff

end CodecCache

end ObjectEnvelope
