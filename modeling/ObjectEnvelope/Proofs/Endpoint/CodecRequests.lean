import ObjectEnvelope.Endpoint
import ObjectEnvelope.Proofs.Runs
import ObjectEnvelope.Proofs.Types.Bindings
import ObjectEnvelope.Proofs.Types.CodecKeeping

/-!
# Requests for codecs

Which codec an endpoint gives does not show what it gave before: a type has one exactly where it may
stand and has values, and the codec is one of that very type. All that registrations and other
requests leave of a codec is whether it is given again (`Endpoint.codec_of_consulted`): the
same one, until another type is asked for under the same key.
-/

namespace ObjectEnvelope

theorem RuntimeType.exists_bodyForm_iff {t : RuntimeType} {declared : ValueType} :
    (∃ form, t.bodyForm declared = .ok form) ↔ t.accepts declared = true ∧ t.kind ≠ .interface := by
  simp only [bodyForm_eq_ok_iff, exists_and_left]
  cases t.kind <;> simp [BodyForm.ofKind?]

/-- Bodies of composite types are slots, those of enums ordinals. -/
theorem BodyForm.ofKind?_eq_some_iff {kind : TypeKind} {form : BodyForm} :
    BodyForm.ofKind? kind = some form ↔
      (kind = .composite ∧ form = .slots) ∨ (kind = .enumeration ∧ form = .ordinal) := by
  cases kind <;> cases form <;> simp [BodyForm.ofKind?]

namespace Endpoint

variable {allowed : RuntimeType → ValueType → Prop} {s after later : Endpoint} {t u : RuntimeType}
  {declared other : ValueType} {c found : Codec} {e : WireError}

theorem codec_eq_ok_iff :
    codec t declared s = .ok c after ↔
      ∃ codecs, s.codecs.request t declared = .ok (c, codecs) ∧ after = { s with codecs } := by
  simp only [codec, Step.bind_eq_ok_iff, Step.get_eq_ok_iff, Step.ofExcept_eq_ok_iff,
    Step.set_eq_ok_iff, Step.pure_eq_ok_iff]
  constructor
  · rintro ⟨_, _, ⟨rfl, rfl⟩, ⟨_, codecs⟩, _, ⟨hrequest, rfl⟩, _, _, rfl, rfl, rfl⟩
    exact ⟨codecs, hrequest, rfl⟩
  · rintro ⟨codecs, hrequest, rfl⟩
    exact ⟨s, s, ⟨rfl, rfl⟩, (c, codecs), s, ⟨hrequest, rfl⟩, ⟨⟩, _, rfl, rfl, rfl⟩

theorem codec_eq_error_iff :
    codec t declared s = .error e after ↔
      s.codecs.request t declared = .error e ∧ after = s := by
  simp only [codec, Step.bind_eq_error_iff, Step.get_ne_error, Step.get_eq_ok_iff,
    Step.ofExcept_eq_error_iff, Step.set_ne_error, Step.pure_ne_error, and_false, exists_false,
    false_or, or_false]
  constructor
  · rintro ⟨_, _, ⟨rfl, rfl⟩, hrequest, rfl⟩
    exact ⟨hrequest, rfl⟩
  · rintro ⟨hrequest, rfl⟩
    exact ⟨after, after, ⟨rfl, rfl⟩, hrequest, rfl⟩

/-- A type has a codec where it may stand, unless it is an interface, whatever is kept. -/
theorem exists_codec_iff :
    (∃ c after, codec t declared s = .ok c after) ↔
      t.accepts declared = true ∧ t.kind ≠ .interface := by
  rw [← RuntimeType.exists_bodyForm_iff]
  constructor
  · rintro ⟨c, after, hrun⟩
    obtain ⟨codecs, hrequest, -⟩ := codec_eq_ok_iff.mp hrun
    exact ⟨c.form, CodecCache.form_of_request hrequest⟩
  · rintro ⟨form, hform⟩
    cases hrun : codec t declared s with
    | ok c after => exact ⟨c, after, rfl⟩
    | error e after =>
      have hrefused := CodecCache.request_eq_error_iff.mp (codec_eq_error_iff.mp hrun).1
      cases hform.symm.trans hrefused

theorem codec_leaves_locals : ((codec t declared).after s).locals = s.locals := by
  cases hrun : codec t declared s with
  | ok c after =>
    obtain ⟨codecs, -, rfl⟩ := codec_eq_ok_iff.mp hrun
    rw [Step.after_of_ok hrun]
  | error e after =>
    obtain ⟨-, rfl⟩ := codec_eq_error_iff.mp hrun
    rw [Step.after_of_error hrun]

/-! ## Histories -/

/-- The endpoints that registrations and those requests that are allowed lead to, failed calls
included. -/
inductive Consulted (allowed : RuntimeType → ValueType → Prop) (s : Endpoint) : Endpoint → Prop
  | refl : Consulted allowed s s
  | register {between : Endpoint} (d : Descriptor) (h : Consulted allowed s between) :
      Consulted allowed s ((register d).after between)
  | codec {between : Endpoint} {t : RuntimeType} {declared : ValueType}
      (hallowed : allowed t declared) (h : Consulted allowed s between) :
      Consulted allowed s ((codec t declared).after between)

/-- What allowed requests preserve, the endpoint preserves; registrations have no part in it. -/
theorem Consulted.preserves (inv : CodecCache → Prop)
    (hrequest : ∀ {cache next : CodecCache} {t : RuntimeType} {declared : ValueType} {c : Codec},
      allowed t declared → inv cache → cache.request t declared = .ok (c, next) → inv next)
    (h : s.Consulted allowed later) (hs : inv s.codecs) : inv later.codecs := by
  induction h with
  | refl => exact hs
  | register d _ ih =>
    have hregister : (Endpoint.register d).Preserves fun s => inv s.codecs :=
      .on_any fun _ _ h => h
    exact hregister.after ih
  | @codec between t declared hallowed _ ih =>
    cases hrun : Endpoint.codec t declared between with
    | ok c after =>
      obtain ⟨codecs, hcodecs, rfl⟩ := codec_eq_ok_iff.mp hrun
      rw [Step.after_of_ok hrun]
      exact hrequest hallowed ih hcodecs
    | error e after =>
      obtain ⟨-, rfl⟩ := codec_eq_error_iff.mp hrun
      rw [Step.after_of_error hrun]
      exact ih

theorem Consulted.numbered {home : Nat} (h : (Endpoint.empty home).Consulted allowed s) :
    s.codecs.Numbered :=
  h.preserves CodecCache.Numbered (fun _ => CodecCache.Numbered.request) fun _ hentry =>
    absurd hentry List.not_mem_nil

/-- The codec is given again until another type is asked for under its key. -/
theorem codec_again (hrun : codec t declared s = .ok c after)
    (hlater : after.Consulted (fun u other => u.codecKey other = t.codecKey declared → u = t)
      later) : codec t declared later = .ok c later := by
  obtain ⟨codecs, hrequest, rfl⟩ := codec_eq_ok_iff.mp hrun
  have htype := CodecCache.type_of_request hrequest
  have hkept : later.codecs.entries.lookup (t.codecKey declared) = some c := by
    refine hlater.preserves (fun cache => cache.entries.lookup (t.codecKey declared) = some c)
      (fun hallowed hkept hother => ?_) (CodecCache.lookup_self_of_request hrequest)
    exact CodecCache.lookup_of_request hother hkept htype hallowed
  exact codec_eq_ok_iff.mpr ⟨later.codecs, CodecCache.request_of_lookup hkept htype, rfl⟩

/-- No other codec gets the number of a codec that was given. -/
theorem codec_eq_of_serial (hs : s.codecs.Numbered) (hrun : codec t declared s = .ok c after)
    (hlater : after.Consulted allowed later) {final : Endpoint}
    (hfound : codec u other later = .ok found final) (hserial : found.serial = c.serial) :
    found = c := by
  obtain ⟨codecs, hrequest, rfl⟩ := codec_eq_ok_iff.mp hrun
  obtain ⟨codecs', hrequest', -⟩ := codec_eq_ok_iff.mp hfound
  have howns : later.codecs.Owns c :=
    hlater.preserves (fun cache => cache.Owns c) (fun _ howns hother => (howns.request hother).1)
      (hs.owns hrequest)
  exact (howns.request hrequest').2 hserial

/-- **What requests for codecs give.** Whatever registrations and requests came before, a type has a
codec exactly where it may stand and has values. The codec is one of that very instance, for slots
or for ordinals by the kind of the type. It is given again until another instance is asked for under
the same origin, digest and declared type; and it is told from every other codec by its number.
Requests leave the registered types as they are, and those that fail leave the endpoint as it is. -/
theorem codec_of_consulted {home : Nat}
    (h : (Endpoint.empty home).Consulted (fun _ _ => True) s) (t : RuntimeType)
    (declared : ValueType) :
    ((∃ c after, codec t declared s = .ok c after) ↔
      t.accepts declared = true ∧ t.kind ≠ .interface) ∧
    (∀ c after, codec t declared s = .ok c after →
      c.type = t ∧
      ((t.kind = .composite ∧ c.form = .slots) ∨ (t.kind = .enumeration ∧ c.form = .ordinal)) ∧
      (∀ later, after.Consulted (fun u other => u.codecKey other = t.codecKey declared → u = t)
        later → codec t declared later = .ok c later) ∧
      ∀ later u other found final, after.Consulted (fun _ _ => True) later →
        codec u other later = .ok found final → found.serial = c.serial → found = c) ∧
    ((codec t declared).after s).locals = s.locals ∧
    ∀ e after, codec t declared s = .error e after → after = s := by
  refine ⟨exists_codec_iff, fun c after hrun => ?_, codec_leaves_locals,
    fun e after hrun => (codec_eq_error_iff.mp hrun).2⟩
  obtain ⟨codecs, hrequest, -⟩ := codec_eq_ok_iff.mp hrun
  have hform := RuntimeType.bodyForm_eq_ok_iff.mp (CodecCache.form_of_request hrequest)
  exact ⟨CodecCache.type_of_request hrequest, BodyForm.ofKind?_eq_some_iff.mp hform.2,
    fun later hlater => codec_again hrun hlater,
    fun later u other found final hlater hfound =>
      codec_eq_of_serial h.numbered hrun hlater hfound⟩

/-- The type of a thing in one of several collections. -/
def thingOf (home : Nat) : RuntimeType :=
  .ofDescriptor ⟨.known, home, 0⟩ LocalTypes.thing.digest LocalTypes.thing (by decide +kernel)

/-- Things of two collections share their codecs' place. The codec of the one takes it from the
other, and keeps it while the other is asked for only where a different type is declared. -/
theorem codec_of_consulted_things :
    thingOf 0 ≠ thingOf 1 ∧ (thingOf 0).codecKey .any = (thingOf 1).codecKey .any ∧
    ∃ c after, codec (thingOf 0) .any
        ((codec (thingOf 1) .any).after ((register LocalTypes.thing).after (.empty 0))) =
          .ok c after ∧
      c.type = thingOf 0 ∧
      codec (thingOf 0) .any ((codec (thingOf 1) (.reference "Thing")).after after) =
        .ok c ((codec (thingOf 1) (.reference "Thing")).after after) := by
  refine ⟨fun heq => absurd (congrArg (·.id.home) heq) Nat.zero_ne_one, rfl, ?_⟩
  have hkept : (Endpoint.empty 0).Consulted (fun _ _ => True)
      ((codec (thingOf 1) .any).after ((register LocalTypes.thing).after (.empty 0))) :=
    .codec trivial (.register LocalTypes.thing .refl)
  obtain ⟨hexists, hgiven, -, -⟩ := codec_of_consulted hkept (thingOf 0) .any
  obtain ⟨c, after, hrun⟩ := hexists.mpr ⟨rfl, by decide +kernel⟩
  obtain ⟨htype, -, hagain, -⟩ := hgiven c after hrun
  refine ⟨c, after, hrun, htype, hagain _ (.codec (fun hkey => ?_) .refl)⟩
  cases congrArg CodecKey.declared hkey

end Endpoint

end ObjectEnvelope
