import ObjectEnvelope.Proofs.Envelope.Resolving
import ObjectEnvelope.Proofs.Schema.Declaring
import ObjectEnvelope.Proofs.Types.Caches

/-!
# What entries stand for

The type of an entry hangs on the schema, on the local types and on the types that were made before
the resolution, but not on the order in which entries are resolved: an entry declares one descriptor
(`SchemaEntry.Declares`), for which the receiver has one type or makes one
(`Descriptor.Represents`). A schema is `SchemaEntry.Resolvable` when all of its entries have types.
-/

namespace ObjectEnvelope

namespace Descriptor

variable {locals : LocalTypes} {cache : SynthesisCache} {b c d : Descriptor}

/-- What the type of a descriptor is made of: it is a local one, one that was kept from before, or a
new one, if the descriptor can be laid out. -/
inductive Represents (locals : LocalTypes) (cache : SynthesisCache) (d : Descriptor) :
    Descriptor → Prop
  | known {t : RuntimeType} (h : locals.find? d = some t) : Represents locals cache d t.descriptor
  | kept {t : RuntimeType} (hlocal : locals.find? d = none)
      (hget : cache.get? (cache.key d) = some t) (hsame : t.descriptor.same d = true) :
      Represents locals cache d t.descriptor
  | fresh (hlocal : locals.find? d = none) (hget : cache.get? (cache.key d) = none)
      (hfault : d.layoutFault? = none) : Represents locals cache d d

/-- A descriptor is represented in one way. -/
theorem Represents.unique (hb : d.Represents locals cache b) (hc : d.Represents locals cache c) :
    b = c := by
  cases hb <;> cases hc <;> simp_all

theorem Represents.name (h : d.Represents locals cache c) : c.name = d.name := by
  cases h with
  | known h => exact (LocalTypes.mem_of_lookup? (LocalTypes.find?_eq_some_iff.mp h).1).2
  | kept _ _ hsame => exact (same_iff.mp hsame).1.name
  | fresh => rfl

/-- Types stand for descriptors of their own digest. -/
theorem Represents.digest {ds : Set Descriptor} (hlocals : locals.Consistent ds)
    (h : d.Represents locals cache c) : c.digest = d.digest := by
  cases h with
  | known h =>
    obtain ⟨hlookup, hdigest⟩ := LocalTypes.find?_eq_some_iff.mp h
    rw [← hlocals.digest _ (LocalTypes.mem_of_lookup? hlookup).1, hdigest]
  | kept _ _ hsame => exact digest_eq_of_same hsame
  | fresh => rfl

/-- A type has to be made for the descriptor. -/
def IsNew (locals : LocalTypes) (cache : SynthesisCache) (d : Descriptor) : Prop :=
  locals.find? d = none ∧ cache.get? (cache.key d) = none

/-- The type of a descriptor that has no type yet is made of it. -/
theorem Represents.eq_of_isNew (h : d.Represents locals cache c) (hnew : d.IsNew locals cache) :
    c = d ∧ d.layoutFault? = none := by
  obtain ⟨hlocal, hget⟩ := hnew
  cases h with
  | known h => cases hlocal.symm.trans h
  | kept _ hget' => cases hget.symm.trans hget'
  | fresh _ _ hfault => exact ⟨rfl, hfault⟩

end Descriptor

namespace SchemaEntry

variable {schema schema' : List SchemaEntry} {locals : LocalTypes} {cache : SynthesisCache}
  {entry : SchemaEntry} {d e : Descriptor}

/-- What an entry says of its type, the supertype aside. -/
abbrev declaration (entry : SchemaEntry) : Declaration :=
  ⟨entry.name, entry.kind, entry.fields, entry.interfaces⟩

/-- The descriptor that an entry declares: below that of the type of the entry that has the name of
its supertype, or, if there is none, below that of the local type of that name. -/
inductive Declares (schema : List SchemaEntry) (locals : LocalTypes) (cache : SynthesisCache) :
    SchemaEntry → Descriptor → Prop
  | top {entry : SchemaEntry} {d : Descriptor} (hparent : entry.parent? = none)
      (hdeclare : Descriptor.declare entry.declaration none = .ok d) :
      Declares schema locals cache entry d
  | under {entry above : SchemaEntry} {b p d : Descriptor}
      (hparent : entry.parent? = some above.name) (hmem : above ∈ schema)
      (habove : Declares schema locals cache above b) (hp : b.Represents locals cache p)
      (hdeclare : Descriptor.declare entry.declaration (some p) = .ok d) :
      Declares schema locals cache entry d
  | underLocal {entry : SchemaEntry} {name : String} {t : RuntimeType} {d : Descriptor}
      (hparent : entry.parent? = some name) (hnone : ∀ other ∈ schema, other.name ≠ name)
      (hlookup : locals.lookup? name = some t)
      (hdeclare : Descriptor.declare entry.declaration (some t.descriptor) = .ok d) :
      Declares schema locals cache entry d

/-- In a schema that has each name once, an entry declares one descriptor. -/
theorem Declares.unique (hnames : (schema.map (·.name)).Nodup)
    (hd : Declares schema locals cache entry d) (he : Declares schema locals cache entry e) :
    d = e := by
  induction hd generalizing e with
  | top hparent hdeclare =>
    cases he with
    | top _ hdeclare' => exact Except.ok.inj (hdeclare.symm.trans hdeclare')
    | under hparent' => cases hparent.symm.trans hparent'
    | underLocal hparent' => cases hparent.symm.trans hparent'
  | @under entry above b p d hparent hmem habove hp hdeclare ih =>
    cases he with
    | top hparent' => cases hparent.symm.trans hparent'
    | @under _ above' b' p' _ hparent' hmem' habove' hp' hdeclare' =>
      obtain rfl : above = above' := List.inj_on_of_nodup_map hnames hmem hmem'
        (Option.some_inj.mp (hparent.symm.trans hparent'))
      obtain rfl : b = b' := ih habove'
      obtain rfl : p = p' := hp.unique hp'
      exact Except.ok.inj (hdeclare.symm.trans hdeclare')
    | underLocal hparent' hnone =>
      exact absurd (Option.some_inj.mp (hparent.symm.trans hparent')) (hnone above hmem)
  | underLocal hparent hnone hlookup hdeclare =>
    cases he with
    | top hparent' => cases hparent.symm.trans hparent'
    | under hparent' hmem =>
      exact absurd (Option.some_inj.mp (hparent.symm.trans hparent')).symm (hnone _ hmem)
    | underLocal hparent' _ hlookup' hdeclare' =>
      obtain rfl := Option.some_inj.mp (hparent.symm.trans hparent')
      obtain rfl := Option.some_inj.mp (hlookup.symm.trans hlookup')
      exact Except.ok.inj (hdeclare.symm.trans hdeclare')

theorem declares_iff_of_top (hparent : entry.parent? = none) :
    Declares schema locals cache entry d ↔
      Descriptor.declare entry.declaration none = .ok d := by
  refine ⟨fun h => ?_, .top hparent⟩
  cases h with
  | top _ hdeclare => exact hdeclare
  | under hparent' => cases hparent.symm.trans hparent'
  | underLocal hparent' => cases hparent.symm.trans hparent'

theorem declares_iff_of_under (hnames : (schema.map (·.name)).Nodup) {above : SchemaEntry}
    {b p : Descriptor} (hparent : entry.parent? = some above.name) (hmem : above ∈ schema)
    (habove : Declares schema locals cache above b) (hp : b.Represents locals cache p) :
    Declares schema locals cache entry d ↔
      Descriptor.declare entry.declaration (some p) = .ok d := by
  refine ⟨fun h => ?_, .under hparent hmem habove hp⟩
  cases h with
  | top hparent' => cases hparent.symm.trans hparent'
  | @under _ above' b' p' _ hparent' hmem' habove' hp' hdeclare =>
    obtain rfl : above = above' := List.inj_on_of_nodup_map hnames hmem hmem'
      (Option.some_inj.mp (hparent.symm.trans hparent'))
    obtain rfl := habove.unique hnames habove'
    rwa [hp.unique hp']
  | underLocal hparent' hnone =>
    exact absurd (Option.some_inj.mp (hparent.symm.trans hparent')) (hnone above hmem)

theorem declares_iff_of_underLocal {name : String} (hparent : entry.parent? = some name)
    (hnone : ∀ other ∈ schema, other.name ≠ name) :
    Declares schema locals cache entry d ↔ ∃ t, locals.lookup? name = some t ∧
      Descriptor.declare entry.declaration (some t.descriptor) = .ok d := by
  constructor
  · intro h
    cases h with
    | top hparent' => cases hparent.symm.trans hparent'
    | under hparent' hmem =>
      exact absurd (Option.some_inj.mp (hparent.symm.trans hparent')).symm (hnone _ hmem)
    | underLocal hparent' _ hlookup hdeclare =>
      obtain rfl := Option.some_inj.mp (hparent.symm.trans hparent')
      exact ⟨_, hlookup, hdeclare⟩
  · rintro ⟨t, hlookup, hdeclare⟩
    exact .underLocal hparent hnone hlookup hdeclare

theorem name_of_declare {parent : Option Descriptor}
    (h : Descriptor.declare entry.declaration parent = .ok d) : d.name = entry.name := by
  rcases Descriptor.declare_cases entry.declaration parent with ⟨field, -, herror⟩ |
    ⟨d', hok, -, hlevel⟩
  · cases h.symm.trans herror
  · cases h.symm.trans hok
    rw [Descriptor.name, hlevel]
    rfl

theorem Declares.name (h : Declares schema locals cache entry d) : d.name = entry.name := by
  cases h with
  | top _ hdeclare => exact name_of_declare hdeclare
  | under _ _ _ _ hdeclare => exact name_of_declare hdeclare
  | underLocal _ _ _ hdeclare => exact name_of_declare hdeclare

/-- Only which entries there are matters. -/
theorem Declares.of_mem_iff (hmem : ∀ other, other ∈ schema ↔ other ∈ schema')
    (h : Declares schema locals cache entry d) : Declares schema' locals cache entry d := by
  induction h with
  | top hparent hdeclare => exact .top hparent hdeclare
  | under hparent habove _ hp hdeclare ih =>
    exact .under hparent ((hmem _).mp habove) ih hp hdeclare
  | underLocal hparent hnone hlookup hdeclare =>
    exact .underLocal hparent (fun other hother => hnone other ((hmem _).mpr hother)) hlookup
      hdeclare

/-- All entries have types: what they declare is represented, and no two of them need new types
under one digest. -/
structure Resolvable (schema : List SchemaEntry) (locals : LocalTypes) (cache : SynthesisCache) :
    Prop where
  represented : ∀ entry ∈ schema, ∃ d c, Declares schema locals cache entry d ∧
    d.Represents locals cache c
  apart : ∀ a ∈ schema, ∀ b ∈ schema, ∀ d e, Declares schema locals cache a d →
    Declares schema locals cache b e → d.IsNew locals cache → e.IsNew locals cache →
    cache.key d = cache.key e → a = b

theorem Resolvable.of_mem_iff (hmem : ∀ other, other ∈ schema ↔ other ∈ schema')
    (h : Resolvable schema locals cache) : Resolvable schema' locals cache := by
  refine ⟨fun entry hentry => ?_, fun a ha b hb d e hd he => ?_⟩
  · obtain ⟨d, c, hd, hc⟩ := h.represented entry ((hmem _).mpr hentry)
    exact ⟨d, c, hd.of_mem_iff hmem, hc⟩
  · exact h.apart a ((hmem _).mpr ha) b ((hmem _).mpr hb) d e
      (hd.of_mem_iff fun other => (hmem other).symm) (he.of_mem_iff fun other => (hmem other).symm)

end SchemaEntry

end ObjectEnvelope
