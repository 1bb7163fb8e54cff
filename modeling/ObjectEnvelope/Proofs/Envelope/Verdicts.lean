import ObjectEnvelope.Proofs.Envelope.Describing
import ObjectEnvelope.Proofs.Envelope.Resolving
import ObjectEnvelope.Proofs.Schema.Declaring
import ObjectEnvelope.Proofs.Types.Syntheses

/-!
# Verdicts on entries

What becomes of an entry once its needs are resolved does not hang on who resolves it. It is refused
for a fault that the schema alone determines (`SchemaEntry.Fault`), or it gets a type that it
describes, local, cached or new (`Faithful.yields_build`). A receiver's earlier types cannot hide a
fault, since they have been laid out themselves. So the entries of a schema describe whatever types
are found for them (`Faithful.resolveAll`).
-/

namespace ObjectEnvelope

/-! ## Faults of entries -/

namespace SchemaEntry

/-- A schema in which each name stands for one entry, and each supertype has an entry. -/
structure Closed (schema : List SchemaEntry) : Prop where
  names : (schema.map (·.name)).Nodup
  parents : ∀ entry ∈ schema, ∀ name, entry.parent? = some name →
    ∃ parent ∈ schema, parent.name = name

/-- Why an entry has no type, although its supertype has one. -/
inductive Fault (schema : List SchemaEntry) (entry : SchemaEntry) : WireError → Prop
  | repeatedField {field : String} (h : firstRepeat? (entry.fields.map (·.name)) = some field) :
      Fault schema entry (.duplicateFieldName entry.name field)
  | layout {d : Descriptor} {fault : LayoutFault} (hd : Describes schema entry d)
      (h : d.layoutFault? = some fault) : Fault schema entry (.synthesisFailure fault)

variable {schema : List SchemaEntry} {entry : SchemaEntry} {d a b : Descriptor} {e f : WireError}

theorem Describes.firstRepeat? (h : Describes schema entry d) :
    firstRepeat? (entry.fields.map (·.name)) = none := by
  rw [firstRepeat?_eq_none_iff, h.outlines.fields]
  exact d.isSealed.2.1

/-- What is like a described descriptor is described. -/
theorem Describes.of_alike (h : Describes schema entry a) (halike : a.Alike b) :
    Describes schema entry b := by
  induction h generalizing b with
  | top h hentry ha =>
    refine .top (h.of_alike halike) hentry ?_
    rw [Descriptor.parent?_eq_none_iff, ← List.length_eq_zero_iff, ← halike.above.length_eq,
      Descriptor.parent?_eq_none_iff.mp ha, List.length_nil]
  | under h hentry ha hmem _ ih =>
    obtain ⟨q, hq, hpq⟩ := halike.exists_parent? ha
    exact .under (h.of_alike halike) (hpq.name ▸ hentry) hq hmem (ih hpq)

/-- An entry has one fault. -/
theorem Fault.unique (hnames : (schema.map (·.name)).Nodup) (he : Fault schema entry e)
    (hf : Fault schema entry f) : e = f := by
  cases he with
  | repeatedField he =>
    cases hf with
    | repeatedField hf =>
      rw [Option.some_inj.mp (he.symm.trans hf)]
    | layout hd => simp [hd.firstRepeat?] at he
  | layout hd he =>
    cases hf with
    | repeatedField hf => simp [hd.firstRepeat?] at hf
    | layout hd' hf =>
      rw [(hd.alike hnames hd').layoutFault?] at he
      rw [Option.some_inj.mp (he.symm.trans hf)]

/-- An entry that describes a type has no fault. -/
theorem Describes.not_fault (hnames : (schema.map (·.name)).Nodup) {t : RuntimeType}
    (h : Describes schema entry t.descriptor) : ¬ Fault schema entry e := by
  rintro (hrepeat | ⟨hd, hfault⟩)
  · simp [h.firstRepeat?] at hrepeat
  · rw [← (h.alike hnames hd).layoutFault?, t.admissible] at hfault
    cases hfault

end SchemaEntry

/-! ## Building an entry -/

namespace Resolver

open SchemaEntry

variable {r : Resolver} {ds : Set Descriptor} {p q : PlacedEntry} {s : Resolution} {d : Descriptor}

/-- What a resolution may rely on: the schema is closed, and the descriptors of the local types and
those that the schema describes are known. -/
structure Grounded (r : Resolver) (ds : Set Descriptor) : Prop where
  closed : Closed r.schema
  locals : ∀ t ∈ r.locals.types, t.Known ds
  described : ∀ entry ∈ r.schema, ∀ d, Describes r.schema entry d → d.Known ds

/-- A type of the descriptor is at hand. -/
def Offers (r : Resolver) (cache : SynthesisCache) (d : Descriptor) : Prop :=
  (r.locals.find? d).isSome = true ∨ ∃ t ∈ cache.types, t.digest = d.digest

/-- The types found so far are at hand, and their entries describe them. -/
structure Faithful (r : Resolver) (ds : Set Descriptor) (s : Resolution) : Prop where
  synthesis : s.synthesis.Known ds
  found : ∀ q ∈ r.placed, ∀ t, s.typeAt? q.place = some t →
    Describes r.schema q.entry t.descriptor ∧ t.digest = t.descriptor.digest ∧
      r.Offers s.synthesis t.descriptor

theorem Offers.mono {cache after : SynthesisCache} (h : r.Offers cache d)
    (hsubset : ∀ t ∈ cache.types, t ∈ after.types) : r.Offers after d := by
  rcases h with h | ⟨t, ht, hdigest⟩
  · exact .inl h
  · exact .inr ⟨t, hsubset t ht, hdigest⟩

theorem Offers.of_alike {cache : SynthesisCache} {e : Descriptor} (h : r.Offers cache d)
    (halike : e.Alike d) : r.Offers cache e := by
  unfold Offers LocalTypes.find?
  rw [halike.name, halike.digest]
  exact h

/-- The supertype that an entry is declared below, if there is one, was found for an entry that
describes it, and is at hand. -/
theorem Faithful.exists_supertype (hr : r.Grounded ds) (hs : r.Faithful ds s) (hp : p ∈ r.placed)
    (hneeds : ∀ need ∈ r.needs p.entry, (s.typeAt? need.place).isSome) :
    ∃ parent,
      r.describe s p.entry =
        Descriptor.declare ⟨p.entry.name, p.entry.kind, p.entry.fields, p.entry.interfaces⟩ parent ∧
      p.entry.parent? = parent.map (·.name) ∧
      ∀ d, parent = some d → (∃ entry ∈ r.schema, Describes r.schema entry d) ∧
        r.Offers s.synthesis d := by
  cases hname : p.entry.parent? with
  | none => exact ⟨none, describe_of_parent?_eq_none s hname, rfl, nofun⟩
  | some name =>
    have hmem : p.entry ∈ r.schema := mem_schema_of_placed hp
    obtain ⟨above, habove, rfl⟩ := hr.closed.parents p.entry hmem name hname
    obtain ⟨q, hq⟩ := exists_entry?_of_mem habove
    obtain ⟨hqplaced, hqname⟩ := mem_of_entry?_eq_some hq
    obtain ⟨t, ht, hrun⟩ := exists_describe_of_parent? hname hq hneeds
    obtain ⟨hdescribes, -, hoffers⟩ := hs.found q hqplaced t ht
    refine ⟨some t.descriptor, hrun, ?_, ?_⟩
    · rw [Option.map_some, ← hdescribes.outlines.name, hqname]
    · rintro _ ⟨rfl⟩
      exact ⟨⟨q.entry, mem_schema_of_placed hqplaced, hdescribes⟩, hoffers⟩

/-- An entry is described with the supertype that was found for the entry of its name. -/
theorem Faithful.describe_cases (hr : r.Grounded ds) (hs : r.Faithful ds s) (hp : p ∈ r.placed)
    (hneeds : ∀ need ∈ r.needs p.entry, (s.typeAt? need.place).isSome) :
    (∃ e, r.describe s p.entry = .error e ∧ Fault r.schema p.entry e) ∨
    ∃ d, r.describe s p.entry = .ok d ∧ Describes r.schema p.entry d ∧
      ∀ parent, d.parent? = some parent → r.Offers s.synthesis parent := by
  obtain ⟨parent, hrun, hentry, hparent⟩ := hs.exists_supertype hr hp hneeds
  rw [hrun]
  rcases Descriptor.declare_cases _ parent with ⟨field, hfield, herror⟩ | ⟨d, hok, habove, hlevel⟩
  · exact .inl ⟨_, herror, .repeatedField hfield⟩
  · have hup : d.parent? = parent := Descriptor.parent?_eq_of_above habove
    have houtlines : p.entry.Outlines d := .of_level hlevel
    refine .inr ⟨d, hok, ?_, fun above h => (hparent above (hup ▸ h)).2⟩
    cases parent with
    | none => exact .top houtlines hentry hup
    | some above =>
      obtain ⟨⟨entry, hentrymem, hdescribes⟩, -⟩ := hparent above rfl
      exact .under houtlines hentry hup hentrymem hdescribes

/-- A described descriptor gets a type exactly if it can be laid out. -/
theorem Faithful.yields_typeOf (hds : CollisionFree ds) (hr : r.Grounded ds)
    (hs : r.Faithful ds s) (hd : d.Known ds)
    (hparent : ∀ parent, d.parent? = some parent → r.Offers s.synthesis parent) :
    Step.Yields (r.typeOf d) s
      (fun t u => (u.synthesis.Known ds ∧ (∀ v ∈ s.synthesis.types, v ∈ u.synthesis.types) ∧
        u.resolved = s.resolved) ∧ r.Offers u.synthesis d ∧ t.digest = d.digest ∧
        t.descriptor.Alike d)
      fun e => ∃ fault, d.layoutFault? = some fault ∧ e = .synthesisFailure fault := by
  unfold Step.Yields typeOf
  cases hfind : r.locals.find? d with
  | some t =>
    obtain ⟨hlookup, hdigest⟩ := LocalTypes.find?_eq_some_iff.mp hfind
    have ht := hr.locals t (LocalTypes.mem_of_lookup? hlookup).1
    refine .inl ⟨t, s, rfl, ⟨hs.synthesis, fun _ h => h, rfl⟩, .inl ?_, hdigest,
      ht.alike hds hd hdigest⟩
    rw [hfind, Option.isSome_some]
  | none =>
    rcases hs.synthesis.yields_synthesize hds hd hparent with
      ⟨t, after, hrun, ⟨hafter, hsubset⟩, ht, hdigest, halike⟩ | ⟨e, after, hrun, hfault⟩
    · exact .inl ⟨t, _, Step.on_eq_ok_iff.mpr ⟨after, hrun, rfl⟩, ⟨hafter, hsubset, rfl⟩,
        .inr ⟨t, ht, hdigest⟩, hdigest, halike⟩
    · exact .inr ⟨e, _, Step.on_eq_error_iff.mpr ⟨after, hrun, rfl⟩, hfault⟩

/-- A type that its entry describes joins those found so far. -/
theorem Faithful.add (hs : r.Faithful ds s) (hp : p ∈ r.placed) {u : Resolution} {t : RuntimeType}
    (hresolved : u.resolved = (p.place, t) :: s.resolved) (hu : u.synthesis.Known ds)
    (hsubset : ∀ v ∈ s.synthesis.types, v ∈ u.synthesis.types)
    (hdescribes : Describes r.schema p.entry t.descriptor)
    (hdigest : t.digest = t.descriptor.digest) (hoffers : r.Offers u.synthesis t.descriptor) :
    r.Faithful ds u := by
  refine ⟨hu, forall_typeAt?_of_cons hp hresolved ⟨hdescribes, hdigest, hoffers⟩
    fun q hq v hv => ?_⟩
  obtain ⟨hdescribes', hdigest', hoffers'⟩ := hs.found q hq v hv
  exact ⟨hdescribes', hdigest', hoffers'.mono hsubset⟩

/-- **Verdicts.** Once its needs are resolved, an entry gets a type that it describes or is refused
for its fault, whatever types the receiver has. -/
theorem Faithful.yields_build (hds : CollisionFree ds) (hr : r.Grounded ds)
    (hs : r.Faithful ds s) (hp : p ∈ r.placed)
    (hneeds : ∀ need ∈ r.needs p.entry, (s.typeAt? need.place).isSome) :
    Step.Yields (r.build p) s
      (fun t u => (r.Faithful ds u ∧ u.resolved = (p.place, t) :: s.resolved) ∧
        Describes r.schema p.entry t.descriptor)
      (Fault r.schema p.entry) := by
  have hmem : p.entry ∈ r.schema := mem_schema_of_placed hp
  rcases hs.describe_cases hr hp hneeds with ⟨e, hrun, hfault⟩ | ⟨d, hrun, hdescribes, hparent⟩
  · exact .inr ⟨e, s, build_eq_error_iff.mpr (.inl ⟨hrun, rfl⟩), hfault⟩
  · have hd := hr.described p.entry hmem d hdescribes
    rcases hs.yields_typeOf hds hr hd hparent with ⟨t, u, htype, hkept, hoffers, hdigest, halike⟩ |
      ⟨e, u, htype, fault, hfault, rfl⟩
    · obtain ⟨hu, hsubset, hresolved⟩ := hkept
      have hfound : Describes r.schema p.entry t.descriptor := hdescribes.of_alike halike.symm
      have hcons : (p.place, t) :: u.resolved = (p.place, t) :: s.resolved := by rw [hresolved]
      exact .inl ⟨t, _, build_eq_ok hrun htype, ⟨hs.add hp hcons hu hsubset hfound
        (hdigest.trans halike.digest.symm) (hoffers.of_alike halike), hcons⟩, hfound⟩
    · exact .inr ⟨_, u, build_eq_error_iff.mpr (.inr ⟨d, hrun, htype⟩), .layout hdescribes hfault⟩

/-- So the entries of a schema can be resolved one after the other. -/
theorem Grounded.advances (hds : CollisionFree ds) (hr : r.Grounded ds) :
    r.Advances (r.Faithful ds) fun e => ∃ entry ∈ r.schema, Fault r.schema entry e := by
  intro p hp s hs _ hneeds
  have hmem : p.entry ∈ r.schema := mem_schema_of_placed hp
  exact (hs.yields_build hds hr hp hneeds).mono (fun _ _ ht => ht.1) fun _ he => ⟨_, hmem, he⟩

/-- The entry describes the type, which is found by its own digest. -/
def Found (r : Resolver) (p : PlacedEntry) (t : RuntimeType) : Prop :=
  Describes r.schema p.entry t.descriptor ∧ t.digest = t.descriptor.digest

/-- The entries of a schema describe the types that they are resolved to. -/
theorem Faithful.resolveAll (hds : CollisionFree ds) (hr : r.Grounded ds) (hs : r.Faithful ds s)
    {types : List RuntimeType} {u : Resolution} (h : r.resolveAll s = .ok types u) :
    List.Forall₂ r.Found r.placed types := by
  obtain ⟨hu, htypes⟩ := ((hr.advances hds).yields_resolveAll hs).of_ok h
  refine htypes.imp fun p t hp => ?_
  obtain ⟨hdescribes, hdigest, -⟩ := hu.found p hp.1 t hp.2
  exact ⟨hdescribes, hdigest⟩

end Resolver

end ObjectEnvelope
