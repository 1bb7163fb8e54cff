import ObjectEnvelope.Proofs.Envelope.Standing

/-!
# Resolutions in any order

In whatever order the entries of a schema are resolved, a resolution finds for each of them a type
that stands for it, makes types for nothing else, and resolves no entry that depends on itself
(`Resolver.Steady`). So it fails only when it is refused for what the entries depend on, or when the
schema is not resolvable in any order (`Resolver.yields_standing`).
-/

namespace ObjectEnvelope

/-- A layout does not hang on what entries depend on. -/
theorem Descriptor.not_ofDependencies {d : Descriptor} {fault : LayoutFault}
    (h : d.layoutFault? = some fault) :
    ¬ WireError.OfDependencies (.synthesisFailure fault) := by
  unfold layoutFault? at h
  split at h
  · cases h
    rintro ⟨⟩
  · split at h
    · unfold enumFault? at h
      split at h
      · cases h
        rintro ⟨⟩
      · split at h <;> cases h
        rintro ⟨⟩
    · simp only [extensionFault?, HOrElse.hOrElse, OrElse.orElse, Option.orElse_eq_or,
        Option.or_eq_some_iff, Option.bind_eq_some_iff, Option.map_eq_some_iff] at h
      rcases h with ⟨parent, -, h⟩ | ⟨-, ⟨conflict, -, rfl⟩ | ⟨-, h⟩⟩
      · split at h <;> cases h
        rintro ⟨⟩
      · rintro ⟨⟩
      · split at h <;> cases h
        rintro ⟨⟩

namespace Resolver

open SchemaEntry

variable {r : Resolver} {cache now after : SynthesisCache} {p q : PlacedEntry} {s t : Resolution}
  {d e : Descriptor} {type : RuntimeType}

/-! ## Types at hand -/

/-- Besides the types from before the cache has types for new descriptors that entries declare. -/
structure Grown (r : Resolver) (cache now : SynthesisCache) : Prop where
  key : now.key = cache.key
  types : ∃ made, now.types = cache.types ++ made ∧ ∀ t ∈ made, ∃ entry ∈ r.schema,
    Declares r.schema r.locals cache entry t.descriptor ∧ t.descriptor.IsNew r.locals cache
  indexed : now.Indexed

/-- The type is the local one of the descriptor, or, if there is none, a cached one. -/
def Serves (r : Resolver) (now : SynthesisCache) (d : Descriptor) (type : RuntimeType) : Prop :=
  r.locals.find? d = some type ∨ r.locals.find? d = none ∧ type ∈ now.types

/-- The type stands for the entry: it is at hand, and made of what represents the descriptor that
the entry declares. -/
def StandsFor (r : Resolver) (cache now : SynthesisCache) (entry : SchemaEntry)
    (type : RuntimeType) : Prop :=
  ∃ d, Declares r.schema r.locals cache entry d ∧
    d.Represents r.locals cache type.descriptor ∧ r.Serves now d type

/-- What a resolution has found and made, in whatever order. -/
structure Steady (r : Resolver) (cache : SynthesisCache) (s : Resolution) : Prop where
  grown : r.Grown cache s.synthesis
  found : ∀ p ∈ r.placed, ∀ type, s.typeAt? p.place = some type →
    r.StandsFor cache s.synthesis p.entry type
  /-- Below a resolved entry dependencies come to an end. -/
  acyclic : ∀ p ∈ r.placed, ∀ type, s.typeAt? p.place = some type →
    Acc (fun b a => Depends r.schema a b) p.entry

/-- The descriptor is that of a type at hand. -/
def AtHand (r : Resolver) (now : SynthesisCache) (d : Descriptor) : Prop :=
  (r.locals.find? d).isSome = true ∨ ∃ t ∈ now.types, t.descriptor = d

theorem Serves.mono (hsubset : ∀ t ∈ now.types, t ∈ after.types) (h : r.Serves now d type) :
    r.Serves after d type :=
  h.imp_right fun h => ⟨h.1, hsubset _ h.2⟩

theorem StandsFor.mono {entry : SchemaEntry} (hsubset : ∀ t ∈ now.types, t ∈ after.types)
    (h : r.StandsFor cache now entry type) : r.StandsFor cache after entry type := by
  obtain ⟨d, hd, hrepresents, hserves⟩ := h
  exact ⟨d, hd, hrepresents, hserves.mono hsubset⟩

/-- A local type is found by its descriptor. -/
theorem atHand_of_mem {ds : Set Descriptor} (hlocals : r.locals.Consistent ds)
    (htype : type ∈ r.locals.types) : r.AtHand now type.descriptor := by
  have hfind : r.locals.find? type.descriptor = some type :=
    LocalTypes.find?_eq_some_iff.mpr ⟨hlocals.lookup?_eq htype, hlocals.digest type htype⟩
  exact .inl (hfind ▸ rfl)

theorem Serves.atHand {ds : Set Descriptor} (hlocals : r.locals.Consistent ds)
    (h : r.Serves now d type) : r.AtHand now type.descriptor := by
  rcases h with hlocal | ⟨-, hmem⟩
  · obtain ⟨hlookup, -⟩ := LocalTypes.find?_eq_some_iff.mp hlocal
    exact atHand_of_mem hlocals (LocalTypes.mem_of_lookup? hlookup).1
  · exact .inr ⟨type, hmem, rfl⟩

theorem Grown.get?_eq_some (h : r.Grown cache now) {digest : Digest}
    (hget : now.get? digest = some type) :
    cache.get? digest = some type ∨ cache.get? digest = none ∧ ∃ entry ∈ r.schema,
      Declares r.schema r.locals cache entry type.descriptor ∧
        type.descriptor.IsNew r.locals cache := by
  obtain ⟨made, hmade, hnew⟩ := h.types
  rw [SynthesisCache.get?, hmade, List.find?_append, Option.or_eq_some_iff] at hget
  exact hget.imp_right fun ⟨hnone, hfind⟩ => ⟨hnone, hnew type (List.mem_of_find?_eq_some hfind)⟩

theorem Grown.get?_eq_none (h : r.Grown cache now) {digest : Digest}
    (hget : now.get? digest = none) : cache.get? digest = none := by
  obtain ⟨made, hmade, -⟩ := h.types
  rw [SynthesisCache.get?, hmade, List.find?_append, Option.or_eq_none_iff] at hget
  exact hget.1

/-- A type for a new descriptor that an entry declares can be added. -/
theorem Grown.add (h : r.Grown cache now) {entry : SchemaEntry} (hentry : entry ∈ r.schema)
    (hd : Declares r.schema r.locals cache entry d) (hnew : d.IsNew r.locals cache)
    (hget : now.get? (now.key d) = none)
    (hcreate : RuntimeType.create ⟨.synthesized, now.home, now.types.length⟩ (now.key d) d =
      .ok type) : r.Grown cache { now with types := now.types ++ [type] } := by
  obtain ⟨made, hmade, hmem⟩ := h.types
  obtain ⟨-, -, -, hdescriptor⟩ := RuntimeType.create_eq_ok_iff.mp hcreate
  refine ⟨h.key, ⟨made ++ [type], by rw [hmade, List.append_assoc], ?_⟩, h.indexed.add hget hcreate⟩
  rw [List.forall_mem_append, List.forall_mem_singleton, hdescriptor]
  exact ⟨hmem, entry, hentry, hd, hnew⟩

/-! ## Types for descriptors -/

/-- Entries of one name are one entry, and declare one descriptor. -/
theorem eq_of_declares (hnames : (r.schema.map (·.name)).Nodup) {a b : SchemaEntry}
    (ha : a ∈ r.schema) (hb : b ∈ r.schema) (hd : Declares r.schema r.locals cache a d)
    (he : Declares r.schema r.locals cache b e) (hname : d.name = e.name) : d = e := by
  obtain rfl : a = b :=
    List.inj_on_of_nodup_map hnames ha hb (hd.name.symm.trans (hname.trans he.name))
  exact hd.unique hnames he

section

variable (hnames : (r.schema.map (·.name)).Nodup) {entry : SchemaEntry} (hentry : entry ∈ r.schema)
  (hd : Declares r.schema r.locals cache entry d)

include hnames hentry hd

/-- The type that is kept or made for a declared descriptor represents it. -/
theorem Grown.of_synthesizeOne (h : r.Grown cache now) (hlocal : r.locals.find? d = none)
    (hrun : SynthesisCache.synthesizeOne d now = .ok type after) :
    (r.Grown cache after ∧ ∀ u ∈ now.types, u ∈ after.types) ∧
      d.Represents r.locals cache type.descriptor ∧ type ∈ after.types := by
  rcases SynthesisCache.synthesizeOne_eq_ok_iff.mp hrun with
    ⟨hget, hsame, rfl⟩ | ⟨hget, hcreate, rfl⟩
  · refine ⟨⟨h, fun _ hu => hu⟩, ?_, List.mem_of_find?_eq_some hget⟩
    rw [h.key] at hget
    rcases h.get?_eq_some hget with hkept | ⟨hnone, other, hother, hdeclares, -⟩
    · exact .kept hlocal hkept hsame
    · -- a type that was made since was made for the same entry
      obtain rfl := eq_of_declares hnames hother hentry hdeclares hd
        (Descriptor.same_iff.mp hsame).1.name
      exact .fresh hlocal hnone type.admissible
  · obtain ⟨hadmissible, -, -, hdescriptor⟩ := RuntimeType.create_eq_ok_iff.mp hcreate
    have hnone : cache.get? (cache.key d) = none := h.key ▸ h.get?_eq_none hget
    refine ⟨⟨h.add hentry hd ⟨hlocal, hnone⟩ hget hcreate,
      fun u hu => List.mem_append.mpr (.inl hu)⟩, ?_, by simp⟩
    rw [hdescriptor]
    exact .fresh hlocal hnone hadmissible

/-- If a declared descriptor is refused, the schema is not resolvable in any order. -/
theorem Grown.not_resolvable (h : r.Grown cache now) (hlocal : r.locals.find? d = none)
    {f : WireError} (hrun : SynthesisCache.synthesizeOne d now = .error f after) :
    ¬ Resolvable r.schema r.locals cache ∧ ¬ f.OfDependencies := by
  obtain ⟨-, ⟨held, hget, hsame, rfl⟩ | ⟨hget, fault, hfault, rfl⟩⟩ :=
    SynthesisCache.synthesizeOne_eq_error_iff.mp hrun
  · refine ⟨fun hresolvable => ?_, by rintro ⟨⟩⟩
    obtain ⟨d', c, hd', hc⟩ := hresolvable.represented entry hentry
    obtain rfl := hd.unique hnames hd'
    have hdigest : cache.key held.descriptor = cache.key d := by
      rw [← h.key, ← h.indexed.digest held (List.mem_of_find?_eq_some hget)]
      simpa using List.find?_some hget
    rw [h.key] at hget
    rcases h.get?_eq_some hget with hkept | ⟨hnone, other, hother, hdeclares, hnew⟩
    · cases hc with
      | known hknown => cases hlocal.symm.trans hknown
      | kept _ hkept' hsame' =>
        obtain rfl := Option.some_inj.mp (hkept.symm.trans hkept')
        cases hsame.symm.trans hsame'
      | fresh _ hnone => cases hkept.symm.trans hnone
    · -- the entries need new types under one digest
      obtain rfl := hresolvable.apart other hother entry hentry _ _ hdeclares hd hnew
        ⟨hlocal, hnone⟩ hdigest
      rw [hdeclares.unique hnames hd, Descriptor.same_self] at hsame
      cases hsame
  · refine ⟨fun hresolvable => ?_, Descriptor.not_ofDependencies hfault⟩
    obtain ⟨d', c, hd', hc⟩ := hresolvable.represented entry hentry
    obtain rfl := hd.unique hnames hd'
    have hnone : cache.get? (cache.key d) = none := h.key ▸ h.get?_eq_none hget
    rw [(hc.eq_of_isNew ⟨hlocal, hnone⟩).2] at hfault
    cases hfault

/-- Below a supertype that is at hand, a declared descriptor gets its type or is refused, and the
schema with it. -/
theorem Grown.yields_typeOf (h : r.Grown cache s.synthesis)
    (hparent : ∀ above, d.parent? = some above → r.AtHand s.synthesis above) :
    (r.typeOf d).Yields s
      (fun type t => (r.Grown cache t.synthesis ∧ ∀ u ∈ s.synthesis.types, u ∈ t.synthesis.types) ∧
        t.resolved = s.resolved ∧ d.Represents r.locals cache type.descriptor ∧
        r.Serves t.synthesis d type)
      fun f => ¬ Resolvable r.schema r.locals cache ∧ ¬ f.OfDependencies := by
  unfold Step.Yields typeOf
  cases hlocal : r.locals.find? d with
  | some type => exact .inl ⟨type, s, rfl, ⟨h, fun _ hu => hu⟩, rfl, .known hlocal, .inl hlocal⟩
  | none =>
    have hrun : SynthesisCache.synthesize (fun ancestor => (r.locals.find? ancestor).isSome) d
        s.synthesis = SynthesisCache.synthesizeOne d s.synthesis :=
      h.indexed.synthesize_eq hparent
    cases hone : SynthesisCache.synthesizeOne d s.synthesis with
    | ok type after =>
      obtain ⟨hafter, hrepresents, hmem⟩ := h.of_synthesizeOne hnames hentry hd hlocal hone
      exact .inl ⟨type, _, Step.on_eq_ok_iff.mpr ⟨after, hrun.trans hone, rfl⟩, hafter, rfl,
        hrepresents, .inr ⟨hlocal, hmem⟩⟩
    | error f after =>
      exact .inr ⟨f, _, Step.on_eq_error_iff.mpr ⟨after, hrun.trans hone, rfl⟩,
        h.not_resolvable hnames hentry hd hlocal hone⟩

end

/-! ## Building an entry -/

/-- An entry is found by its name. -/
theorem entry?_eq_none_iff {name : String} :
    r.entry? name = none ↔ ∀ entry ∈ r.schema, entry.name ≠ name := by
  constructor
  · rintro hnone entry hentry rfl
    obtain ⟨q, hq⟩ := exists_entry?_of_mem hentry
    cases hnone.symm.trans hq
  · intro hnone
    cases hq : r.entry? name with
    | none => rfl
    | some q =>
      obtain ⟨hqplaced, hqname⟩ := mem_of_entry?_eq_some hq
      exact absurd hqname (hnone _ (mem_schema_of_placed hqplaced))

/-- Without an entry of its name, the supertype of an entry is the local type of that name. -/
theorem describe_of_entry?_eq_none {entry : SchemaEntry} {name : String}
    (hparent : entry.parent? = some name) (hnone : r.entry? name = none) :
    r.describe s entry = match r.locals.lookup? name with
      | some type => Descriptor.declare entry.declaration (some type.descriptor)
      | none => .error (.synthesisFailure (.unknownSupertype name entry.name)) := by
  have hresolved : r.parent s name entry.name = match r.locals.lookup? name with
      | some type => .ok type.descriptor
      | none => .error (.synthesisFailure (.unknownSupertype name entry.name)) := by
    unfold parent
    rw [hnone]
    cases r.locals.lookup? name <;> rfl
  unfold describe
  simp only [hparent, Option.mapM_some, hresolved]
  cases r.locals.lookup? name <;> rfl

/-- With its needs resolved, an entry is declared below a supertype that is at hand, and what it
declares below it is what it declares in any order; or it declares nothing in any order. -/
theorem Steady.exists_supertype {ds : Set Descriptor} (hnames : (r.schema.map (·.name)).Nodup)
    (hlocals : r.locals.Consistent ds) (hs : r.Steady cache s)
    (hneeds : ∀ need ∈ r.needs p.entry, (s.typeAt? need.place).isSome) :
    (∃ parent, r.describe s p.entry = Descriptor.declare p.entry.declaration parent ∧
      (∀ d, Declares r.schema r.locals cache p.entry d ↔
        Descriptor.declare p.entry.declaration parent = .ok d) ∧
      ∀ above, parent = some above → r.AtHand s.synthesis above) ∨
    ∃ f, r.describe s p.entry = .error f ∧ ¬ f.OfDependencies ∧
      ∀ d, ¬ Declares r.schema r.locals cache p.entry d := by
  cases hup : p.entry.parent? with
  | none =>
    exact .inl ⟨none, describe_of_parent?_eq_none s hup, fun d => declares_iff_of_top hup, nofun⟩
  | some name =>
    cases hq : r.entry? name with
    | some q =>
      obtain ⟨hqplaced, rfl⟩ := mem_of_entry?_eq_some hq
      have hqmem : q.entry ∈ r.schema := mem_schema_of_placed hqplaced
      obtain ⟨type, htype, hrun⟩ := exists_describe_of_parent? hup hq hneeds
      obtain ⟨b, hb, hrepresents, hserves⟩ := hs.found q hqplaced type htype
      exact .inl ⟨some type.descriptor, hrun,
        fun d => declares_iff_of_under hnames hup hqmem hb hrepresents,
        fun above habove => Option.some_inj.mp habove ▸ hserves.atHand hlocals⟩
    | none =>
      have hdeclares : ∀ d, Declares r.schema r.locals cache p.entry d ↔
          ∃ t, r.locals.lookup? name = some t ∧
            Descriptor.declare p.entry.declaration (some t.descriptor) = .ok d :=
        fun d => declares_iff_of_underLocal hup (entry?_eq_none_iff.mp hq)
      have hrun := describe_of_entry?_eq_none (s := s) hup hq
      cases hlookup : r.locals.lookup? name with
      | some type =>
        rw [hlookup] at hrun
        refine .inl ⟨some type.descriptor, hrun, fun d => ?_, fun above habove =>
          Option.some_inj.mp habove ▸ atHand_of_mem hlocals (LocalTypes.mem_of_lookup? hlookup).1⟩
        rw [hdeclares, hlookup]
        simp
      | none =>
        rw [hlookup] at hrun
        refine .inr ⟨_, hrun, by rintro ⟨⟩, fun d => ?_⟩
        rw [hdeclares, hlookup]
        simp

/-- With its needs resolved, an entry declares what it does in any order, below a supertype that is
at hand; or it declares nothing in any order. -/
theorem Steady.describe_cases {ds : Set Descriptor} (hnames : (r.schema.map (·.name)).Nodup)
    (hlocals : r.locals.Consistent ds) (hs : r.Steady cache s)
    (hneeds : ∀ need ∈ r.needs p.entry, (s.typeAt? need.place).isSome) :
    (∃ d, r.describe s p.entry = .ok d ∧ Declares r.schema r.locals cache p.entry d ∧
      ∀ above, d.parent? = some above → r.AtHand s.synthesis above) ∨
    ∃ f, r.describe s p.entry = .error f ∧ ¬ f.OfDependencies ∧
      ∀ d, ¬ Declares r.schema r.locals cache p.entry d := by
  rcases hs.exists_supertype hnames hlocals hneeds with ⟨parent, hrun, hdeclares, hhand⟩ | hfails
  · rcases Descriptor.declare_cases p.entry.declaration parent with
      ⟨field, -, herror⟩ | ⟨d, hok, habove, -⟩
    · refine .inr ⟨_, hrun.trans herror, by rintro ⟨⟩, fun d hd => ?_⟩
      cases herror.symm.trans ((hdeclares d).mp hd)
    · refine .inl ⟨d, hrun.trans hok, (hdeclares d).mpr hok, fun above h => hhand above ?_⟩
      exact (Descriptor.parent?_eq_of_above habove).symm.trans h
  · exact .inr hfails

/-- What an entry depends on, it needs. -/
theorem exists_need_of_depends (hnames : (r.schema.map (·.name)).Nodup) {a b : SchemaEntry}
    (h : Depends r.schema a b) : ∃ q ∈ r.needs a, q.entry = b := by
  obtain ⟨-, hb, hname⟩ := h
  obtain ⟨q, hq, rfl⟩ := exists_entry?_eq hnames hb
  exact ⟨q, List.mem_filterMap.mpr ⟨q.entry.name, hname, hq⟩, rfl⟩

/-- A type that stands for its entry joins those found so far. -/
theorem Steady.add (hnames : (r.schema.map (·.name)).Nodup) (hs : r.Steady cache s)
    (hp : p ∈ r.placed) (hneeds : ∀ need ∈ r.needs p.entry, (s.typeAt? need.place).isSome)
    (ht : t.resolved = (p.place, type) :: s.resolved) (hgrown : r.Grown cache t.synthesis)
    (hsubset : ∀ u ∈ s.synthesis.types, u ∈ t.synthesis.types)
    (htype : r.StandsFor cache t.synthesis p.entry type) : r.Steady cache t := by
  refine ⟨hgrown, forall_typeAt?_of_cons hp ht htype fun q hq found hfound =>
    (hs.found q hq found hfound).mono hsubset, ?_⟩
  refine forall_typeAt?_of_cons hp ht (.intro _ fun b hb => ?_) hs.acyclic
  obtain ⟨need, hneed, rfl⟩ := exists_need_of_depends hnames hb
  obtain ⟨found, hfound⟩ := Option.isSome_iff_exists.mp (hneeds need hneed)
  exact hs.acyclic need (mem_placed_of_needs hneed) found hfound

/-- **Steps in any order.** Once the needs of an entry are resolved, it gets a type that stands for
it, or the schema is not resolvable in any order. -/
theorem steady_advances {ds : Set Descriptor} (hnames : (r.schema.map (·.name)).Nodup)
    (hlocals : r.locals.Consistent ds) :
    r.Advances (r.Steady cache)
      fun f => ¬ Resolvable r.schema r.locals cache ∧ ¬ f.OfDependencies := by
  intro p hp s hs _ hneeds
  have hmem : p.entry ∈ r.schema := mem_schema_of_placed hp
  rcases hs.describe_cases hnames hlocals hneeds with
    ⟨d, hdescribe, hd, hparent⟩ | ⟨f, hdescribe, hf, hnone⟩
  · rcases hs.grown.yields_typeOf hnames hmem hd hparent with
      ⟨type, u, htype, ⟨hgrown, hsubset⟩, hresolved, hrepresents, hserves⟩ | ⟨f, u, htype, hf⟩
    · have hcons : (p.place, type) :: u.resolved = (p.place, type) :: s.resolved := by
        rw [hresolved]
      exact .inl ⟨type, _, build_eq_ok hdescribe htype,
        hs.add hnames hp hneeds hcons hgrown hsubset ⟨d, hd, hrepresents, hserves⟩, hcons⟩
    · exact .inr ⟨f, u, build_eq_error_iff.mpr (.inr ⟨d, hdescribe, htype⟩), hf⟩
  · refine .inr ⟨f, s, build_eq_error_iff.mpr (.inl ⟨hdescribe, rfl⟩), fun hresolvable => ?_, hf⟩
    obtain ⟨d, -, hd, -⟩ := hresolvable.represented p.entry hmem
    exact hnone d hd

/-! ## Whole resolutions -/

theorem steady_start (hcache : cache.Indexed) : r.Steady cache ⟨cache, []⟩ := by
  refine ⟨⟨rfl, ⟨[], by simp, by simp⟩, hcache⟩, ?_, ?_⟩ <;> rintro p - type ⟨⟩

/-- A resolution that has found all types shows that the schema is resolvable. -/
theorem Steady.resolvable (hnames : (r.schema.map (·.name)).Nodup) (hs : r.Steady cache s)
    (hall : ∀ p ∈ r.placed, ∃ type, s.typeAt? p.place = some type) :
    Resolvable r.schema r.locals cache := by
  have hstands : ∀ entry ∈ r.schema, ∃ type, r.StandsFor cache s.synthesis entry type := by
    intro entry hentry
    obtain ⟨p, hp, rfl⟩ := exists_placed hentry
    obtain ⟨type, htype⟩ := hall p hp
    exact ⟨type, hs.found p hp type htype⟩
  -- a new descriptor is that of the type that was made for it
  have hmade : ∀ entry ∈ r.schema, ∀ d, Declares r.schema r.locals cache entry d →
      d.IsNew r.locals cache → ∃ type ∈ s.synthesis.types, type.descriptor = d := by
    intro entry hentry d hd hnew
    obtain ⟨type, d', hd', hrepresents, hserves⟩ := hstands entry hentry
    obtain rfl := hd.unique hnames hd'
    rcases hserves with hlocal | ⟨-, hmem⟩
    · cases hnew.1.symm.trans hlocal
    · exact ⟨type, hmem, (hrepresents.eq_of_isNew hnew).1⟩
  constructor
  · intro entry hentry
    obtain ⟨type, d, hd, hrepresents, -⟩ := hstands entry hentry
    exact ⟨d, type.descriptor, hd, hrepresents⟩
  · intro a ha b hb d e hd he hdnew henew hkey
    obtain ⟨type, hmem, rfl⟩ := hmade a ha d hd hdnew
    obtain ⟨other, hmem', rfl⟩ := hmade b hb e he henew
    have hdigest : type.digest = other.digest := by
      rw [hs.grown.indexed.digest type hmem, hs.grown.indexed.digest other hmem', hs.grown.key,
        hkey]
    obtain rfl : type = other :=
      List.inj_on_of_nodup_map hs.grown.indexed.nodup hmem hmem' hdigest
    exact List.inj_on_of_nodup_map hnames ha hb (hd.name.symm.trans he.name)

/-- Where dependencies come to an end, no entry depends on itself. -/
theorem Steady.not_cyclic (hs : r.Steady cache s)
    (hall : ∀ p ∈ r.placed, ∃ type, s.typeAt? p.place = some type) (a : SchemaEntry) :
    ¬ Relation.TransGen (Depends r.schema) a a := by
  intro hcycle
  obtain ⟨b, ⟨ha, -⟩, -⟩ := Relation.TransGen.head'_iff.mp hcycle
  obtain ⟨p, hp, rfl⟩ := exists_placed ha
  obtain ⟨type, htype⟩ := hall p hp
  have hacc : Acc (Relation.TransGen fun b a => Depends r.schema a b) p.entry :=
    (hs.acyclic p hp type htype).transGen
  have hswap : Relation.TransGen (fun b a => Depends r.schema a b) p.entry p.entry :=
    Relation.transGen_swap.mpr hcycle
  generalize p.entry = a at hacc hswap
  induction hacc with
  | intro x _ ih => exact ih x hswap hswap

/-- **Resolutions in any order.** A resolution finds types that stand for the entries, and then the
schema is resolvable and no entry depends on itself; or it is refused for what the entries depend
on; or the schema is not resolvable in any order. -/
theorem yields_standing {ds : Set Descriptor} (hnames : (r.schema.map (·.name)).Nodup)
    (hlocals : r.locals.Consistent ds) (hcache : cache.Indexed) :
    r.resolveAll.Yields ⟨cache, []⟩
      (fun types t => (Resolvable r.schema r.locals cache ∧
          ∀ a, ¬ Relation.TransGen (Depends r.schema) a a) ∧ t.synthesis.Indexed ∧
        List.Forall₂ (fun p type => r.StandsFor cache t.synthesis p.entry type) r.placed types)
      fun f => r.Refusal f ∨ (¬ Resolvable r.schema r.locals cache ∧ ¬ f.OfDependencies) := by
  refine ((steady_advances hnames hlocals).yields_resolveAll (steady_start hcache)).mono ?_
    fun _ hf => hf
  rintro types t ⟨ht, htypes⟩
  have hall : ∀ p ∈ r.placed, ∃ type, t.typeAt? p.place = some type := by
    intro p hp
    obtain ⟨type, -, -, hfound⟩ := forall₂_exists_right htypes hp
    exact ⟨type, hfound⟩
  exact ⟨⟨ht.resolvable hnames hall, ht.not_cyclic hall⟩, ht.grown.indexed,
    htypes.imp fun p type hp => ht.found p hp.1 type hp.2⟩

end Resolver

end ObjectEnvelope
