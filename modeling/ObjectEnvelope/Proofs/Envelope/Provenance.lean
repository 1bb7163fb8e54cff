import ObjectEnvelope.Proofs.Envelope.Describing
import ObjectEnvelope.Proofs.Envelope.Steady

/-!
# Where resolved types come from

Whatever its entries say, a schema is resolved to types that the receiver holds: local ones, cached
ones and those that the resolution adds to the cache. Each level of such a type is outlined by an
entry of the schema, or has the name and the digest of a local type, which brings its own supertypes
(`Resolver.Traced`). Only a collision could smuggle in another supertype, since a cached type stands
in for what an entry declares as soon as the two agree in one level and in the digest of the next.
-/

namespace ObjectEnvelope

/-- The type is a local one, or the cache has it. -/
def LocalTypes.Holds (locals : LocalTypes) (cache : SynthesisCache) (t : RuntimeType) : Prop :=
  t ∈ locals.types ∨ t ∈ cache.types

/-- The descriptors of the types, with their supertypes. -/
def LocalTypes.heldWith (locals : LocalTypes) (cache : SynthesisCache) : Set Descriptor :=
  {e | e ∈ (locals.types ++ cache.types).flatMap (·.descriptor.lineage)}

/-- They are finitely many, so that collisions among them can be looked for. -/
instance (locals : LocalTypes) (cache : SynthesisCache) :
    Decidable (CollisionFree (locals.heldWith cache)) :=
  inferInstanceAs (Decidable
    (∀ d ∈ (locals.types ++ cache.types).flatMap (·.descriptor.lineage),
      ∀ e ∈ (locals.types ++ cache.types).flatMap (·.descriptor.lineage),
        d.digest = e.digest → d.same e = true))

theorem LocalTypes.mem_heldWith_iff {locals : LocalTypes} {cache : SynthesisCache}
    {e : Descriptor} :
    e ∈ locals.heldWith cache ↔ ∃ t, locals.Holds cache t ∧ e ∈ t.descriptor.lineage := by
  rw [heldWith, Set.mem_ofPred_eq, List.mem_flatMap]
  simp only [List.mem_append, Holds]

theorem LocalTypes.Holds.covered {locals : LocalTypes} {cache : SynthesisCache} {t : RuntimeType}
    (h : locals.Holds cache t) : t.descriptor.Covered (locals.heldWith cache) :=
  fun _ he => mem_heldWith_iff.mpr ⟨t, h, he⟩

/-- Held types are found by the digests of their descriptors, if the cache uses these. -/
theorem LocalTypes.Holds.digest {ds : Set Descriptor} {locals : LocalTypes} {cache : SynthesisCache}
    {t : RuntimeType} (h : locals.Holds cache t) (hlocals : locals.Consistent ds)
    (hcache : cache.Indexed) (hkey : cache.key = Descriptor.digest) :
    t.digest = t.descriptor.digest := by
  rcases h with ht | ht
  · exact hlocals.digest t ht
  · rw [hcache.digest t ht, hkey]

theorem LocalTypes.heldWith_mono {locals : LocalTypes} {now after : SynthesisCache}
    (hsubset : ∀ t ∈ now.types, t ∈ after.types) : locals.heldWith now ⊆ locals.heldWith after := by
  intro e he
  obtain ⟨t, ht, he⟩ := mem_heldWith_iff.mp he
  exact mem_heldWith_iff.mpr ⟨t, ht.imp_right (hsubset t), he⟩

namespace Resolver

open SchemaEntry

variable {r : Resolver} {cache : SynthesisCache} {p : PlacedEntry} {s t : Resolution}
  {d e : Descriptor} {type : RuntimeType} {ds : Set Descriptor}

/-! ## Traces -/

/-- The descriptor and each of its supertypes are outlined by an entry or bound by a local type. -/
def Traced (r : Resolver) (d : Descriptor) : Prop :=
  ∀ e ∈ d.lineage, (∃ entry ∈ r.schema, entry.Outlines e) ∨ r.locals.Binds e

/-- What an entry outlines is traced if its supertype is. -/
theorem traced_of_outlines {entry : SchemaEntry} (hentry : entry ∈ r.schema)
    (h : entry.Outlines d) (hparent : ∀ above, d.parent? = some above → r.Traced above) :
    r.Traced d :=
  Descriptor.forall_mem_lineage_iff.mpr ⟨.inl ⟨entry, hentry, h⟩, hparent⟩

theorem Traced.of_alike (h : r.Traced d) (halike : e.Alike d) : r.Traced e := by
  intro c hc
  obtain ⟨b, hb, hcb⟩ := halike.exists_mem_lineage hc
  rcases h b hb with ⟨entry, hentry, houtlines⟩ | ⟨t, ht, hname, hdigest⟩
  · exact .inl ⟨entry, hentry, houtlines.of_alike hcb.symm⟩
  · exact .inr ⟨t, ht, hname.trans hcb.name.symm, hdigest.trans hcb.digest.symm⟩

/-! ## Resolutions -/

/-- The types found so far are held, and traced unless what is held collides. -/
structure Derived (r : Resolver) (cache : SynthesisCache) (s : Resolution) : Prop where
  key : s.synthesis.key = cache.key
  indexed : s.synthesis.Indexed
  held : ∀ p ∈ r.placed, ∀ type, s.typeAt? p.place = some type → r.locals.Holds s.synthesis type
  traced : CollisionFree (r.locals.heldWith s.synthesis) →
    ∀ p ∈ r.placed, ∀ type, s.typeAt? p.place = some type → r.Traced type.descriptor

/-- A supertype is that of a type which was found, or a local one. -/
theorem parent_eq_ok {name child : String} (h : r.parent s name child = .ok d) :
    ∃ type, type.descriptor = d ∧
      (type ∈ r.locals.types ∨ ∃ q ∈ r.placed, s.typeAt? q.place = some type) := by
  unfold parent at h
  cases hfound : (r.entry? name).bind fun q => s.typeAt? q.place with
  | some type =>
    simp only [hfound, Option.orElse_eq_orElse, Option.orElse_some] at h
    cases h
    obtain ⟨q, hq, hfound⟩ := Option.bind_eq_some_iff.mp hfound
    exact ⟨type, rfl, .inr ⟨q, (mem_of_entry?_eq_some hq).1, hfound⟩⟩
  | none =>
    simp only [hfound, Option.orElse_eq_orElse, Option.orElse_none] at h
    cases hlookup : r.locals.lookup? name with
    | some type =>
      rw [hlookup] at h
      cases h
      exact ⟨type, rfl, .inl (LocalTypes.mem_of_lookup? hlookup).1⟩
    | none =>
      rw [hlookup] at h
      cases h

/-- What an entry declares is outlined by it, below such a supertype. -/
theorem describe_eq_ok {entry : SchemaEntry} (h : r.describe s entry = .ok d) :
    entry.Outlines d ∧ ∀ above, d.parent? = some above → ∃ type, type.descriptor = above ∧
      (type ∈ r.locals.types ∨ ∃ q ∈ r.placed, s.typeAt? q.place = some type) := by
  obtain ⟨parent, hparent, hdeclare⟩ : ∃ parent,
      (∀ above, parent = some above → ∃ type, type.descriptor = above ∧
        (type ∈ r.locals.types ∨ ∃ q ∈ r.placed, s.typeAt? q.place = some type)) ∧
      Descriptor.declare entry.declaration parent = .ok d := by
    cases hup : entry.parent? with
    | none => exact ⟨none, nofun, (describe_of_parent?_eq_none s hup).symm.trans h⟩
    | some name =>
      unfold describe at h
      rw [hup, Option.mapM_some] at h
      cases hparent : r.parent s name entry.name with
      | error e =>
        rw [hparent] at h
        cases h
      | ok above =>
        rw [hparent] at h
        exact ⟨some above, fun _ he => Option.some_inj.mp he ▸ parent_eq_ok hparent, h⟩
  rcases Descriptor.declare_cases entry.declaration parent with
    ⟨field, -, herror⟩ | ⟨d', hok, habove, hlevel⟩
  · cases hdeclare.symm.trans herror
  · cases hdeclare.symm.trans hok
    refine ⟨.of_level hlevel, fun above hup => hparent above ?_⟩
    exact (Descriptor.parent?_eq_of_above habove).symm.trans hup

/-- The type of a descriptor is the local one, a cached one of its level and with a supertype of the
same digest, or a new one. -/
theorem typeOf_cases (hs : s.synthesis.Indexed)
    (hparent : ∀ above, d.parent? = some above → r.AtHand s.synthesis above)
    (h : r.typeOf d s = .ok type t) :
    (type ∈ r.locals.types ∧ t = s) ∨
    (type ∈ s.synthesis.types ∧ type.descriptor.same d = true ∧ t = s) ∨
    (type.descriptor = d ∧ t.synthesis.Indexed ∧
      t = { s with synthesis := { s.synthesis with types := s.synthesis.types ++ [type] } }) := by
  unfold typeOf at h
  cases hlocal : r.locals.find? d with
  | some found =>
    rw [hlocal] at h
    cases h
    exact .inl ⟨(LocalTypes.mem_of_lookup? (LocalTypes.find?_eq_some_iff.mp hlocal).1).1, rfl⟩
  | none =>
    rw [hlocal] at h
    obtain ⟨after, hrun, rfl⟩ := Step.on_eq_ok_iff.mp h
    rw [hs.synthesize_eq hparent] at hrun
    rcases SynthesisCache.synthesizeOne_eq_ok_iff.mp hrun with
      ⟨hget, hsame, rfl⟩ | ⟨hget, hcreate, rfl⟩
    · exact .inr (.inl ⟨List.mem_of_find?_eq_some hget, hsame, rfl⟩)
    · exact .inr (.inr ⟨(RuntimeType.create_eq_ok_iff.mp hcreate).2.2.2, hs.add hget hcreate, rfl⟩)

/-- A type joins those found so far. -/
theorem Derived.add (hs : r.Derived cache s) (hp : p ∈ r.placed)
    (ht : t.resolved = (p.place, type) :: s.resolved) (hkey : t.synthesis.key = s.synthesis.key)
    (hindexed : t.synthesis.Indexed) (hsubset : ∀ u ∈ s.synthesis.types, u ∈ t.synthesis.types)
    (hholds : r.locals.Holds t.synthesis type)
    (htraced : CollisionFree (r.locals.heldWith t.synthesis) → r.Traced type.descriptor) :
    r.Derived cache t := by
  refine ⟨hkey.trans hs.key, hindexed, ?_, fun hfree => ?_⟩
  · exact forall_typeAt?_of_cons hp ht hholds fun q hq found hfound =>
      (hs.held q hq found hfound).imp_right (hsubset found)
  · exact forall_typeAt?_of_cons hp ht (htraced hfree)
      (hs.traced (hfree.mono (LocalTypes.heldWith_mono hsubset)))

/-- The supertype of what an entry declares is held, and traced unless what is held collides. -/
theorem Derived.exists_supertype (hlocals : r.locals.Consistent ds) (hs : r.Derived cache s)
    {entry : SchemaEntry} (h : r.describe s entry = .ok d) {above : Descriptor}
    (hup : d.parent? = some above) : ∃ type, type.descriptor = above ∧
      r.locals.Holds s.synthesis type ∧
      (CollisionFree (r.locals.heldWith s.synthesis) → r.Traced above) := by
  obtain ⟨type, rfl, hlocal | ⟨q, hq, hfound⟩⟩ := (describe_eq_ok h).2 above hup
  · exact ⟨type, rfl, .inl hlocal, fun _ e he => .inr (hlocals.binds type hlocal e he)⟩
  · exact ⟨type, rfl, hs.held q hq type hfound, fun hfree => hs.traced hfree q hq type hfound⟩

/-- A cached type of the level of a descriptor, and with a supertype of the same digest, is traced
if the descriptor is. -/
theorem traced_of_same {entry : SchemaEntry} (hentry : entry ∈ r.schema)
    (houtlines : entry.Outlines d) (hsame : type.descriptor.same d = true)
    (htype : r.locals.Holds s.synthesis type)
    (hfree : CollisionFree (r.locals.heldWith s.synthesis))
    (hparent : ∀ above, d.parent? = some above → ∃ found, found.descriptor = above ∧
      r.locals.Holds s.synthesis found ∧ r.Traced above) : r.Traced type.descriptor := by
  obtain ⟨hlevel, hhead⟩ := Descriptor.same_iff.mp hsame
  refine traced_of_outlines hentry (houtlines.of_level_alike hlevel.symm) fun c hc => ?_
  obtain ⟨_, hup, hdigest⟩ := Descriptor.exists_parent?_of_head? hhead hc
  obtain ⟨found, rfl, hfound, htraced⟩ := hparent _ hup
  refine htraced.of_alike (Descriptor.Covered.alike hfree ?_ hfound.covered hdigest)
  exact htype.covered.of_mem_lineage (Descriptor.mem_lineage_of_parent? hc)

/-- **One entry.** What is known of the types found so far is known of the type that is built. -/
theorem Derived.of_build (hlocals : r.locals.Consistent ds) (hs : r.Derived cache s)
    (hp : p ∈ r.placed) (h : r.build p s = .ok type t) :
    r.Derived cache t ∧ t.resolved = (p.place, type) :: s.resolved := by
  obtain ⟨d, u, hdescribe, htype, rfl⟩ := build_eq_ok_iff.mp h
  have hentry : p.entry ∈ r.schema := mem_schema_of_placed hp
  obtain ⟨houtlines, -⟩ := describe_eq_ok hdescribe
  have hparent := fun above (hup : d.parent? = some above) =>
    hs.exists_supertype hlocals hdescribe hup
  have hhand : ∀ above, d.parent? = some above → r.AtHand s.synthesis above := by
    intro above hup
    obtain ⟨found, rfl, hlocal | hcached, -⟩ := hparent above hup
    · exact atHand_of_mem hlocals hlocal
    · exact .inr ⟨found, hcached, rfl⟩
  rcases typeOf_cases hs.indexed hhand htype with ⟨hlocal, rfl⟩ | ⟨hmem, hsame, rfl⟩ |
    ⟨rfl, hindexed, rfl⟩
  · exact ⟨hs.add hp rfl rfl hs.indexed (fun _ hu => hu) (.inl hlocal)
      fun _ e he => .inr (hlocals.binds type hlocal e he), rfl⟩
  · refine ⟨hs.add hp rfl rfl hs.indexed (fun _ hu => hu) (.inr hmem) fun hfree => ?_, rfl⟩
    refine traced_of_same hentry houtlines hsame (.inr hmem) hfree fun above hup => ?_
    obtain ⟨found, hfound, hholds, htraced⟩ := hparent above hup
    exact ⟨found, hfound, hholds, htraced hfree⟩
  · have hsubset : ∀ v ∈ s.synthesis.types, v ∈ s.synthesis.types ++ [type] :=
      fun v hv => List.mem_append.mpr (.inl hv)
    refine ⟨hs.add hp rfl rfl hindexed hsubset (.inr (by simp)) fun hfree => ?_, rfl⟩
    refine traced_of_outlines hentry houtlines fun above hup => ?_
    obtain ⟨-, -, -, htraced⟩ := hparent above hup
    exact htraced (hfree.mono (LocalTypes.heldWith_mono hsubset))

/-- **Whole resolutions.** A schema is resolved to types that the receiver holds, and these are
traced unless what it holds collides. -/
theorem derived_of_resolveAll (hlocals : r.locals.Consistent ds)
    (hcache : cache.Indexed) {types : List RuntimeType}
    (h : r.resolveAll ⟨cache, []⟩ = .ok types t) :
    (t.synthesis.key = cache.key ∧ t.synthesis.Indexed) ∧
      ∀ type ∈ types, r.locals.Holds t.synthesis type ∧
        (CollisionFree (r.locals.heldWith t.synthesis) → r.Traced type.descriptor) := by
  have hadvances : r.Advances (r.Derived cache) fun _ => True := by
    intro p hp s hs _ _
    unfold Step.Yields
    cases hbuild : r.build p s with
    | ok type t => exact .inl ⟨type, t, rfl, hs.of_build hlocals hp hbuild⟩
    | error e t => exact .inr ⟨e, t, rfl, trivial⟩
  have hstart : r.Derived cache ⟨cache, []⟩ :=
    ⟨rfl, hcache, by rintro _ _ _ ⟨⟩, by rintro _ _ _ _ ⟨⟩⟩
  obtain ⟨ht, hfound⟩ := (hadvances.yields_resolveAll hstart).of_ok h
  refine ⟨⟨ht.key, ht.indexed⟩, fun type htype => ?_⟩
  obtain ⟨p, -, hp, hat⟩ := forall₂_exists_left hfound htype
  exact ⟨ht.held p hp type hat, fun hfree => ht.traced hfree p hp type hat⟩

end Resolver

end ObjectEnvelope
