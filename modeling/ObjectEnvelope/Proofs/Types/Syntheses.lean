import ObjectEnvelope.Proofs.Types.SynthesisSteps

/-!
# Synthesized types

`SynthesisCache.Reached` are the caches that syntheses lead to, whatever lookups of local types they
are given, as long as a lookup only claims what is registered somewhere. Unless digests collide,
every type in such a cache is genuine (`Reached.genuine`), and every descriptor that can be laid out
with its supertypes has a type in it or gets one (`exists_synthesize`).
-/

namespace ObjectEnvelope

/-- The lookup claims only descriptors that are registered somewhere. -/
def HonestLookup (ds : Set Descriptor) (isLocal : Descriptor → Bool) : Prop :=
  ∀ e, isLocal e = true → ∃ locals : LocalTypes, locals.Reached ds ∧
    ∃ t, locals.find? e = some t

namespace SynthesisCache

variable {ds : Set Descriptor} {cache after : SynthesisCache} {d e : Descriptor} {t : RuntimeType}
  {isLocal : Descriptor → Bool}

/-- The caches that syntheses of known descriptors lead to, failed ones included. -/
inductive Reached (ds : Set Descriptor) : SynthesisCache → Prop
  | empty (home : Nat) : Reached ds (.empty home)
  | synthesize {cache : SynthesisCache} {d : Descriptor} {isLocal : Descriptor → Bool}
      (h : Reached ds cache) (hd : d.Known ds) (hlocal : HonestLookup ds isLocal) :
      Reached ds ((synthesize isLocal d).after cache)

/-- The descriptors of the types are known, and kept under their own digests. -/
structure Known (ds : Set Descriptor) (cache : SynthesisCache) : Prop where
  key : cache.key = Descriptor.digest
  types : ∀ t ∈ cache.types, t.Known ds

/-- The descriptors of the types are known and can be laid out with all their supertypes, whatever
the types are kept under. -/
def Founded (ds : Set Descriptor) (cache : SynthesisCache) : Prop :=
  ∀ t ∈ cache.types, t.descriptor.Known ds ∧ t.descriptor.Admissible

/-- What holds of every cache of synthesized types. -/
structure Genuine (ds : Set Descriptor) (cache : SynthesisCache) : Prop where
  key : cache.key = Descriptor.digest
  types : ∀ t ∈ cache.types, t.Genuine ds

theorem Genuine.isKnown (h : cache.Genuine ds) : cache.Known ds :=
  ⟨h.key, fun t ht => (h.types t ht).isKnown⟩

theorem Genuine.keyed (h : cache.Genuine ds) : cache.Keyed :=
  ⟨h.key, fun t ht => (h.types t ht).digest⟩

theorem Genuine.founded (h : cache.Genuine ds) : cache.Founded ds :=
  fun t ht => ⟨(h.types t ht).known, (h.types t ht).admissible⟩

/-- A cache is genuine when it is founded and goes by the digests of the descriptors. -/
theorem Genuine.of_founded (hkeyed : cache.Keyed) (h : cache.Founded ds) : cache.Genuine ds :=
  ⟨hkeyed.key, fun t ht => ⟨hkeyed.digest t ht, (h t ht).1, (h t ht).2⟩⟩

theorem genuine_empty (home : Nat) : Genuine ds (.empty home) :=
  ⟨rfl, by simp [empty]⟩

/-! ## Founded caches -/

/-- A supertype at which the search stops can be laid out with all of its own. -/
theorem Founded.admissible_of_stop (hds : CollisionFree ds) (h : cache.Founded ds)
    (hlocal : HonestLookup ds isLocal) (hd : d.Known ds)
    (hstop : isLocal d = true ∨ cache.Holds d) : d.Admissible := by
  rcases hstop with hclaimed | ⟨t, hget, hsame⟩
  · obtain ⟨locals, hreached, t, hfind⟩ := hlocal d hclaimed
    obtain ⟨hlookup, hdigest⟩ := LocalTypes.find?_eq_some_iff.mp hfind
    have ht := hreached.consistent.genuine hds (LocalTypes.mem_of_lookup? hlookup).1
    exact ht.admissible.of_alike (ht.isKnown.alike hds hd hdigest).symm
  · obtain ⟨hknown, hadmissible⟩ := h t (List.mem_of_find?_eq_some hget)
    exact hadmissible.of_alike (hknown.alike_of_same hds hd hsame).symm

/-- The supertypes that are missing come first; those after them can be laid out. -/
theorem Founded.exists_back (hds : CollisionFree ds) (h : cache.Founded ds)
    (hlocal : HonestLookup ds isLocal) {levels : List Level} (hlevels : Sealed levels)
    (hknown : ∀ e ∈ Descriptor.ofLevels levels hlevels, e.Known ds) {front : List Descriptor}
    (hmissing : cache.missing isLocal (Descriptor.ofLevels levels hlevels) = .ok front) :
    ∃ back, Descriptor.ofLevels levels hlevels = front ++ back ∧
      ∀ e ∈ back, e.layoutFault? = none := by
  induction levels generalizing front with
  | nil =>
    cases hmissing
    exact ⟨[], rfl, by simp⟩
  | cons level above ih =>
    rw [Descriptor.ofLevels] at hknown hmissing ⊢
    obtain ⟨hself, habove⟩ := List.forall_mem_cons.mp hknown
    rcases missing_cons_eq_ok_iff.mp hmissing with ⟨hstop, rfl⟩ | ⟨-, -, rest, hrest, rfl⟩
    · exact ⟨_, rfl, h.admissible_of_stop hds hlocal hself hstop⟩
    · obtain ⟨back, hsplit, hback⟩ := ih hlevels.2.2.2 habove hrest
      exact ⟨back, by rw [hsplit, List.cons_append], hback⟩

/-- Making one type whose supertypes can be laid out: the cache stays founded, and when the step
succeeds the descriptor can be laid out. -/
theorem Founded.leaves_synthesizeOne (hds : CollisionFree ds) (h : cache.Founded ds)
    (hd : d.Known ds) (hancestors : ∀ e ∈ d.ancestors, e.layoutFault? = none) :
    Step.Leaves (synthesizeOne d) cache
      (fun after => after.Founded ds ∧ d.layoutFault? = none) (fun after => after.Founded ds) := by
  refine ⟨fun t after hrun => ?_, fun e after hrun => ?_⟩
  · rcases synthesizeOne_cases hrun with ⟨ht, hsame, rfl⟩ | ⟨rfl, rfl⟩
    · have halike := (h t ht).1.alike_of_same hds hd hsame
      exact ⟨h, halike.layoutFault? ▸ t.admissible⟩
    · have hadmissible : t.descriptor.Admissible :=
        List.forall_mem_cons.mpr ⟨t.admissible, hancestors⟩
      exact ⟨List.forall_mem_append.mpr ⟨h, List.forall_mem_singleton.mpr ⟨hd, hadmissible⟩⟩,
        t.admissible⟩
  · rw [(synthesizeOne_eq_error_iff.mp hrun).1]
    exact h

/-- The supertypes that are missing are made from the topmost, each below one that can be laid
out. -/
theorem Founded.leaves_missing (hds : CollisionFree ds) (h : cache.Founded ds)
    (hknown : ∀ e ∈ d.ancestors, e.Known ds) {front back : List Descriptor}
    (hsplit : d.ancestors = front ++ back) (hback : ∀ e ∈ back, e.layoutFault? = none) :
    Step.Leaves (front.reverse.forM fun e => discard (synthesizeOne e)) cache
      (fun after => after.Founded ds ∧ ∀ e ∈ front, e.layoutFault? = none)
      (fun after => after.Founded ds) := by
  refine Step.leaves_reverse_forM
    (fun (made : List Descriptor) s => Founded ds s ∧ ∀ e ∈ made, e.layoutFault? = none)
    (fun before e made hbefore s hs => ?_) ⟨h, by simp⟩
  have hchain : d.ancestors = before ++ e :: (made ++ back) := by
    rw [hsplit, hbefore, List.append_assoc, List.cons_append]
  have hmem : e ∈ d.ancestors := hchain ▸ List.mem_append_cons_self
  have hlaid : ∀ c ∈ e.ancestors, c.layoutFault? = none := by
    rw [Descriptor.ancestors_of_split hchain, List.forall_mem_append]
    exact ⟨hs.2, hback⟩
  have hone := hs.1.leaves_synthesizeOne hds (hknown e hmem) hlaid
  refine ⟨fun t s' hrun => ?_, hone.2⟩
  obtain ⟨hs', he⟩ := hone.1 t s' hrun
  exact ⟨hs', List.forall_mem_cons.mpr ⟨he, hs.2⟩⟩

/-- A synthesis keeps the cache founded. -/
theorem Founded.leaves_synthesize (hds : CollisionFree ds) (h : cache.Founded ds)
    (hd : d.Known ds) (hlocal : HonestLookup ds isLocal) :
    Step.Leaves (synthesize isLocal d) cache (fun after => after.Founded ds)
      (fun after => after.Founded ds) := by
  have hknown : ∀ e ∈ d.ancestors, e.Known ds :=
    fun e he => hd.of_mem_lineage (List.mem_cons_of_mem _ he)
  cases hmissing : cache.missing isLocal d.ancestors with
  | error f =>
    refine ⟨fun t after hrun => ?_, fun e after hrun => ?_⟩
    · obtain ⟨front, -, hfront, -⟩ := synthesize_eq_ok_iff.mp hrun
      rw [hmissing] at hfront
      cases hfront
    · rcases synthesize_eq_error_iff.mp hrun with ⟨-, rfl⟩ | ⟨front, hfront, -⟩
      · exact h
      · rw [hmissing] at hfront
        cases hfront
  | ok front =>
    obtain ⟨back, hsplit, hback⟩ := h.exists_back hds hlocal d.isSealed.2.2.2 hknown hmissing
    rw [Step.Leaves, synthesize_of_missing hmissing]
    refine (h.leaves_missing hds hknown hsplit hback).bind fun _ s hs => ?_
    have hlaid : ∀ e ∈ d.ancestors, e.layoutFault? = none := by
      rw [Descriptor.ancestors, hsplit, List.forall_mem_append]
      exact ⟨hs.2, hback⟩
    have hone := hs.1.leaves_synthesizeOne hds hd hlaid
    exact ⟨fun t s' hrun => (hone.1 t s' hrun).1, hone.2⟩

/-! ## Lookups -/

/-- Without collisions a cached type of the digest of a descriptor is that of the descriptor. -/
theorem Known.cached (hds : CollisionFree ds) (h : cache.Known ds) (hd : d.Known ds) :
    (cache.cached d = .ok none ∧ ∀ t ∈ cache.types, t.digest ≠ d.digest) ∨
      ∃ t ∈ cache.types, cache.cached d = .ok (some t) ∧ t.digest = d.digest ∧
        t.descriptor.Alike d := by
  unfold SynthesisCache.cached
  rw [h.key]
  cases hget : cache.get? d.digest with
  | none =>
    unfold get? at hget
    exact .inl ⟨rfl, by simpa using hget⟩
  | some held =>
    have hheld : held ∈ cache.types := List.mem_of_find?_eq_some hget
    have hdigest : held.digest = d.digest := by simpa using List.find?_some hget
    have halike := (h.types held hheld).alike hds hd hdigest
    refine .inr ⟨held, hheld, ?_, hdigest, halike⟩
    simp only [halike.same, if_true]

theorem Genuine.cached (hds : CollisionFree ds) (h : cache.Genuine ds) (hd : d.Known ds) :
    cache.cached d = .ok none ∨
      ∃ t ∈ cache.types, cache.cached d = .ok (some t) ∧ t.digest = d.digest ∧
        t.descriptor.Alike d :=
  (h.isKnown.cached hds hd).imp_left And.left

/-- The supertypes that are missing come first; those after them can be laid out. -/
theorem Genuine.exists_missing (hds : CollisionFree ds) (h : cache.Genuine ds)
    (hlocal : HonestLookup ds isLocal) {levels : List Level} (hlevels : Sealed levels)
    (hknown : ∀ e ∈ Descriptor.ofLevels levels hlevels, e.Known ds) :
    ∃ front back, cache.missing isLocal (Descriptor.ofLevels levels hlevels) = .ok front ∧
      Descriptor.ofLevels levels hlevels = front ++ back ∧
      ∀ e ∈ back, e.layoutFault? = none := by
  suffices hfront : ∃ front,
      cache.missing isLocal (Descriptor.ofLevels levels hlevels) = .ok front by
    obtain ⟨front, hmissing⟩ := hfront
    obtain ⟨back, hback⟩ := h.founded.exists_back hds hlocal hlevels hknown hmissing
    exact ⟨front, back, hmissing, hback⟩
  generalize Descriptor.ofLevels levels hlevels = chain at hknown
  induction chain with
  | nil => exact ⟨[], rfl⟩
  | cons d above ih =>
    obtain ⟨hd, habove⟩ := List.forall_mem_cons.mp hknown
    obtain ⟨rest, hrest⟩ := ih habove
    by_cases hstop : isLocal d = true ∨ cache.Holds d
    · exact ⟨[], missing_cons_eq_ok_iff.mpr (.inl ⟨hstop, rfl⟩)⟩
    · rw [not_or, Bool.not_eq_true] at hstop
      rcases h.cached hds hd with hnone | ⟨t, -, hsome, -⟩
      · exact ⟨d :: rest, missing_cons_eq_ok_iff.mpr
          (.inr ⟨hstop.1, cached_eq_ok_none_iff.mp hnone, rest, hrest, rfl⟩)⟩
      · exact absurd ⟨t, cached_eq_ok_some_iff.mp hsome⟩ hstop.2

/-! ## Syntheses of single types -/

/-- The step finds or makes the type of a descriptor, unless the descriptor cannot be laid out. -/
def YieldsType (ds : Set Descriptor) (d : Descriptor) (step : Step SynthesisCache RuntimeType)
    (cache : SynthesisCache) : Prop :=
  step.Yields cache
    (fun t after => (after.Known ds ∧ ∀ u ∈ cache.types, u ∈ after.types) ∧ t ∈ after.types ∧
      t.digest = d.digest ∧ t.descriptor.Alike d)
    fun e => ∃ fault, d.layoutFault? = some fault ∧ e = .synthesisFailure fault

/-- A cached type shows that its descriptor can be laid out, so no cached type hides a fault. -/
theorem Known.yields_synthesizeOne (hds : CollisionFree ds) (h : cache.Known ds)
    (hd : d.Known ds) : YieldsType ds d (synthesizeOne d) cache := by
  unfold YieldsType Step.Yields synthesizeOne
  rcases h.cached hds hd with ⟨hnone, -⟩ | ⟨t, ht, hsome, hdigest, halike⟩
  · rw [hnone]
    cases hfault : d.layoutFault? with
    | some fault =>
      simp only [RuntimeType.create_eq_error hfault]
      exact .inr ⟨_, cache, rfl, fault, rfl, rfl⟩
    | none =>
      obtain ⟨t, hcreate⟩ := RuntimeType.exists_create hfault
        ⟨.synthesized, cache.home, cache.types.length⟩ (cache.key d)
      obtain ⟨-, -, hdigest, hdescriptor⟩ := RuntimeType.create_eq_ok_iff.mp hcreate
      have hkey : t.digest = d.digest := by rw [hdigest, h.key]
      simp only [hcreate]
      refine .inl ⟨t, _, rfl, ⟨⟨h.key, ?_⟩, ?_⟩, ?_, hkey, hdescriptor ▸ .refl _⟩
      · rw [List.forall_mem_append, List.forall_mem_singleton]
        exact ⟨h.types, hdescriptor ▸ hkey, hdescriptor ▸ hd⟩
      · exact fun u hu => List.mem_append.mpr (.inl hu)
      · exact List.mem_append.mpr (.inr (List.mem_singleton.mpr rfl))
  · rw [hsome]
    exact .inl ⟨t, cache, rfl, ⟨h, fun _ hu => hu⟩, ht, hdigest, halike⟩

/-- Supertypes are made up to the first that is at hand, so none of them if the nearest is. -/
theorem Known.missing_eq_nil (hds : CollisionFree ds) (h : cache.Known ds) (hd : d.Known ds)
    (hparent : ∀ p, d.parent? = some p →
      isLocal p = true ∨ ∃ t ∈ cache.types, t.digest = p.digest) :
    cache.missing isLocal d.ancestors = .ok [] := by
  refine missing_eq_nil_of_holds fun p hp => (hparent p hp).imp_right ?_
  rintro ⟨t, ht, hdigest⟩
  rcases h.cached hds (hd.of_mem_lineage (Descriptor.mem_lineage_of_parent? hp)) with
    ⟨-, hfree⟩ | ⟨u, -, hsome, -⟩
  · exact absurd hdigest (hfree t ht)
  · exact ⟨u, cached_eq_ok_some_iff.mp hsome⟩

/-- Below a supertype that is at hand, one type is all that a synthesis makes. -/
theorem Known.yields_synthesize (hds : CollisionFree ds) (h : cache.Known ds) (hd : d.Known ds)
    (hparent : ∀ p, d.parent? = some p →
      isLocal p = true ∨ ∃ t ∈ cache.types, t.digest = p.digest) :
    YieldsType ds d (synthesize isLocal d) cache := by
  have hone := h.yields_synthesizeOne hds hd
  have hrun : synthesize isLocal d cache = synthesizeOne d cache :=
    synthesize_of_missing (h.missing_eq_nil hds hd hparent)
  rwa [YieldsType, Step.Yields, hrun]

/-! ## Syntheses of chains -/

/-- Making one type whose supertypes can be laid out: the cache stays genuine, and when the step
succeeds the descriptor can be laid out. -/
theorem Genuine.leaves_synthesizeOne (hds : CollisionFree ds) (h : cache.Genuine ds)
    (hd : d.Known ds) (hancestors : ∀ e ∈ d.ancestors, e.layoutFault? = none) :
    Step.Leaves (synthesizeOne d) cache
      (fun after => after.Genuine ds ∧ d.layoutFault? = none)
      (fun after => after.Genuine ds) := by
  have hfounded := h.founded.leaves_synthesizeOne hds hd hancestors
  have hkeyed := preserves_synthesizeOne d cache h.keyed
  refine ⟨fun t after hrun => ?_, fun e after hrun => ?_⟩
  · obtain ⟨hafter, hfault⟩ := hfounded.1 t after hrun
    exact ⟨.of_founded (hkeyed.1 t after hrun) hafter, hfault⟩
  · exact .of_founded (hkeyed.2 e after hrun) (hfounded.2 e after hrun)

/-- A synthesis keeps the cache genuine. -/
theorem Genuine.leaves_synthesize (hds : CollisionFree ds) (h : cache.Genuine ds)
    (hd : d.Known ds) (hlocal : HonestLookup ds isLocal) :
    Step.Leaves (synthesize isLocal d) cache (fun after => after.Genuine ds)
      (fun after => after.Genuine ds) := by
  have hfounded := h.founded.leaves_synthesize hds hd hlocal
  have hkeyed := preserves_synthesize isLocal d cache h.keyed
  exact ⟨fun t after hrun => .of_founded (hkeyed.1 t after hrun) (hfounded.1 t after hrun),
    fun e after hrun => .of_founded (hkeyed.2 e after hrun) (hfounded.2 e after hrun)⟩

/-- Every cache that was reached is genuine. -/
theorem Reached.genuine (hds : CollisionFree ds) (h : cache.Reached ds) : cache.Genuine ds := by
  induction h with
  | empty home => exact genuine_empty home
  | synthesize _ hd hlocal ih => exact (ih.leaves_synthesize hds hd hlocal).after fun _ h => h

/-- A type is made of every known descriptor that can be laid out. -/
theorem Genuine.exists_synthesizeOne (hds : CollisionFree ds) (h : cache.Genuine ds)
    (hd : d.Known ds) (hadmissible : d.Admissible) :
    ∃ t after, synthesizeOne d cache = .ok t after ∧ after.Genuine ds ∧ t.digest = d.digest ∧
      t.descriptor.Alike d := by
  have hancestors : ∀ e ∈ d.ancestors, e.layoutFault? = none :=
    fun e he => hadmissible e (List.mem_cons_of_mem _ he)
  rcases h.isKnown.yields_synthesizeOne hds hd with
    ⟨t, after, hrun, -, -, hdigest, halike⟩ | ⟨e, after, -, fault, hfault, -⟩
  · exact ⟨t, after, hrun, ((h.leaves_synthesizeOne hds hd hancestors).1 t after hrun).1, hdigest,
      halike⟩
  · simp [hadmissible d d.mem_lineage_self] at hfault

/-- A known descriptor that can be laid out with its supertypes has a type, or gets one. -/
theorem Genuine.exists_synthesize (hds : CollisionFree ds) (h : cache.Genuine ds)
    (hlocal : HonestLookup ds isLocal) (hd : d.Known ds) (hadmissible : d.Admissible) :
    ∃ t after, synthesize isLocal d cache = .ok t after ∧ after.Genuine ds ∧
      t.digest = d.digest ∧ t.descriptor.Alike d := by
  have hknown : ∀ e ∈ d.ancestors, e.Known ds :=
    fun e he => hd.of_mem_lineage (List.mem_cons_of_mem _ he)
  obtain ⟨front, back, hmissing, hsplit, -⟩ :=
    h.exists_missing hds hlocal d.isSealed.2.2.2 hknown
  have hstep : ∀ (e : Descriptor) (rest : List Descriptor) (s : SynthesisCache),
      (s.Genuine ds ∧ ∀ c ∈ e :: rest, c ∈ d.ancestors) →
      Step.Yields (discard (synthesizeOne e)) s
        (fun _ s' => s'.Genuine ds ∧ ∀ c ∈ rest, c ∈ d.ancestors) fun _ => False := by
    intro e rest s hs
    obtain ⟨hmem, hrest⟩ := List.forall_mem_cons.mp hs.2
    obtain ⟨t, s', hrun, hs', -⟩ := hs.1.exists_synthesizeOne hds (hknown e hmem)
      (hadmissible.of_mem_lineage (List.mem_cons_of_mem _ hmem))
    exact .inl ⟨⟨⟩, s', Step.discard_eq_ok_iff.mpr ⟨t, hrun⟩, hs', hrest⟩
  have hmem : ∀ c ∈ front.reverse, c ∈ d.ancestors := by
    intro c hc
    rw [Descriptor.ancestors, hsplit]
    exact List.mem_append.mpr (.inl (List.mem_reverse.mp hc))
  obtain ⟨_, between, hfront, hbetween, -⟩ := Step.exists_of_yields
    (Step.Yields.forM (fun rest s => Genuine ds s ∧ ∀ c ∈ rest, c ∈ d.ancestors) hstep ⟨h, hmem⟩)
  obtain ⟨t, after, hrun, hafter⟩ := hbetween.exists_synthesizeOne hds hd hadmissible
  refine ⟨t, after, ?_, hafter⟩
  rw [synthesize_of_missing hmissing]
  exact Step.bind_eq_ok_iff.mpr ⟨⟨⟩, between, hfront, hrun⟩

end SynthesisCache

/-- The type was registered or synthesized somewhere. -/
inductive RuntimeType.HandedOut (ds : Set Descriptor) (t : RuntimeType) : Prop
  | registered {locals : LocalTypes} (h : locals.Reached ds) (ht : t ∈ locals.types)
  | synthesized {cache : SynthesisCache} (h : cache.Reached ds) (ht : t ∈ cache.types)

/-- Types that were handed out are genuine. -/
theorem RuntimeType.HandedOut.genuine {ds : Set Descriptor} (hds : CollisionFree ds)
    {t : RuntimeType} (h : t.HandedOut ds) : t.Genuine ds := by
  cases h with
  | registered h ht => exact h.consistent.genuine hds ht
  | synthesized h ht => exact (h.genuine hds).types t ht

end ObjectEnvelope
