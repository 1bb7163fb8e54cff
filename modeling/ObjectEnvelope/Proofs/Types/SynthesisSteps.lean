import ObjectEnvelope.Proofs.Types.Registrations
import ObjectEnvelope.Types.Synthesis

/-!
# Steps of a synthesis

What it takes for a type to be found, made or refused, and what all syntheses have in common: they
make types for supertypes up to the first that is known or held, and then one for the descriptor
itself. A cache keeps its types under the digests that it reckons for their descriptors, whether
these are the descriptors' own (`Keyed`) or others.
-/

namespace ObjectEnvelope.SynthesisCache

variable {cache after : SynthesisCache} {d : Descriptor} {t : RuntimeType}
  {isLocal : Descriptor → Bool} {e : WireError}

/-! ## Lookups -/

/-- A type for the structure of the descriptor is kept under its digest. -/
def Holds (cache : SynthesisCache) (d : Descriptor) : Prop :=
  ∃ t, cache.get? (cache.key d) = some t ∧ t.descriptor.same d = true

theorem cached_eq_ok_some_iff :
    cache.cached d = .ok (some t) ↔
      cache.get? (cache.key d) = some t ∧ t.descriptor.same d = true := by
  unfold cached
  cases cache.get? (cache.key d) with
  | none => simp
  | some held =>
    by_cases hsame : held.descriptor.same d = true
    · simp only [hsame, if_true, Except.ok.injEq, Option.some_inj]
      constructor
      · rintro rfl
        exact ⟨rfl, hsame⟩
      · exact And.left
    · simp only [hsame, if_false, Option.some_inj, reduceCtorEq, false_iff]
      rintro ⟨rfl, hsame'⟩
      exact hsame hsame'

theorem cached_eq_ok_none_iff :
    cache.cached d = .ok none ↔ cache.get? (cache.key d) = none := by
  unfold cached
  cases cache.get? (cache.key d) with
  | none => simp
  | some held => by_cases hsame : held.descriptor.same d = true <;> simp [hsame]

/-- The search for missing supertypes stops at one that is known or held, or else goes on above
it. -/
theorem missing_cons_eq_ok_iff {above front : List Descriptor} :
    cache.missing isLocal (d :: above) = .ok front ↔
      ((isLocal d = true ∨ cache.Holds d) ∧ front = []) ∨
      (isLocal d = false ∧ cache.get? (cache.key d) = none ∧
        ∃ rest, cache.missing isLocal above = .ok rest ∧ front = d :: rest) := by
  rw [missing]
  cases hlocal : isLocal d with
  | true => simp [eq_comm]
  | false =>
    simp only [Bool.false_eq_true, if_false, false_or, true_and]
    cases hcached : cache.cached d with
    | error e =>
      have hnone : cache.get? (cache.key d) ≠ none := by
        rw [Ne, ← cached_eq_ok_none_iff, hcached]
        simp
      have hholds : ¬ cache.Holds d := by
        rintro ⟨t, ht⟩
        rw [← cached_eq_ok_some_iff, hcached] at ht
        cases ht
      simp [hnone, hholds]
    | ok found =>
      cases found with
      | some t =>
        have hheld := cached_eq_ok_some_iff.mp hcached
        have hholds : cache.Holds d := ⟨t, hheld⟩
        simp [hholds, hheld.1, eq_comm]
      | none =>
        have hnone := cached_eq_ok_none_iff.mp hcached
        have hholds : ¬ cache.Holds d := by
          rintro ⟨t, ht, -⟩
          rw [hnone] at ht
          cases ht
        cases cache.missing isLocal above <;> simp [hnone, hholds, Except.map, eq_comm]

/-- Only supertypes are missing. -/
theorem mem_of_missing {ds front : List Descriptor} (h : cache.missing isLocal ds = .ok front) :
    ∀ e ∈ front, e ∈ ds := by
  induction ds generalizing front with
  | nil =>
    cases h
    exact fun _ => id
  | cons d above ih =>
    rcases missing_cons_eq_ok_iff.mp h with ⟨-, rfl⟩ | ⟨-, -, rest, hrest, rfl⟩
    · simp
    · exact List.cons_subset_cons d (ih hrest)

/-- The nearest supertype is known or held, or is the first of those that are missing. -/
theorem mem_missing_of_parent? {front : List Descriptor} {p : Descriptor}
    (h : cache.missing isLocal d.ancestors = .ok front) (hp : d.parent? = some p) :
    isLocal p = true ∨ cache.Holds p ∨ p ∈ front := by
  rw [Descriptor.ancestors_of_parent? hp, Descriptor.lineage] at h
  rcases missing_cons_eq_ok_iff.mp h with ⟨hstop, -⟩ | ⟨-, -, rest, -, rfl⟩
  · exact hstop.imp_right .inl
  · exact .inr (.inr List.mem_cons_self)

/-- Supertypes are made up to the first that is known or held, so none of them if the nearest is. -/
theorem missing_eq_nil_of_holds
    (hparent : ∀ p, d.parent? = some p → isLocal p = true ∨ cache.Holds p) :
    cache.missing isLocal d.ancestors = .ok [] := by
  cases hp : d.parent? with
  | none =>
    rw [Descriptor.ancestors_eq_nil hp]
    rfl
  | some p =>
    rw [Descriptor.ancestors_of_parent? hp, Descriptor.lineage]
    exact missing_cons_eq_ok_iff.mpr (.inl ⟨hparent p hp, rfl⟩)

/-! ## Single types -/

/-- The type of a descriptor is the one kept under its digest, if it has the same structure, or else
it is new. -/
theorem synthesizeOne_eq_ok_iff :
    synthesizeOne d cache = .ok t after ↔
      (cache.get? (cache.key d) = some t ∧ t.descriptor.same d = true ∧ after = cache) ∨
      (cache.get? (cache.key d) = none ∧
        RuntimeType.create ⟨.synthesized, cache.home, cache.types.length⟩ (cache.key d) d = .ok t ∧
        after = { cache with types := cache.types ++ [t] }) := by
  unfold synthesizeOne cached
  cases hget : cache.get? (cache.key d) with
  | some held =>
    by_cases hsame : held.descriptor.same d = true
    · simp only [hsame, if_true, Option.some_inj, reduceCtorEq, false_and, or_false]
      constructor
      · rintro ⟨⟩
        exact ⟨rfl, hsame, rfl⟩
      · rintro ⟨rfl, -, rfl⟩
        rfl
    · simp only [hsame, Option.some_inj, reduceCtorEq, false_and, or_false]
      constructor
      · rintro ⟨⟩
      · rintro ⟨rfl, hsame', -⟩
        exact absurd hsame' hsame
  | none =>
    simp only [reduceCtorEq, false_and, true_and, false_or]
    cases RuntimeType.create ⟨.synthesized, cache.home, cache.types.length⟩ (cache.key d) d with
    | error e => simp
    | ok new =>
      constructor
      · rintro ⟨⟩
        exact ⟨rfl, rfl⟩
      · rintro ⟨⟨⟩, rfl⟩
        rfl

/-- It is refused for another structure under its digest, or since it cannot be laid out. -/
theorem synthesizeOne_eq_error_iff :
    synthesizeOne d cache = .error e after ↔ after = cache ∧
      ((∃ held, cache.get? (cache.key d) = some held ∧ held.descriptor.same d = false ∧
          e = .synthesisFailure (.digestTaken (cache.key d) d.name held.name)) ∨
        (cache.get? (cache.key d) = none ∧
          ∃ fault, d.layoutFault? = some fault ∧ e = .synthesisFailure fault)) := by
  unfold synthesizeOne cached
  cases hget : cache.get? (cache.key d) with
  | some held =>
    cases hsame : held.descriptor.same d with
    | true => simp [hsame]
    | false =>
      simp only [hsame, Bool.false_eq_true, if_false, Option.some_inj, reduceCtorEq, false_and,
        or_false]
      constructor
      · rintro ⟨⟩
        exact ⟨rfl, held, rfl, hsame, rfl⟩
      · rintro ⟨rfl, _, rfl, -, rfl⟩
        rfl
  | none =>
    simp only [reduceCtorEq, false_and, exists_false, true_and, false_or]
    cases hfault : d.layoutFault? with
    | none =>
      obtain ⟨t, hcreate⟩ := RuntimeType.exists_create hfault
        ⟨.synthesized, cache.home, cache.types.length⟩ (cache.key d)
      simp [hcreate]
    | some fault =>
      simp only [RuntimeType.create_eq_error hfault, Option.some_inj]
      constructor
      · rintro ⟨⟩
        exact ⟨rfl, fault, rfl, rfl⟩
      · rintro ⟨rfl, _, rfl, rfl⟩
        rfl

/-- The type of a descriptor is one that is kept and the same, or it is new. -/
theorem synthesizeOne_cases (h : synthesizeOne d cache = .ok t after) :
    (t ∈ cache.types ∧ t.descriptor.same d = true ∧ after = cache) ∨
      (t.descriptor = d ∧ after = { cache with types := cache.types ++ [t] }) := by
  rcases synthesizeOne_eq_ok_iff.mp h with ⟨hget, hsame, hafter⟩ | ⟨-, hcreate, hafter⟩
  · exact .inl ⟨List.mem_of_find?_eq_some hget, hsame, hafter⟩
  · exact .inr ⟨(RuntimeType.create_eq_ok_iff.mp hcreate).2.2.2, hafter⟩

/-! ## Chains -/

theorem synthesize_eq_ok_iff :
    synthesize isLocal d cache = .ok t after ↔
      ∃ front between, cache.missing isLocal d.ancestors = .ok front ∧
        (front.reverse.forM fun e => discard (synthesizeOne e)) cache = .ok ⟨⟩ between ∧
        synthesizeOne d between = .ok t after := by
  simp only [synthesize, Step.bind_eq_ok_iff, Step.get_eq_ok_iff, Step.ofExcept_eq_ok_iff]
  constructor
  · rintro ⟨_, _, ⟨rfl, rfl⟩, front, _, ⟨hmissing, rfl⟩, _, between, hloop, hone⟩
    exact ⟨front, between, hmissing, hloop, hone⟩
  · rintro ⟨front, between, hmissing, hloop, hone⟩
    exact ⟨cache, cache, ⟨rfl, rfl⟩, front, cache, ⟨hmissing, rfl⟩, ⟨⟩, between, hloop, hone⟩

/-- A synthesis fails with the search for what is missing, with a supertype or with the type. -/
theorem synthesize_eq_error_iff {f : WireError} :
    synthesize isLocal d cache = .error f after ↔
      (cache.missing isLocal d.ancestors = .error f ∧ after = cache) ∨
      ∃ front, cache.missing isLocal d.ancestors = .ok front ∧
        ((front.reverse.forM fun e => discard (synthesizeOne e)) cache = .error f after ∨
          ∃ between, (front.reverse.forM fun e => discard (synthesizeOne e)) cache =
            .ok ⟨⟩ between ∧ synthesizeOne d between = .error f after) := by
  simp only [synthesize, Step.bind_eq_error_iff, Step.get_eq_ok_iff, Step.get_ne_error,
    Step.ofExcept_eq_error_iff, Step.ofExcept_eq_ok_iff, false_or]
  constructor
  · rintro ⟨_, _, ⟨rfl, rfl⟩, hsearch | ⟨front, _, ⟨hmissing, rfl⟩, hrest⟩⟩
    · exact .inl ⟨hsearch.1, hsearch.2.symm⟩
    · refine .inr ⟨front, hmissing, hrest.imp_right ?_⟩
      rintro ⟨_, between, hloop, hone⟩
      exact ⟨between, hloop, hone⟩
  · rintro (⟨hmissing, rfl⟩ | ⟨front, hmissing, hrest⟩)
    · exact ⟨after, after, ⟨rfl, rfl⟩, .inl ⟨hmissing, rfl⟩⟩
    · refine ⟨cache, cache, ⟨rfl, rfl⟩, .inr ⟨front, cache, ⟨hmissing, rfl⟩,
        hrest.imp_right ?_⟩⟩
      rintro ⟨between, hloop, hone⟩
      exact ⟨⟨⟩, between, hloop, hone⟩

theorem synthesize_of_missing {front : List Descriptor}
    (h : cache.missing isLocal d.ancestors = .ok front) :
    synthesize isLocal d cache =
      ((front.reverse.forM fun e => discard (synthesizeOne e)) >>= fun _ => synthesizeOne d)
        cache := by
  show (Step.ofExcept (cache.missing isLocal d.ancestors) >>= fun ancestors =>
    (ancestors.reverse.forM fun e => discard (synthesizeOne e)) >>= fun _ => synthesizeOne d)
      cache = _
  rw [h]
  rfl

/-! ## Digests of types -/

/-- The types are found by the digests of their descriptors. -/
structure Keyed (cache : SynthesisCache) : Prop where
  key : cache.key = Descriptor.digest
  digest : ∀ t ∈ cache.types, t.digest = t.descriptor.digest

theorem preserves_synthesizeOne (d : Descriptor) : (synthesizeOne d).Preserves Keyed := by
  refine fun cache h => ⟨fun t after hrun => ?_, fun e after hrun => ?_⟩
  · rcases synthesizeOne_eq_ok_iff.mp hrun with ⟨-, -, rfl⟩ | ⟨-, hcreate, rfl⟩
    · exact h
    · obtain ⟨-, -, hdigest, hdescriptor⟩ := RuntimeType.create_eq_ok_iff.mp hcreate
      refine ⟨h.key, List.forall_mem_append.mpr ⟨h.digest, List.forall_mem_singleton.mpr ?_⟩⟩
      rw [hdigest, hdescriptor, h.key]
  · rw [(synthesizeOne_eq_error_iff.mp hrun).1]
    exact h

theorem preserves_synthesize (isLocal : Descriptor → Bool) (d : Descriptor) :
    (synthesize isLocal d).Preserves Keyed :=
  .bind .get fun _ => .bind (.ofExcept _) fun _ =>
    .bind (.forM (fun e => (preserves_synthesizeOne e).discard) _) fun _ =>
      preserves_synthesizeOne d

end ObjectEnvelope.SynthesisCache
