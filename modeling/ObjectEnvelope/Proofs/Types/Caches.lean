import ObjectEnvelope.Proofs.Types.Syntheses

/-!
# What caches hold

`SynthesisCache.Attained` are the caches that syntheses lead to, whatever digests they keep
descriptors under and whatever lookups of local types they are given. In each of them a type is kept
under the digest of its descriptor, and no two types under one (`Attained.indexed`), so that a kept
type is found again.
-/

namespace ObjectEnvelope

/-- The failure says that a type cannot be made. -/
def WireError.Unmade (e : WireError) : Prop :=
  e.kind = .synthesisFailure

theorem WireError.unmade (fault : LayoutFault) : (WireError.synthesisFailure fault).Unmade := rfl

namespace SynthesisCache

variable {cache after : SynthesisCache} {d : Descriptor} {t : RuntimeType}
  {isLocal : Descriptor → Bool} {e : WireError}

/-! ## How a synthesis fails -/

theorem cached_fails (h : cache.cached d = .error e) : e.Unmade := by
  unfold cached at h
  split at h
  · cases h
  · split at h
    · cases h
    · cases h
      exact WireError.unmade _

theorem missing_fails {ds : List Descriptor} (h : cache.missing isLocal ds = .error e) :
    e.Unmade := by
  induction ds with
  | nil => cases h
  | cons d above ih =>
    unfold missing at h
    split at h
    · cases h
    · split at h
      · next hcached =>
        cases h
        exact cached_fails hcached
      · cases h
      · cases hrest : cache.missing isLocal above with
        | ok rest =>
          rw [hrest] at h
          cases h
        | error f =>
          rw [hrest] at h
          cases h
          exact ih hrest

theorem synthesizeOne_fails (d : Descriptor) :
    Step.FailsOnly WireError.Unmade (synthesizeOne d) := by
  intro cache e after h
  obtain ⟨-, ⟨held, -, -, rfl⟩ | ⟨-, fault, -, rfl⟩⟩ := synthesizeOne_eq_error_iff.mp h
  · exact WireError.unmade _
  · exact WireError.unmade _

/-- A synthesis fails as a synthesis. -/
theorem synthesize_fails (isLocal : Descriptor → Bool) (d : Descriptor) :
    Step.FailsOnly WireError.Unmade (synthesize isLocal d) :=
  .bind .get fun _ => .bind (.ofExcept fun _ => missing_fails) fun _ =>
    .bind (.forM fun a _ => (synthesizeOne_fails a).discard) fun _ => synthesizeOne_fails d

/-! ## Caches that were attained -/

/-- The caches that syntheses lead to, failed ones included. -/
inductive Attained : SynthesisCache → Prop
  | empty (home : Nat) (key : Descriptor → Digest) : Attained ⟨home, key, []⟩
  | synthesize {cache : SynthesisCache} (isLocal : Descriptor → Bool) (d : Descriptor)
      (h : Attained cache) : Attained ((synthesize isLocal d).after cache)

/-- Each type was synthesized and is kept under the digest of its descriptor, no two under one. -/
structure Indexed (cache : SynthesisCache) : Prop where
  origin : ∀ t ∈ cache.types, t.origin = .synthesized
  digest : ∀ t ∈ cache.types, t.digest = cache.key t.descriptor
  nodup : (cache.types.map (·.digest)).Nodup

/-- A new type under a digest of its own can be added. -/
theorem Indexed.add (h : cache.Indexed) (hget : cache.get? (cache.key d) = none)
    (hcreate : RuntimeType.create ⟨.synthesized, cache.home, cache.types.length⟩ (cache.key d) d =
      .ok t) : Indexed { cache with types := cache.types ++ [t] } := by
  obtain ⟨-, hid, hdigest, rfl⟩ := RuntimeType.create_eq_ok_iff.mp hcreate
  have hfree : ∀ u ∈ cache.types, u.digest ≠ t.digest := by
    unfold get? at hget
    rw [hdigest]
    simpa using hget
  refine ⟨?_, ?_, ?_⟩
  · rw [List.forall_mem_append, List.forall_mem_singleton, RuntimeType.origin, hid]
    exact ⟨h.origin, rfl⟩
  · rw [List.forall_mem_append, List.forall_mem_singleton]
    exact ⟨h.digest, hdigest⟩
  · rw [List.map_append, List.nodup_append]
    refine ⟨h.nodup, by simp, ?_⟩
    simp only [List.mem_map, List.map_cons, List.map_nil, List.mem_singleton]
    rintro _ ⟨u, hu, rfl⟩ _ rfl
    exact hfree u hu

theorem preserves_indexed_synthesizeOne (d : Descriptor) :
    Step.Preserves Indexed (synthesizeOne d) := by
  refine fun cache h => ⟨fun t after hrun => ?_, fun e after hrun => ?_⟩
  · rcases synthesizeOne_eq_ok_iff.mp hrun with ⟨-, -, rfl⟩ | ⟨hget, hcreate, rfl⟩
    · exact h
    · exact h.add hget hcreate
  · rw [(synthesizeOne_eq_error_iff.mp hrun).1]
    exact h

theorem preserves_indexed_synthesize (isLocal : Descriptor → Bool) (d : Descriptor) :
    Step.Preserves Indexed (synthesize isLocal d) :=
  .bind .get fun _ => .bind (.ofExcept _) fun _ =>
    .bind (.forM (fun e => .discard (preserves_indexed_synthesizeOne e)) _) fun _ =>
      preserves_indexed_synthesizeOne d

/-- Every cache that was attained is indexed. -/
theorem Attained.indexed (h : cache.Attained) : cache.Indexed := by
  induction h with
  | empty home key => exact ⟨by simp, by simp, by simp⟩
  | synthesize isLocal d _ ih => exact (preserves_indexed_synthesize isLocal d).after ih

/-! ## Types at hand -/

/-- A kept type is the one under its digest. -/
theorem Indexed.get?_eq (h : cache.Indexed) (ht : t ∈ cache.types) :
    cache.get? (cache.key t.descriptor) = some t := by
  rw [← h.digest t ht]
  exact find?_key_eq h.nodup ht

/-- Supertypes are made up to the first that is at hand, so none of them if the nearest is. -/
theorem Indexed.missing_eq_nil (h : cache.Indexed)
    (hparent : ∀ p, d.parent? = some p →
      isLocal p = true ∨ ∃ t ∈ cache.types, t.descriptor = p) :
    cache.missing isLocal d.ancestors = .ok [] := by
  refine missing_eq_nil_of_holds fun p hp => (hparent p hp).imp_right ?_
  rintro ⟨t, ht, rfl⟩
  exact ⟨t, h.get?_eq ht, t.descriptor.same_self⟩

/-- Below a supertype that is at hand, one type is all that a synthesis makes. -/
theorem Indexed.synthesize_eq (h : cache.Indexed)
    (hparent : ∀ p, d.parent? = some p →
      isLocal p = true ∨ ∃ t ∈ cache.types, t.descriptor = p) :
    synthesize isLocal d cache = synthesizeOne d cache :=
  synthesize_of_missing (h.missing_eq_nil hparent)

end SynthesisCache

end ObjectEnvelope
