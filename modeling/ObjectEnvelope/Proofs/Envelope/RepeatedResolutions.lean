import ObjectEnvelope.Proofs.Envelope.Resolving
import ObjectEnvelope.Proofs.Types.CacheGrowth

/-!
# Repeated resolutions

A resolution that succeeded finds the same types again, from any cache that has grown out of the one
it left, and makes none then (`Resolver.repeats_resolveAll`): every descriptor that it had a type
made for has that type in the cache. Digests may collide for that, and the key of the cache may be
any; what was found once is not refused later.
-/

namespace ObjectEnvelope

open SynthesisCache (Grows)

/-- The type that a synthesis returned is returned again, by every later cache, as it is. -/
theorem SynthesisCache.synthesize_of_grows {isLocal : Descriptor → Bool} {d : Descriptor}
    {t : RuntimeType} {cache after later : SynthesisCache}
    (h : synthesize isLocal d cache = .ok t after) (hlater : after.Grows Set.univ later) :
    synthesize isLocal d later = .ok t later := by
  obtain ⟨hgrows, hget, hsame, hsupertype⟩ := of_synthesize h
  have hkey : later.key = cache.key := hlater.key.trans hgrows.key
  have hmissing : later.missing isLocal d.ancestors = .ok [] :=
    missing_eq_nil_of_holds fun p hp => (hsupertype p hp).imp_right hlater.holds
  rw [synthesize_of_missing hmissing]
  refine synthesizeOne_eq_ok_iff.mpr (.inl ⟨?_, hsame, rfl⟩)
  rw [hkey]
  exact hlater.get?_eq_some hget

namespace Resolver

/-- The cache grows in a run of the step that succeeds, and a second run from any later cache has
the same result, finds the same types and leaves that cache as it is. -/
def Repeats {α : Type} (step : Resolve α) : Prop :=
  ∀ s a t, step s = .ok a t → s.synthesis.Grows Set.univ t.synthesis ∧
    ∀ later, t.synthesis.Grows Set.univ later →
      step { s with synthesis := later } = .ok a { t with synthesis := later }

section

variable {α β : Type}

theorem Repeats.pure (a : α) : Repeats (pure a : Resolve α) := by
  intro s b t hrun
  obtain ⟨rfl, rfl⟩ := Step.pure_eq_ok_iff.mp hrun
  exact ⟨.refl _, fun _ _ => rfl⟩

theorem Repeats.throw (e : WireError) : Repeats (throw e : Resolve α) :=
  fun _ _ _ hrun => absurd hrun Step.throw_ne_ok

theorem Repeats.ofExcept (x : Except WireError α) : Repeats (Step.ofExcept x) := by
  cases x with
  | ok a => exact .pure a
  | error e => exact .throw e

theorem Repeats.bind {step : Resolve α} {next : α → Resolve β} (hstep : Repeats step)
    (hnext : ∀ a, Repeats (next a)) : Repeats (step >>= next) := by
  intro s b u hrun
  obtain ⟨a, t, hfirst, hsecond⟩ := Step.bind_eq_ok_iff.mp hrun
  obtain ⟨hgrows, hfirst'⟩ := hstep s a t hfirst
  obtain ⟨hgrows', hsecond'⟩ := hnext a t b u hsecond
  refine ⟨hgrows.trans hgrows', fun later hlater => ?_⟩
  exact Step.bind_eq_ok_iff.mpr ⟨a, _, hfirst' later (hgrows'.trans hlater), hsecond' later hlater⟩

/-- What a step looks up in the state must not be the cache. -/
theorem Repeats.get_bind {next : Resolution → Resolve α} (hnext : ∀ s, Repeats (next s))
    (hblind : ∀ s later, next { s with synthesis := later } = next s) :
    Repeats (get >>= next) := by
  intro s a t hrun
  obtain ⟨_, _, hget, hrun⟩ := Step.bind_eq_ok_iff.mp hrun
  obtain ⟨rfl, rfl⟩ := Step.get_eq_ok_iff.mp hget
  obtain ⟨hgrows, hagain⟩ := hnext _ _ a t hrun
  refine ⟨hgrows, fun later hlater => Step.bind_eq_ok_iff.mpr ⟨_, _, rfl, ?_⟩⟩
  rw [hblind]
  exact hagain later hlater

theorem Repeats.discard {step : Resolve α} (h : Repeats step) : Repeats (discard step) :=
  .bind h fun _ => .pure _

theorem Repeats.guard {c : Prop} [Decidable c] {e : WireError} {next : PUnit → Resolve α}
    (hnext : Repeats (next ⟨⟩)) :
    Repeats (if c then (MonadExcept.throw e : Resolve PUnit) >>= next else next ⟨⟩) := by
  split
  · exact .bind (.throw e) fun _ => hnext
  · exact hnext

theorem Repeats.forM {step : α → Resolve PUnit} (hstep : ∀ a, Repeats (step a)) (items : List α) :
    Repeats (items.forM step) := by
  induction items with
  | nil => exact .pure _
  | cons a rest ih => exact .bind (hstep a) fun _ => ih

theorem Repeats.each {step : α → Resolve β} (hstep : ∀ a, Repeats (step a)) (items : List α) :
    Repeats (Step.each step items) := by
  induction items with
  | nil => exact .pure _
  | cons a rest ih => exact .bind (hstep a) fun _ => .bind ih fun _ => .pure _

end

variable (r : Resolver)

theorem repeats_typeOf (d : Descriptor) : Repeats (r.typeOf d) := by
  unfold typeOf
  split
  · exact .pure _
  · intro s t u hrun
    obtain ⟨after, hmade, rfl⟩ := Step.on_eq_ok_iff.mp hrun
    refine ⟨(SynthesisCache.of_synthesize hmade).1.mono (Set.subset_univ _), fun later hlater => ?_⟩
    exact Step.on_eq_ok_iff.mpr ⟨later, SynthesisCache.synthesize_of_grows hmade hlater, rfl⟩

theorem repeats_keep (place : Nat) (type : RuntimeType) :
    Repeats (modify fun s => { s with resolved := (place, type) :: s.resolved }) := by
  intro s x t hrun
  obtain rfl := Step.modify_eq_ok_iff.mp hrun
  exact ⟨.refl _, fun _ _ => rfl⟩

theorem repeats_build (p : PlacedEntry) : Repeats (r.build p) := by
  refine .get_bind (fun s => ?_) fun _ _ => rfl
  exact .bind (.ofExcept _) fun d => .bind (repeats_typeOf r d) fun type =>
    .bind (repeats_keep p.place type) fun _ => .pure _

theorem repeats_await {deeper : PlacedEntry → Resolve RuntimeType}
    (hdeeper : ∀ p, Repeats (deeper p)) (path : List Nat) (need : PlacedEntry) :
    Repeats (await deeper path need) := by
  refine .get_bind (fun s => ?_) fun _ _ => rfl
  split
  · exact .guard (hdeeper need).discard
  · exact .pure _

theorem repeats_settle {deeper : PlacedEntry → Resolve RuntimeType}
    (hdeeper : ∀ p, Repeats (deeper p)) (path : List Nat) (p : PlacedEntry) :
    Repeats (r.settle deeper path p) :=
  .bind (.forM (repeats_await hdeeper _) _) fun _ => repeats_build r p

theorem repeats_visit (root : String) (room : Nat) (path : List Nat) (p : PlacedEntry) :
    Repeats (r.visit root room path p) := by
  induction room generalizing path p with
  | zero => exact repeats_settle r (fun _ => .throw _) path p
  | succ room ih => exact repeats_settle r (fun q => ih (p.place :: path) q) path p

theorem repeats_resolve (p : PlacedEntry) : Repeats (r.resolve p) := by
  refine .get_bind (fun s => ?_) fun _ _ => rfl
  split
  · exact .pure _
  · exact repeats_visit r _ _ _ _

/-- **Resolutions repeat themselves.** What has been resolved is resolved to the same types from
every later cache, and adds nothing to it. -/
theorem repeats_resolveAll : Repeats r.resolveAll :=
  .each (repeats_resolve r) _

end Resolver

end ObjectEnvelope
