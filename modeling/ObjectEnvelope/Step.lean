import ObjectEnvelope.Error

/-!
# Steps

A step works on a state and may fail; the state that it leaves behind stays in either case. Reading,
encoding, decoding and every use of an endpoint are steps. `bind_eq_ok_iff` and `bind_eq_error_iff`
say how a sequence of two ends.
-/

namespace ObjectEnvelope

/-- A computation on a state that may fail. -/
abbrev Step (σ α : Type) := EStateM WireError σ α

namespace Step

variable {σ τ α β : Type}

/-- The step that has an outcome whatever the state is, and leaves the state as it is. -/
def ofExcept : Except WireError α → Step σ α
  | .ok a => return a
  | .error e => throw e

/-- The step on a part of the state. -/
def on (part : σ → τ) (replace : σ → τ → σ) (step : Step τ α) : Step σ α := fun s =>
  match step (part s) with
  | .ok a t => .ok a (replace s t)
  | .error e t => .error e (replace s t)

/-- The results of one step for each item, in order. -/
def each (step : α → Step σ β) : List α → Step σ (List β)
  | [] => return []
  | a :: rest => do
    let first ← step a
    return first :: (← each step rest)

/-- The results of `count` runs of a step, in order. -/
def times (step : Step σ α) : (count : Nat) → Step σ (List α)
  | 0 => return []
  | count + 1 => do
    let first ← step
    return first :: (← times step count)

/-- The outcome from a state, without the state that is left behind. -/
def outcome (step : Step σ α) (s : σ) : Except WireError α :=
  match step s with
  | .ok a _ => .ok a
  | .error e _ => .error e

theorem bind_eq_ok_iff {step : Step σ α} {next : α → Step σ β} {s u : σ} {b : β} :
    (step >>= next) s = .ok b u ↔ ∃ a t, step s = .ok a t ∧ next a t = .ok b u := by
  show EStateM.bind step next s = _ ↔ _
  unfold EStateM.bind
  cases step s with
  | ok a t =>
    constructor
    · exact fun h => ⟨a, t, rfl, h⟩
    · rintro ⟨_, _, heq, h⟩
      cases heq
      exact h
  | error e t => simp

theorem bind_eq_error_iff {step : Step σ α} {next : α → Step σ β} {s u : σ} {e : WireError} :
    (step >>= next) s = .error e u ↔
      step s = .error e u ∨ ∃ a t, step s = .ok a t ∧ next a t = .error e u := by
  show EStateM.bind step next s = _ ↔ _
  unfold EStateM.bind
  cases step s with
  | ok a t =>
    constructor
    · exact fun h => .inr ⟨a, t, rfl, h⟩
    · rintro (heq | ⟨_, _, heq, h⟩)
      · cases heq
      · cases heq
        exact h
  | error e t => simp

theorem on_eq_ok_iff {part : σ → τ} {replace : σ → τ → σ} {step : Step τ α} {s u : σ} {a : α} :
    on part replace step s = .ok a u ↔ ∃ t, step (part s) = .ok a t ∧ replace s t = u := by
  unfold on
  cases step (part s) with
  | ok a t =>
    constructor
    · intro h
      cases h
      exact ⟨t, rfl, rfl⟩
    · rintro ⟨_, heq, rfl⟩
      cases heq
      rfl
  | error e t => simp

theorem outcome_eq_ok_iff {step : Step σ α} {s : σ} {a : α} :
    outcome step s = .ok a ↔ ∃ t, step s = .ok a t := by
  unfold outcome
  cases step s <;> simp

theorem length_of_each {step : α → Step σ β} {items : List α} {results : List β} {s u : σ}
    (h : each step items s = .ok results u) : results.length = items.length := by
  induction items generalizing results s with
  | nil =>
    cases h
    rfl
  | cons a rest ih =>
    obtain ⟨first, t, -, hrest⟩ := bind_eq_ok_iff.mp h
    obtain ⟨others, v, hothers, hresults⟩ := bind_eq_ok_iff.mp hrest
    cases hresults
    simp [ih hothers]

end Step

end ObjectEnvelope
