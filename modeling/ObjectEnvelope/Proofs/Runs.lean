import ObjectEnvelope.Step

/-!
# Runs of steps

How the basic steps end, one lemma for each, so that a function made of them is opened by rewriting:
`simp only` with these lemmas and `bind_eq_ok_iff` turns the success of a `do` block into the facts
that its lines establish.
-/

namespace ObjectEnvelope

/-! ## Outcomes -/

namespace Outcome

variable {α β : Type} {x : Except WireError α} {next : α → Except WireError β} {b : β}
  {e f : WireError}

theorem bind_eq_ok_iff : (x >>= next) = .ok b ↔ ∃ a, x = .ok a ∧ next a = .ok b := by
  cases x with
  | ok a => simp [bind, Except.bind]
  | error e => simp [bind, Except.bind]

theorem bind_eq_error_iff :
    (x >>= next) = .error e ↔ x = .error e ∨ ∃ a, x = .ok a ∧ next a = .error e := by
  cases x with
  | ok a => simp [bind, Except.bind]
  | error e => simp [bind, Except.bind]

@[simp] theorem pure_eq_ok_iff {a c : α} : (pure a : Except WireError α) = .ok c ↔ a = c := by
  show Except.ok a = .ok c ↔ _
  simp

@[simp] theorem pure_ne_error {a : α} : (pure a : Except WireError α) ≠ .error e := by
  show Except.ok a ≠ .error e
  simp

/-- A guard lets an outcome through exactly when its condition fails. -/
theorem guard_eq_ok_iff {c : Prop} [Decidable c] {next : PUnit → Except WireError β} :
    (if c then (throw e : Except WireError PUnit) >>= next else next ⟨⟩) = .ok b ↔
      ¬ c ∧ next ⟨⟩ = .ok b := by
  by_cases h : c
  · simp [h, bind, Except.bind, throw, throwThe, MonadExceptOf.throw]
  · simp [h]

theorem guard_eq_error_iff {c : Prop} [Decidable c] {next : PUnit → Except WireError β} :
    (if c then (throw e : Except WireError PUnit) >>= next else next ⟨⟩) = .error f ↔
      (c ∧ e = f) ∨ (¬ c ∧ next ⟨⟩ = .error f) := by
  by_cases h : c
  · simp [h, bind, Except.bind, throw, throwThe, MonadExceptOf.throw]
  · simp [h]

/-- A run of checks passes exactly when each of them does. -/
theorem forM_eq_ok_iff {check : α → Except WireError PUnit} {items : List α} :
    items.forM check = .ok () ↔ ∀ a ∈ items, check a = .ok () := by
  induction items with
  | nil => simp [pure, Except.pure]
  | cons a rest ih =>
    rw [List.forM_eq_forM] at ih ⊢
    rw [List.forM_cons, List.forall_mem_cons, ← ih]
    cases check a <;> simp [bind, Except.bind]

/-- A run of checks fails with one of them. -/
theorem exists_of_forM_eq_error {check : α → Except WireError Unit} {items : List α}
    (h : items.forM check = .error e) : ∃ a ∈ items, check a = .error e := by
  induction items with
  | nil => exact absurd h pure_ne_error
  | cons a rest ih =>
    rw [List.forM_eq_forM] at ih h
    rw [List.forM_cons] at h
    rcases bind_eq_error_iff.mp h with h | ⟨_, -, h⟩
    · exact ⟨a, List.mem_cons_self, h⟩
    · obtain ⟨b, hb, hcheck⟩ := ih h
      exact ⟨b, List.mem_cons_of_mem _ hb, hcheck⟩

end Outcome

namespace Step

variable {σ τ α β : Type} {s t u : σ} {a b : α} {e f : WireError}

/-! ## Success -/

@[simp] theorem pure_eq_ok_iff : (pure a : Step σ α) s = .ok b t ↔ a = b ∧ s = t := by
  show EStateM.Result.ok a s = .ok b t ↔ _
  simp

@[simp] theorem throw_ne_ok : (throw e : Step σ α) s ≠ .ok b t := by
  show EStateM.Result.error e s ≠ .ok b t
  simp

@[simp] theorem get_eq_ok_iff : (get : Step σ σ) s = .ok t u ↔ s = t ∧ s = u := by
  show EStateM.Result.ok s s = .ok t u ↔ _
  simp

@[simp] theorem set_eq_ok_iff {x : PUnit} : (set t : Step σ PUnit) s = .ok x u ↔ t = u := by
  show EStateM.Result.ok PUnit.unit t = .ok x u ↔ _
  simp

@[simp] theorem modify_eq_ok_iff {g : σ → σ} {x : PUnit} :
    (modify g : Step σ PUnit) s = .ok x u ↔ g s = u := by
  show EStateM.Result.ok PUnit.unit (g s) = .ok x u ↔ _
  simp

@[simp] theorem ofExcept_eq_ok_iff {x : Except WireError α} :
    (ofExcept x : Step σ α) s = .ok a t ↔ x = .ok a ∧ s = t := by
  cases x with
  | ok b => simp [ofExcept]
  | error e => simp [ofExcept]

/-- A guard lets a step go on exactly when its condition fails. -/
theorem guard_eq_ok_iff {c : Prop} [Decidable c] {next : PUnit → Step σ β} {r : β} :
    (if c then (throw e : Step σ PUnit) >>= next else next ⟨⟩) s = .ok r t ↔
      ¬ c ∧ next ⟨⟩ s = .ok r t := by
  by_cases h : c
  · simp [h, bind_eq_ok_iff]
  · simp [h]

/-- Whether a step from a state succeeds. -/
def succeeds (step : Step σ α) (s : σ) : Bool :=
  match step s with
  | .ok _ _ => true
  | .error _ _ => false

theorem exists_of_succeeds {step : Step σ α} (h : succeeds step s = true) :
    ∃ a t, step s = .ok a t := by
  unfold succeeds at h
  split at h
  · next a t hrun => exact ⟨a, t, hrun⟩
  · cases h

/-- Whether a step from a state succeeds and leads to what passes a check. -/
def succeedsWith (step : Step σ α) (s : σ) (check : α → σ → Bool) : Bool :=
  match step s with
  | .ok a t => check a t
  | .error _ _ => false

theorem exists_of_succeedsWith {step : Step σ α} {check : α → σ → Bool}
    (h : succeedsWith step s check = true) : ∃ a t, step s = .ok a t ∧ check a t = true := by
  unfold succeedsWith at h
  split at h
  · next a t hrun => exact ⟨a, t, hrun, h⟩
  · cases h

theorem exists_of_outcome {step : Step σ α} (h : (outcome step s).toOption = some a) :
    ∃ t, step s = .ok a t := by
  cases houtcome : outcome step s with
  | error e =>
    rw [houtcome] at h
    cases h
  | ok b =>
    rw [houtcome] at h
    cases h
    exact outcome_eq_ok_iff.mp houtcome

/-- The kind of failure that a step from a state ends with, if it fails. -/
def failure? (step : Step σ α) (s : σ) : Option ErrorKind :=
  match step s with
  | .ok _ _ => none
  | .error e _ => some e.kind

theorem exists_of_failure? {step : Step σ α} {kind : ErrorKind}
    (h : failure? step s = some kind) : ∃ e t, step s = .error e t ∧ e.kind = kind := by
  unfold failure? at h
  split at h
  · cases h
  · next e t hrun => exact ⟨e, t, hrun, Option.some_inj.mp h⟩

/-! ## Failure -/

@[simp] theorem pure_ne_error : (pure a : Step σ α) s ≠ .error e t := by
  show EStateM.Result.ok a s ≠ .error e t
  simp

@[simp] theorem throw_eq_error_iff : (throw e : Step σ α) s = .error f t ↔ e = f ∧ s = t := by
  show EStateM.Result.error e s = .error f t ↔ _
  simp

@[simp] theorem get_ne_error : (get : Step σ σ) s ≠ .error e t := by
  show EStateM.Result.ok s s ≠ .error e t
  simp

@[simp] theorem set_ne_error : (set t : Step σ PUnit) s ≠ .error e u := by
  show EStateM.Result.ok PUnit.unit t ≠ .error e u
  simp

@[simp] theorem modify_ne_error {g : σ → σ} : (modify g : Step σ PUnit) s ≠ .error e u := by
  show EStateM.Result.ok PUnit.unit (g s) ≠ .error e u
  simp

@[simp] theorem ofExcept_eq_error_iff {x : Except WireError α} :
    (ofExcept x : Step σ α) s = .error e t ↔ x = .error e ∧ s = t := by
  cases x with
  | ok b => simp [ofExcept]
  | error f => simp [ofExcept]

theorem guard_eq_error_iff {c : Prop} [Decidable c] {next : PUnit → Step σ β} :
    (if c then (throw e : Step σ PUnit) >>= next else next ⟨⟩) s = .error f t ↔
      (c ∧ e = f ∧ s = t) ∨ (¬ c ∧ next ⟨⟩ s = .error f t) := by
  by_cases h : c
  · simp [h, bind_eq_error_iff]
  · simp [h]

/-- What is worked out of a result is not refused. -/
theorem map_eq_error_iff {step : Step σ α} {f : α → β} :
    (do return f (← step)) s = .error e t ↔ step s = .error e t := by
  simp only [bind_eq_error_iff, pure_ne_error, and_false, exists_false, or_false]

theorem on_eq_error_iff {part : σ → τ} {replace : σ → τ → σ} {step : Step τ α} :
    on part replace step s = .error e u ↔
      ∃ v, step (part s) = .error e v ∧ replace s v = u := by
  unfold on
  cases step (part s) with
  | ok a v => simp
  | error f v =>
    constructor
    · rintro h
      cases h
      exact ⟨v, rfl, rfl⟩
    · rintro ⟨_, h, rfl⟩
      cases h
      rfl

/-! ## Repeated steps -/

@[simp] theorem each_nil_eq_ok_iff {step : α → Step σ β} {results : List β} :
    each step [] s = .ok results t ↔ results = [] ∧ s = t := by
  rw [each, pure_eq_ok_iff]
  exact and_congr_left fun _ => eq_comm

theorem each_cons_eq_ok_iff {step : α → Step σ β} {rest : List α} {results : List β} :
    each step (a :: rest) s = .ok results u ↔
      ∃ r t rs, step a s = .ok r t ∧ each step rest t = .ok rs u ∧ results = r :: rs := by
  simp only [each, bind_eq_ok_iff, pure_eq_ok_iff]
  constructor
  · rintro ⟨r, t, hr, rs, _, hrs, rfl, rfl⟩
    exact ⟨r, t, rs, hr, hrs, rfl⟩
  · rintro ⟨r, t, rs, hr, hrs, rfl⟩
    exact ⟨r, t, hr, rs, u, hrs, rfl, rfl⟩

/-- Running a step on the images of the items. -/
theorem each_map {γ : Type} (step : α → Step σ β) (image : γ → α) (items : List γ) :
    each step (items.map image) = each (fun c => step (image c)) items := by
  induction items with
  | nil => rfl
  | cons c rest ih => simp only [List.map_cons, each, ih]

/-- Counted runs are runs on as many like items. -/
theorem times_eq_each (step : α → Step σ β) (a : α) (count : Nat) :
    times (step a) count = each step (List.replicate count a) := by
  induction count with
  | zero => rfl
  | succ count ih => simp only [List.replicate_succ, each, times, ih]

/-! ## What a step leaves behind -/

/-- The state after a step, whether it succeeds or fails. -/
def after (step : Step σ α) (s : σ) : σ :=
  match step s with
  | .ok _ t => t
  | .error _ t => t

theorem after_of_ok {step : Step σ α} (h : step s = .ok a t) : after step s = t := by
  rw [after, h]

theorem after_of_error {step : Step σ α} (h : step s = .error e t) : after step s = t := by
  rw [after, h]

/-- The step succeeds with a state of one kind, or fails with a state of another. -/
def Leaves (step : Step σ α) (s : σ) (success failure : σ → Prop) : Prop :=
  (∀ a t, step s = .ok a t → success t) ∧ ∀ e t, step s = .error e t → failure t

theorem Leaves.after {step : Step σ α} {success failure : σ → Prop}
    (h : Leaves step s success failure) (hsuccess : ∀ t, success t → failure t) :
    failure (after step s) := by
  cases hrun : step s with
  | ok a t =>
    rw [after_of_ok hrun]
    exact hsuccess t (h.1 a t hrun)
  | error e t =>
    rw [after_of_error hrun]
    exact h.2 e t hrun

theorem Leaves.bind {step : Step σ α} {next : α → Step σ β} {between success failure : σ → Prop}
    (hstep : Leaves step s between failure)
    (hnext : ∀ a t, between t → Leaves (next a) t success failure) :
    Leaves (step >>= next) s success failure := by
  constructor
  · intro b u h
    obtain ⟨a, t, hstep', hnext'⟩ := bind_eq_ok_iff.mp h
    exact (hnext a t (hstep.1 a t hstep')).1 b u hnext'
  · intro e u h
    rcases bind_eq_error_iff.mp h with hstep' | ⟨a, t, hstep', hnext'⟩
    · exact hstep.2 e u hstep'
    · exact (hnext a t (hstep.1 a t hstep')).2 e u hnext'

theorem discard_eq_ok_iff {step : Step σ α} {x : PUnit} :
    (discard step : Step σ PUnit) s = .ok x t ↔ ∃ a, step s = .ok a t := by
  show (step >>= fun _ => (Pure.pure PUnit.unit : Step σ PUnit)) s = .ok x t ↔ _
  simp only [bind_eq_ok_iff, pure_eq_ok_iff]
  constructor
  · rintro ⟨a, _, h, -, rfl⟩
    exact ⟨a, h⟩
  · rintro ⟨a, h⟩
    exact ⟨a, t, h, trivial, rfl⟩

theorem discard_eq_error_iff {step : Step σ α} :
    (discard step : Step σ PUnit) s = .error e t ↔ step s = .error e t := by
  show (step >>= fun _ => (Pure.pure PUnit.unit : Step σ PUnit)) s = .error e t ↔ _
  simp only [bind_eq_error_iff, pure_ne_error, and_false, exists_false, or_false]

/-- Steps for several items, the last first: when each step starts from what the steps before it
lead to, all of them lead to what belongs to the whole list. -/
theorem leaves_reverse_forM (state : List α → σ → Prop) {step : α → Step σ β}
    {failure : σ → Prop} {items : List α}
    (hstep : ∀ front a back, items = front ++ a :: back → ∀ s, state back s →
      Leaves (step a) s (state (a :: back)) failure)
    (hs : state [] s) :
    Leaves (items.reverse.forM fun a => discard (step a)) s (state items) failure := by
  induction items with
  | nil =>
    refine ⟨fun x t h => ?_, fun e t h => absurd h pure_ne_error⟩
    obtain ⟨-, rfl⟩ := pure_eq_ok_iff.mp h
    exact hs
  | cons a rest ih =>
    have hrest := ih fun front b back hsplit =>
      hstep (a :: front) b back (by rw [hsplit, List.cons_append])
    have hsplit : (a :: rest).reverse.forM (fun a => discard (step a)) =
        (rest.reverse.forM fun a => discard (step a)) >>= fun _ => discard (step a) := by
      rw [List.reverse_cons, List.forM_eq_forM, List.forM_append]
      simp
    rw [hsplit]
    refine hrest.bind fun _ t ht => ?_
    obtain ⟨hok, herror⟩ := hstep [] a rest rfl t ht
    refine ⟨fun x u h => ?_, fun e u h => herror e u (discard_eq_error_iff.mp h)⟩
    obtain ⟨b, h⟩ := discard_eq_ok_iff.mp h
    exact hok b u h

/-! ## What a step preserves -/

/-- Whatever holds before the step holds after it, whether it succeeds or fails. -/
def Preserves (inv : σ → Prop) (step : Step σ α) : Prop :=
  ∀ s, inv s → Leaves step s inv inv

section

variable {inv : σ → Prop}

theorem Preserves.after {step : Step σ α} (h : Preserves inv step) (hs : inv s) :
    inv (after step s) :=
  (h s hs).after fun _ ht => ht

theorem Preserves.pure (a : α) : Preserves inv (pure a : Step σ α) := by
  refine fun s hs => ⟨fun b t h => ?_, fun e t h => absurd h pure_ne_error⟩
  obtain ⟨-, rfl⟩ := pure_eq_ok_iff.mp h
  exact hs

theorem Preserves.throw (e : WireError) : Preserves inv (throw e : Step σ α) := by
  refine fun s hs => ⟨fun b t h => absurd h throw_ne_ok, fun f t h => ?_⟩
  obtain ⟨-, rfl⟩ := throw_eq_error_iff.mp h
  exact hs

theorem Preserves.ofExcept (x : Except WireError α) : Preserves inv (ofExcept x : Step σ α) := by
  cases x with
  | ok a => exact .pure a
  | error e => exact .throw e

theorem Preserves.get : Preserves inv (get : Step σ σ) := by
  refine fun s hs => ⟨fun b t h => ?_, fun e t h => absurd h get_ne_error⟩
  obtain ⟨-, rfl⟩ := get_eq_ok_iff.mp h
  exact hs

theorem Preserves.modify {g : σ → σ} (hg : ∀ s, inv s → inv (g s)) :
    Preserves inv (modify g : Step σ PUnit) := by
  refine fun s hs => ⟨fun b t h => ?_, fun e t h => absurd h modify_ne_error⟩
  obtain rfl := modify_eq_ok_iff.mp h
  exact hg s hs

theorem Preserves.bind {step : Step σ α} {next : α → Step σ β} (hstep : Preserves inv step)
    (hnext : ∀ a, Preserves inv (next a)) : Preserves inv (step >>= next) :=
  fun s hs => (hstep s hs).bind fun a t ht => hnext a t ht

theorem Preserves.discard {step : Step σ α} (h : Preserves inv step) :
    Preserves inv (discard step) :=
  h.bind fun _ => .pure _

/-- A step on a part of the state that has no part in what is preserved. -/
theorem Preserves.on_any {part : σ → τ} {replace : σ → τ → σ} {step : Step τ α}
    (hreplace : ∀ s t, inv s → inv (replace s t)) : Preserves inv (on part replace step) := by
  refine fun s hs => ⟨fun a u hrun => ?_, fun e u hrun => ?_⟩
  · obtain ⟨t, -, rfl⟩ := on_eq_ok_iff.mp hrun
    exact hreplace s t hs
  · obtain ⟨t, -, rfl⟩ := on_eq_error_iff.mp hrun
    exact hreplace s t hs

/-- A step on a part of the state. -/
theorem Preserves.on {inv' : τ → Prop} {part : σ → τ} {replace : σ → τ → σ} {step : Step τ α}
    (h : Preserves inv' step) (hpart : ∀ s, inv s → inv' (part s))
    (hreplace : ∀ s t, inv s → inv' t → inv (replace s t)) :
    Preserves inv (on part replace step) := by
  refine fun s hs => ⟨fun a u hrun => ?_, fun e u hrun => ?_⟩
  · obtain ⟨t, hstep, rfl⟩ := on_eq_ok_iff.mp hrun
    exact hreplace s t hs ((h _ (hpart s hs)).1 a t hstep)
  · obtain ⟨t, hstep, rfl⟩ := on_eq_error_iff.mp hrun
    exact hreplace s t hs ((h _ (hpart s hs)).2 e t hstep)

theorem Preserves.guard {c : Prop} [Decidable c] {next : PUnit → Step σ β}
    (hnext : ∀ x, Preserves inv (next x)) :
    Preserves inv (if c then (MonadExcept.throw e : Step σ PUnit) >>= next else next ⟨⟩) := by
  split
  · exact .bind (.throw e) hnext
  · exact hnext _

theorem Preserves.each {step : α → Step σ β} (hstep : ∀ a, Preserves inv (step a))
    (items : List α) : Preserves inv (each step items) := by
  induction items with
  | nil => exact .pure _
  | cons a rest ih => exact .bind (hstep a) fun _ => .bind ih fun _ => .pure _

theorem Preserves.forM {step : α → Step σ PUnit} (hstep : ∀ a, Preserves inv (step a))
    (items : List α) : Preserves inv (items.forM step) := by
  induction items with
  | nil => exact .pure _
  | cons a rest ih => exact .bind (hstep a) fun _ => ih

end

/-! ## What a step yields -/

/-- The step returns a result of one kind, or is refused with an error of another. -/
def Yields (step : Step σ α) (s : σ) (success : α → σ → Prop) (refusal : WireError → Prop) : Prop :=
  (∃ a t, step s = .ok a t ∧ success a t) ∨ ∃ e t, step s = .error e t ∧ refusal e

variable {success : β → σ → Prop} {refusal : WireError → Prop}

theorem yields_get : Yields get s (fun s' t => s = s' ∧ s = t) refusal :=
  .inl ⟨s, s, rfl, rfl, rfl⟩

theorem Yields.bind {step : Step σ α} {next : α → Step σ β} {between : α → σ → Prop}
    (hstep : Yields step s between refusal)
    (hnext : ∀ a t, between a t → Yields (next a) t success refusal) :
    Yields (step >>= next) s success refusal := by
  rcases hstep with ⟨a, t, hrun, ht⟩ | ⟨e, t, hrun, he⟩
  · rcases hnext a t ht with ⟨b, u, hrun', hu⟩ | ⟨e, u, hrun', he⟩
    · exact .inl ⟨b, u, bind_eq_ok_iff.mpr ⟨a, t, hrun, hrun'⟩, hu⟩
    · exact .inr ⟨e, u, bind_eq_error_iff.mpr (.inr ⟨a, t, hrun, hrun'⟩), he⟩
  · exact .inr ⟨e, t, bind_eq_error_iff.mpr (.inl hrun), he⟩

/-- Steps one after the other; what holds between them may depend on the items to come. -/
theorem Yields.forM (state : List α → σ → Prop) {step : α → Step σ PUnit} {items : List α}
    (hstep : ∀ a rest s, state (a :: rest) s → Yields (step a) s (fun _ => state rest) refusal)
    (hs : state items s) : Yields (items.forM step) s (fun _ => state []) refusal := by
  induction items generalizing s with
  | nil => exact .inl ⟨⟨⟩, s, rfl, hs⟩
  | cons a rest ih => exact (hstep a rest s hs).bind fun _ t ht => ih ht

theorem yields_of_ok {step : Step σ β} {b : β} (h : step s = .ok b t) :
    Yields step s (fun c u => c = b ∧ u = t) refusal :=
  .inl ⟨b, t, h, rfl, rfl⟩

theorem yields_pure {b : β} (h : success b s) : Yields (pure b) s success refusal :=
  .inl ⟨b, s, rfl, h⟩

theorem yields_throw {next : α → Step σ β} (h : refusal e) :
    Yields (throw e >>= next) s success refusal :=
  .inr ⟨e, s, rfl, h⟩

theorem Yields.mono {step : Step σ β} {success' : β → σ → Prop} {refusal' : WireError → Prop}
    (h : Yields step s success refusal) (hsuccess : ∀ b t, success b t → success' b t)
    (hrefusal : ∀ e, refusal e → refusal' e) : Yields step s success' refusal' := by
  rcases h with ⟨b, t, hrun, ht⟩ | ⟨e, t, hrun, he⟩
  · exact .inl ⟨b, t, hrun, hsuccess b t ht⟩
  · exact .inr ⟨e, t, hrun, hrefusal e he⟩

/-- A step has one outcome. -/
theorem Yields.of_ok {step : Step σ β} {b : β} (h : Yields step s success refusal)
    (hrun : step s = .ok b t) : success b t := by
  rcases h with ⟨c, u, hrun', hu⟩ | ⟨e, u, hrun', -⟩
  · cases hrun.symm.trans hrun'
    exact hu
  · cases hrun.symm.trans hrun'

theorem exists_of_yields {step : Step σ β} (h : Yields step s success fun _ => False) :
    ∃ b t, step s = .ok b t ∧ success b t := by
  rcases h with h | ⟨_, _, _, he⟩
  · exact h
  · exact he.elim

/-! ## Ways of failing -/

/-- Whenever the step fails, it fails in one of the given ways. -/
def FailsOnly (way : WireError → Prop) (step : Step σ α) : Prop :=
  ∀ s e t, step s = .error e t → way e

variable {way : WireError → Prop}

theorem FailsOnly.mono {way' : WireError → Prop} {step : Step σ α} (h : FailsOnly way step)
    (himp : ∀ e, way e → way' e) : FailsOnly way' step :=
  fun s e t hrun => himp e (h s e t hrun)

theorem FailsOnly.pure (a : α) : FailsOnly way (pure a : Step σ α) :=
  fun _ _ _ h => absurd h pure_ne_error

theorem FailsOnly.throw (he : way e) : FailsOnly way (throw e : Step σ α) := by
  intro s f t h
  obtain ⟨rfl, -⟩ := throw_eq_error_iff.mp h
  exact he

theorem FailsOnly.get : FailsOnly way (get : Step σ σ) :=
  fun _ _ _ h => absurd h get_ne_error

theorem FailsOnly.set (s : σ) : FailsOnly way (set s : Step σ PUnit) :=
  fun _ _ _ h => absurd h set_ne_error

theorem FailsOnly.modify (g : σ → σ) : FailsOnly way (modify g : Step σ PUnit) :=
  fun _ _ _ h => absurd h modify_ne_error

theorem FailsOnly.bind {step : Step σ α} {next : α → Step σ β} (hstep : FailsOnly way step)
    (hnext : ∀ a, FailsOnly way (next a)) : FailsOnly way (step >>= next) := by
  intro s e t h
  rcases bind_eq_error_iff.mp h with h | ⟨a, u, -, h⟩
  · exact hstep s e t h
  · exact hnext a u e t h

theorem FailsOnly.ofExcept {x : Except WireError α} (hx : ∀ e, x = .error e → way e) :
    FailsOnly way (ofExcept x : Step σ α) := by
  intro s e t h
  exact hx e (ofExcept_eq_error_iff.mp h).1

theorem FailsOnly.on {part : σ → τ} {replace : σ → τ → σ} {step : Step τ α}
    (hstep : FailsOnly way step) : FailsOnly way (on part replace step) := by
  intro s e t h
  obtain ⟨v, h, -⟩ := on_eq_error_iff.mp h
  exact hstep _ e v h

theorem FailsOnly.guard {c : Prop} [Decidable c] {next : PUnit → Step σ β}
    (he : c → way e) (hnext : FailsOnly way (next ⟨⟩)) :
    FailsOnly way (if c then (MonadExcept.throw e : Step σ PUnit) >>= next else next ⟨⟩) := by
  intro s f t h
  rcases guard_eq_error_iff.mp h with ⟨hc, rfl, -⟩ | ⟨-, h⟩
  · exact he hc
  · exact hnext s f t h

theorem FailsOnly.each {step : α → Step σ β} {items : List α}
    (hstep : ∀ a ∈ items, FailsOnly way (step a)) : FailsOnly way (each step items) := by
  induction items with
  | nil => exact .pure _
  | cons a rest ih =>
    refine .bind (hstep a List.mem_cons_self) fun r => .bind (ih fun c hc => ?_) fun _ => .pure _
    exact hstep c (List.mem_cons_of_mem _ hc)

theorem FailsOnly.times {step : Step σ α} (hstep : FailsOnly way step) (count : Nat) :
    FailsOnly way (times step count) := by
  rw [times_eq_each (fun _ : Unit => step) ()]
  exact .each fun _ _ => hstep

theorem FailsOnly.forM {step : α → Step σ PUnit} {items : List α}
    (hstep : ∀ a ∈ items, FailsOnly way (step a)) : FailsOnly way (items.forM step) := by
  induction items with
  | nil => exact .pure _
  | cons a rest ih =>
    exact .bind (hstep a List.mem_cons_self) fun _ =>
      ih fun b hb => hstep b (List.mem_cons_of_mem _ hb)

theorem FailsOnly.discard {step : Step σ α} (h : FailsOnly way step) :
    FailsOnly way (discard step) :=
  .bind h fun _ => .pure _

/-- A step with one way of failing has an outcome with one way of failing. -/
theorem FailsOnly.outcome {step : Step σ α} (h : FailsOnly way step)
    (hrun : outcome step s = .error e) : way e := by
  unfold Step.outcome at hrun
  split at hrun
  · cases hrun
  · next f t hstep =>
    cases hrun
    exact h s _ t hstep

/-- Whenever the step fails from the state, the error and the state that is left belong together. -/
def FailsWith (step : Step σ α) (s : σ) (fault : WireError → σ → Prop) : Prop :=
  ∀ e t, step s = .error e t → fault e t

variable {fault : WireError → σ → Prop}

theorem FailsOnly.failsWith {step : Step σ α} (h : FailsOnly way step)
    (himp : ∀ e t, way e → fault e t) : FailsWith step s fault :=
  fun e t hrun => himp e t (h s e t hrun)

theorem FailsWith.bind {step : Step σ α} {next : α → Step σ β} (hstep : FailsWith step s fault)
    (hnext : ∀ a t, step s = .ok a t → FailsWith (next a) t fault) :
    FailsWith (step >>= next) s fault := by
  intro e u h
  rcases bind_eq_error_iff.mp h with h | ⟨a, t, hrun, h⟩
  · exact hstep e u h
  · exact hnext a t hrun e u h

theorem FailsWith.guard {c : Prop} [Decidable c] {next : PUnit → Step σ β} (he : fault e s)
    (hnext : ¬ c → FailsWith (next ⟨⟩) s fault) :
    FailsWith (if c then (MonadExcept.throw e : Step σ PUnit) >>= next else next ⟨⟩) s fault := by
  intro f t h
  rcases guard_eq_error_iff.mp h with ⟨-, rfl, rfl⟩ | ⟨hc, h⟩
  · exact he
  · exact hnext hc f t h

/-- Steps for several items, each of which keeps what the next one starts from. -/
theorem FailsWith.each {inv : σ → Prop} {step : α → Step σ β} {items : List α}
    (hstep : ∀ a s, inv s → FailsWith (step a) s fault)
    (hkeep : ∀ a s b t, step a s = .ok b t → inv s → inv t) (hs : inv s) :
    FailsWith (each step items) s fault := by
  induction items generalizing s with
  | nil => exact fun e t h => absurd h pure_ne_error
  | cons a rest ih =>
    refine .bind (hstep a s hs) fun b t hrun => .bind (ih (hkeep a s b t hrun hs)) fun bs u _ => ?_
    exact fun e v h => absurd h pure_ne_error

end Step

end ObjectEnvelope
