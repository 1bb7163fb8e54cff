import Mathlib.Data.List.Forall2
import ObjectEnvelope.Proofs.Runs

/-!
# Two runs

Two runs go together when both succeed, with results and states that belong together, or both fail
with errors of one kind (`Step.Together`). There is one rule for each way in which steps are made of
others, so that two runs of one function are compared line by line. One step that has the very same
outcome from all states that belong together does not see what tells them apart (`Step.Blind`); one
that goes on from the second state as it did from the first, as far as it is let, tracks the first
run (`Step.Tracks`).
-/

namespace ObjectEnvelope

namespace Outcome

variable {α β γ δ : Type} {x : Except WireError α} {y : Except WireError β} {post : α → β → Prop}

/-- Both outcomes are results that belong together, or both are errors of one kind. -/
def Together (x : Except WireError α) (y : Except WireError β) (post : α → β → Prop) : Prop :=
  (∃ a b, x = .ok a ∧ y = .ok b ∧ post a b) ∨
    ∃ e f, x = .error e ∧ y = .error f ∧ e.kind = f.kind

theorem Together.ok {a : α} {b : β} (h : post a b) : Together (.ok a) (.ok b) post :=
  .inl ⟨a, b, rfl, rfl, h⟩

theorem Together.error {e f : WireError} (h : e.kind = f.kind) :
    Together (.error e) (.error f) post :=
  .inr ⟨e, f, rfl, rfl, h⟩

theorem Together.bind {next : α → Except WireError γ} {next' : β → Except WireError δ}
    {post' : γ → δ → Prop} (h : Together x y post)
    (hnext : ∀ a b, post a b → Together (next a) (next' b) post') :
    Together (x >>= next) (y >>= next') post' := by
  rcases h with ⟨a, b, rfl, rfl, hab⟩ | ⟨e, f, rfl, rfl, hef⟩
  · exact hnext a b hab
  · exact .inr ⟨e, f, rfl, rfl, hef⟩

/-- Two guards with one condition. -/
theorem Together.guard {c c' : Prop} [Decidable c] [Decidable c'] {e f : WireError}
    {next : PUnit → Except WireError α} {next' : PUnit → Except WireError β} (hc : c ↔ c')
    (hef : e.kind = f.kind) (hnext : ¬ c → Together (next ⟨⟩) (next' ⟨⟩) post) :
    Together (if c then (throw e : Except WireError PUnit) >>= next else next ⟨⟩)
      (if c' then (throw f : Except WireError PUnit) >>= next' else next' ⟨⟩) post := by
  by_cases h : c
  · rw [if_pos h, if_pos (hc.mp h)]
    exact .inr ⟨e, f, rfl, rfl, hef⟩
  · rw [if_neg h, if_neg (mt hc.mpr h)]
    exact hnext h

/-- Checks of items that are paired. -/
theorem Together.forM {R : γ → δ → Prop} {check : γ → Except WireError PUnit}
    {check' : δ → Except WireError PUnit} {xs : List γ} {ys : List δ} (h : List.Forall₂ R xs ys)
    (hcheck : ∀ a ∈ xs, ∀ b, R a b → Together (check a) (check' b) fun _ _ => True) :
    Together (xs.forM check) (ys.forM check') fun _ _ => True := by
  induction h with
  | nil => exact .ok trivial
  | cons hab _ ih =>
    obtain ⟨ha, hrest⟩ := List.forall_mem_cons.mp hcheck
    exact (ha _ hab).bind fun _ _ _ => ih hrest

end Outcome

namespace Step

variable {σ τ σ' τ' α β γ δ : Type} {s : σ} {t : τ} {step : Step σ α} {step' : Step τ β}
  {post post' : α → σ → β → τ → Prop}

/-- Both runs succeed, with results and states that belong together, or both fail with errors of
one kind. -/
def Together (step : Step σ α) (s : σ) (step' : Step τ β) (t : τ)
    (post : α → σ → β → τ → Prop) : Prop :=
  (∃ a u b v, step s = .ok a u ∧ step' t = .ok b v ∧ post a u b v) ∨
    ∃ e u f v, step s = .error e u ∧ step' t = .error f v ∧ e.kind = f.kind

/-- A run together with itself. -/
theorem Together.self (step : Step σ α) (s : σ) :
    Together step s step s fun a u b v => a = b ∧ u = v := by
  cases hrun : step s with
  | ok a u => exact .inl ⟨a, u, a, u, hrun, hrun, rfl, rfl⟩
  | error e u => exact .inr ⟨e, u, e, u, hrun, hrun, rfl⟩

theorem Together.pure {a : α} {b : β} (h : post a s b t) :
    Together (pure a) s (pure b) t post :=
  .inl ⟨a, s, b, t, rfl, rfl, h⟩

theorem Together.throw {e f : WireError} (h : e.kind = f.kind) :
    Together (throw e) s (throw f) t post :=
  .inr ⟨e, s, f, t, rfl, rfl, h⟩

/-- Two outcomes leave the states as they are. -/
theorem Together.ofExcept {x : Except WireError α} {y : Except WireError β} {R : α → β → Prop}
    (h : Outcome.Together x y R) :
    Together (ofExcept x) s (ofExcept y) t fun a u b v => R a b ∧ u = s ∧ v = t := by
  rcases h with ⟨a, b, rfl, rfl, hab⟩ | ⟨e, f, rfl, rfl, hef⟩
  · exact .pure ⟨hab, rfl, rfl⟩
  · exact .throw hef

theorem Together.modify {f : σ → σ} {g : τ → τ} {post : PUnit → σ → PUnit → τ → Prop}
    (h : post ⟨⟩ (f s) ⟨⟩ (g t)) : Together (modify f) s (modify g) t post :=
  .inl ⟨⟨⟩, f s, ⟨⟩, g t, rfl, rfl, h⟩

theorem Together.mono (h : Together step s step' t post)
    (himp : ∀ a u b v, post a u b v → post' a u b v) : Together step s step' t post' := by
  rcases h with ⟨a, u, b, v, hrun, hrun', hpost⟩ | herror
  · exact .inl ⟨a, u, b, v, hrun, hrun', himp a u b v hpost⟩
  · exact .inr herror

/-- What each run yields by itself, if neither can be refused where the other succeeds. -/
theorem Together.of_yields {success : α → σ → Prop} {success' : β → τ → Prop}
    {refusal refusal' : WireError → Prop} (h : Yields step s success refusal)
    (h' : Yields step' t success' refusal') (hleft : ∀ a u f, success a u → ¬ refusal' f)
    (hright : ∀ b v e, success' b v → ¬ refusal e)
    (hkind : ∀ e f, refusal e → refusal' f → e.kind = f.kind) :
    Together step s step' t fun a u b v => success a u ∧ success' b v := by
  rcases h with ⟨a, u, hrun, ha⟩ | ⟨e, u, hrun, he⟩ <;>
    rcases h' with ⟨b, v, hrun', hb⟩ | ⟨f, v, hrun', hf⟩
  · exact .inl ⟨a, u, b, v, hrun, hrun', ha, hb⟩
  · exact absurd hf (hleft a u f ha)
  · exact absurd he (hright b v e hb)
  · exact .inr ⟨e, u, f, v, hrun, hrun', hkind e f he hf⟩

theorem Together.bind {next : α → Step σ γ} {next' : β → Step τ δ}
    {post' : γ → σ → δ → τ → Prop} (h : Together step s step' t post)
    (hnext : ∀ a u b v, post a u b v → Together (next a) u (next' b) v post') :
    Together (step >>= next) s (step' >>= next') t post' := by
  rcases h with ⟨a, u, b, v, hrun, hrun', hpost⟩ | ⟨e, u, f, v, hrun, hrun', hef⟩
  · rcases hnext a u b v hpost with ⟨c, u', d, v', hc, hd, hpost'⟩ | ⟨e, u', f, v', he, hf, hef⟩
    · exact .inl ⟨c, u', d, v', bind_eq_ok_iff.mpr ⟨a, u, hrun, hc⟩,
        bind_eq_ok_iff.mpr ⟨b, v, hrun', hd⟩, hpost'⟩
    · exact .inr ⟨e, u', f, v', bind_eq_error_iff.mpr (.inr ⟨a, u, hrun, he⟩),
        bind_eq_error_iff.mpr (.inr ⟨b, v, hrun', hf⟩), hef⟩
  · exact .inr ⟨e, u, f, v, bind_eq_error_iff.mpr (.inl hrun), bind_eq_error_iff.mpr (.inl hrun'),
      hef⟩

/-- Two runs that begin by looking at their states. -/
theorem Together.get_bind {next : σ → Step σ α} {next' : τ → Step τ β}
    (h : Together (next s) s (next' t) t post) :
    Together (get >>= next) s (get >>= next') t post :=
  h

theorem Together.set_bind {u : σ} {v : τ} {next : PUnit → Step σ α} {next' : PUnit → Step τ β}
    (h : Together (next ⟨⟩) u (next' ⟨⟩) v post) :
    Together (set u >>= next) s (set v >>= next') t post :=
  h

/-- What two runs on parts of the states do to the whole states. -/
theorem Together.on {part : σ → σ'} {replace : σ → σ' → σ} {part' : τ → τ'}
    {replace' : τ → τ' → τ} {step : Step σ' α} {step' : Step τ' β}
    (h : Together step (part s) step' (part' t) fun a u b v =>
      post a (replace s u) b (replace' t v)) :
    Together (on part replace step) s (on part' replace' step') t post := by
  rcases h with ⟨a, u, b, v, hrun, hrun', hpost⟩ | ⟨e, u, f, v, hrun, hrun', hef⟩
  · exact .inl ⟨a, _, b, _, on_eq_ok_iff.mpr ⟨u, hrun, rfl⟩, on_eq_ok_iff.mpr ⟨v, hrun', rfl⟩,
      hpost⟩
  · exact .inr ⟨e, _, f, _, on_eq_error_iff.mpr ⟨u, hrun, rfl⟩,
      on_eq_error_iff.mpr ⟨v, hrun', rfl⟩, hef⟩

theorem Together.discard {post : PUnit → σ → PUnit → τ → Prop}
    (h : Together step s step' t fun _ u _ v => post ⟨⟩ u ⟨⟩ v) :
    Together (discard step) s (discard step') t post := by
  rcases h with ⟨a, u, b, v, hrun, hrun', hpost⟩ | ⟨e, u, f, v, hrun, hrun', hef⟩
  · exact .inl ⟨⟨⟩, u, ⟨⟩, v, discard_eq_ok_iff.mpr ⟨a, hrun⟩, discard_eq_ok_iff.mpr ⟨b, hrun'⟩,
      hpost⟩
  · exact .inr ⟨e, u, f, v, discard_eq_error_iff.mpr hrun, discard_eq_error_iff.mpr hrun', hef⟩

/-- Two guards with one condition. -/
theorem Together.guard {c c' : Prop} [Decidable c] [Decidable c'] {e f : WireError}
    {next : PUnit → Step σ α} {next' : PUnit → Step τ β} (hc : c ↔ c') (hef : e.kind = f.kind)
    (hnext : ¬ c → Together (next ⟨⟩) s (next' ⟨⟩) t post) :
    Together (if c then (MonadExcept.throw e : Step σ PUnit) >>= next else next ⟨⟩) s
      (if c' then (MonadExcept.throw f : Step τ PUnit) >>= next' else next' ⟨⟩) t post := by
  by_cases h : c
  · rw [if_pos h, if_pos (hc.mp h)]
    exact .inr ⟨e, s, f, t, bind_eq_error_iff.mpr (.inl rfl), bind_eq_error_iff.mpr (.inl rfl), hef⟩
  · rw [if_neg h, if_neg (mt hc.mpr h)]
    exact hnext h

/-! ## Repeated steps -/

variable {R : β → δ → Prop} {inv : σ → τ → Prop}

/-- Runs over the same items, between which the states belong together. -/
theorem Together.each {step : α → Step σ β} {step' : α → Step τ δ} {items : List α}
    (hitem : ∀ a ∈ items, ∀ s t, inv s t →
      Together (step a) s (step' a) t fun b u d v => R b d ∧ inv u v)
    (h : inv s t) :
    Together (each step items) s (each step' items) t fun bs u ds v =>
      List.Forall₂ R bs ds ∧ inv u v := by
  induction items generalizing s t with
  | nil => exact .pure ⟨.nil, h⟩
  | cons a rest ih =>
    obtain ⟨ha, hrest⟩ := List.forall_mem_cons.mp hitem
    refine (ha s t h).bind fun b u d v hfirst => ?_
    refine (ih hrest hfirst.2).bind fun bs u' ds v' hothers => ?_
    exact .pure ⟨.cons hfirst.1 hothers.1, hothers.2⟩

theorem Together.times {step : Step σ β} {step' : Step τ δ} (count : Nat)
    (hstep : ∀ s t, inv s t → Together step s step' t fun b u d v => R b d ∧ inv u v)
    (h : inv s t) :
    Together (times step count) s (times step' count) t fun bs u ds v =>
      List.Forall₂ R bs ds ∧ inv u v := by
  rw [times_eq_each (fun _ : Unit => step) (), times_eq_each (fun _ : Unit => step') ()]
  exact .each (fun _ _ => hstep) h

/-- Runs over the same items; what belongs together between them may depend on the items to come. -/
theorem Together.forM (state : List α → σ → τ → Prop) {step : α → Step σ PUnit}
    {step' : α → Step τ PUnit} {items : List α}
    (hstep : ∀ a rest s t, state (a :: rest) s t →
      Together (step a) s (step' a) t fun _ u _ v => state rest u v)
    (h : state items s t) :
    Together (items.forM step) s (items.forM step') t fun _ u _ v => state [] u v := by
  induction items generalizing s t with
  | nil => exact .pure h
  | cons a rest ih => exact (hstep a rest s t h).bind fun _ u _ v huv => ih huv

/-! ## Steps that do not see everything -/

/-- From states that belong together the step has one outcome, and if it succeeds the states that it
leads to belong together. -/
def Blind (rel : σ → σ → Prop) (step : Step σ α) : Prop :=
  ∀ s t, rel s t → (∃ a u v, step s = .ok a u ∧ step t = .ok a v ∧ rel u v) ∨
    ∃ e u v, step s = .error e u ∧ step t = .error e v

section

variable {rel : σ → σ → Prop} {rel' : τ → τ → Prop}

theorem Blind.outcome_eq {step : Step σ α} {s t : σ} (h : Blind rel step) (hst : rel s t) :
    outcome step s = outcome step t := by
  rcases h s t hst with ⟨a, u, v, hs, ht, -⟩ | ⟨e, u, v, hs, ht⟩
  · rw [outcome, hs, outcome, ht]
  · rw [outcome, hs, outcome, ht]

theorem Blind.pure (a : α) : Blind rel (pure a : Step σ α) :=
  fun s t h => .inl ⟨a, s, t, rfl, rfl, h⟩

theorem Blind.throw (e : WireError) : Blind rel (throw e : Step σ α) :=
  fun s t _ => .inr ⟨e, s, t, rfl, rfl⟩

theorem Blind.ofExcept (x : Except WireError α) : Blind rel (ofExcept x : Step σ α) := by
  cases x with
  | ok a => exact .pure a
  | error e => exact .throw e

theorem Blind.modify {g : σ → σ} (hg : ∀ s t, rel s t → rel (g s) (g t)) :
    Blind rel (modify g : Step σ PUnit) :=
  fun s t h => .inl ⟨⟨⟩, g s, g t, rfl, rfl, hg s t h⟩

theorem Blind.bind {step : Step σ α} {next : α → Step σ β} (hstep : Blind rel step)
    (hnext : ∀ a, Blind rel (next a)) : Blind rel (step >>= next) := by
  intro s t h
  rcases hstep s t h with ⟨a, u, v, hs, ht, huv⟩ | ⟨e, u, v, hs, ht⟩
  · rcases hnext a u v huv with ⟨b, u', v', hs', ht', huv'⟩ | ⟨e, u', v', hs', ht'⟩
    · exact .inl ⟨b, u', v', bind_eq_ok_iff.mpr ⟨a, u, hs, hs'⟩,
        bind_eq_ok_iff.mpr ⟨a, v, ht, ht'⟩, huv'⟩
    · exact .inr ⟨e, u', v', bind_eq_error_iff.mpr (.inr ⟨a, u, hs, hs'⟩),
        bind_eq_error_iff.mpr (.inr ⟨a, v, ht, ht'⟩)⟩
  · exact .inr ⟨e, u, v, bind_eq_error_iff.mpr (.inl hs), bind_eq_error_iff.mpr (.inl ht)⟩

/-- A step that begins by looking at the state, and goes on alike where states belong together. -/
theorem Blind.get_bind {next : σ → Step σ α} (hsame : ∀ s t, rel s t → next s = next t)
    (hnext : ∀ s, Blind rel (next s)) : Blind rel (get >>= next) := by
  intro s t h
  show (∃ a u v, next s s = .ok a u ∧ next t t = .ok a v ∧ rel u v) ∨
    ∃ e u v, next s s = .error e u ∧ next t t = .error e v
  rw [hsame s t h]
  exact hnext t s t h

theorem Blind.on {part : σ → τ} {replace : σ → τ → σ} {step : Step τ α} (h : Blind rel' step)
    (hpart : ∀ s t, rel s t → rel' (part s) (part t))
    (hreplace : ∀ s t u v, rel s t → rel' u v → rel (replace s u) (replace t v)) :
    Blind rel (on part replace step) := by
  intro s t hst
  rcases h (part s) (part t) (hpart s t hst) with ⟨a, u, v, hs, ht, huv⟩ | ⟨e, u, v, hs, ht⟩
  · exact .inl ⟨a, _, _, on_eq_ok_iff.mpr ⟨u, hs, rfl⟩, on_eq_ok_iff.mpr ⟨v, ht, rfl⟩,
      hreplace s t u v hst huv⟩
  · exact .inr ⟨e, _, _, on_eq_error_iff.mpr ⟨u, hs, rfl⟩, on_eq_error_iff.mpr ⟨v, ht, rfl⟩⟩

theorem Blind.guard {c : Prop} [Decidable c] {e : WireError} {next : PUnit → Step σ α}
    (hnext : Blind rel (next ⟨⟩)) :
    Blind rel (if c then (MonadExcept.throw e : Step σ PUnit) >>= next else next ⟨⟩) := by
  by_cases hc : c
  · rw [if_pos hc]
    exact .throw e
  · rw [if_neg hc]
    exact hnext

theorem Blind.each {step : α → Step σ β} {items : List α}
    (hstep : ∀ a ∈ items, Blind rel (step a)) : Blind rel (each step items) := by
  induction items with
  | nil => exact .pure _
  | cons a rest ih =>
    refine .bind (hstep a List.mem_cons_self) fun b => .bind (ih fun c hc => ?_) fun bs => .pure _
    exact hstep c (List.mem_cons_of_mem _ hc)

end

/-! ## Steps that go on elsewhere as they did -/

/-- What the step returns from one state, it returns from every state that belongs to it, and the
states that it leads to belong together, unless it is refused there. -/
def Tracks (rel : σ → σ → Prop) (refusal : WireError → Prop) (step : Step σ α) : Prop :=
  ∀ s t, rel s t → ∀ a u, step s = .ok a u → Yields step t (fun b v => b = a ∧ rel u v) refusal

section

variable {rel : σ → σ → Prop} {rel' : τ → τ → Prop} {refusal : WireError → Prop}

theorem Tracks.pure (a : α) : Tracks rel refusal (pure a : Step σ α) := by
  intro s t h b u hrun
  obtain ⟨rfl, rfl⟩ := pure_eq_ok_iff.mp hrun
  exact .inl ⟨_, t, rfl, rfl, h⟩

theorem Tracks.throw (e : WireError) : Tracks rel refusal (throw e : Step σ α) :=
  fun _ _ _ _ _ hrun => absurd hrun throw_ne_ok

theorem Tracks.modify {g : σ → σ} (hg : ∀ s t, rel s t → rel (g s) (g t)) :
    Tracks rel refusal (modify g : Step σ PUnit) := by
  intro s t h x u hrun
  obtain rfl := modify_eq_ok_iff.mp hrun
  exact .inl ⟨x, g t, rfl, rfl, hg s t h⟩

theorem Tracks.bind {step : Step σ α} {next : α → Step σ β} (hstep : Tracks rel refusal step)
    (hnext : ∀ a, Tracks rel refusal (next a)) : Tracks rel refusal (step >>= next) := by
  intro s t h b u hrun
  obtain ⟨a, between, hfirst, hsecond⟩ := bind_eq_ok_iff.mp hrun
  refine (hstep s t h a between hfirst).bind ?_
  rintro _ v ⟨rfl, hbetween⟩
  exact hnext _ between v hbetween b u hsecond

/-- A step that looks at the state, which is another one on each side. -/
theorem Tracks.get_bind {next : σ → Step σ α}
    (hnext : ∀ s t, rel s t → ∀ a u, next s s = .ok a u →
      Yields (next t) t (fun b v => b = a ∧ rel u v) refusal) :
    Tracks rel refusal (get >>= next) := by
  intro s t h a u hrun
  obtain ⟨_, _, hget, hrun⟩ := bind_eq_ok_iff.mp hrun
  obtain ⟨rfl, rfl⟩ := get_eq_ok_iff.mp hget
  refine yields_get.bind ?_
  rintro _ _ ⟨rfl, rfl⟩
  exact hnext _ _ h a u hrun

/-- A step on a part of the state. -/
theorem Tracks.on {part : σ → τ} {replace : σ → τ → σ} {step : Step τ α}
    (h : Tracks rel' refusal step) (hpart : ∀ s t, rel s t → rel' (part s) (part t))
    (hreplace : ∀ s t u v, rel s t → rel' u v → rel (replace s u) (replace t v)) :
    Tracks rel refusal (on part replace step) := by
  intro s t hst a u hrun
  obtain ⟨u', hstep, rfl⟩ := on_eq_ok_iff.mp hrun
  rcases h _ _ (hpart s t hst) a u' hstep with ⟨b, v, hrun', rfl, huv⟩ | ⟨e, v, hrun', he⟩
  · exact .inl ⟨b, _, on_eq_ok_iff.mpr ⟨v, hrun', rfl⟩, rfl, hreplace s t u' v hst huv⟩
  · exact .inr ⟨e, _, on_eq_error_iff.mpr ⟨v, hrun', rfl⟩, he⟩

theorem Tracks.guard {c : Prop} [Decidable c] {e : WireError} {next : PUnit → Step σ α}
    (hnext : Tracks rel refusal (next ⟨⟩)) :
    Tracks rel refusal
      (if c then (MonadExcept.throw e : Step σ PUnit) >>= next else next ⟨⟩) := by
  intro s t h a u hrun
  obtain ⟨hc, hrun⟩ := guard_eq_ok_iff.mp hrun
  rw [if_neg hc]
  exact hnext s t h a u hrun

theorem Tracks.each {step : α → Step σ β} (hstep : ∀ a, Tracks rel refusal (step a))
    (items : List α) : Tracks rel refusal (each step items) := by
  induction items with
  | nil => exact .pure _
  | cons a rest ih => exact .bind (hstep a) fun _ => .bind ih fun _ => .pure _

theorem Tracks.times {step : Step σ α} (hstep : Tracks rel refusal step) (count : Nat) :
    Tracks rel refusal (times step count) := by
  rw [times_eq_each (fun _ : Unit => step) ()]
  exact .each (fun _ => hstep) _

end

end Step

end ObjectEnvelope
