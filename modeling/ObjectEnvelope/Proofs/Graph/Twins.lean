import ObjectEnvelope.Proofs.Graph.Copies
import ObjectEnvelope.Proofs.TwoRuns

/-!
# Twin graphs

Two graphs are twins when each handle names copies in the two, or nothing in either. Every check
ends alike in twin graphs, and so does every addition (`Twins.instantiate`), since types that are
twins have the same slots and stand in the same places.
-/

namespace ObjectEnvelope

open Outcome (Together)

/-- The second value is the first, handle by handle, up to twin types. -/
abbrev Value.Twin (v w : Value) : Prop :=
  v.Copies (· = ·) w

/-- The second object is the first, handle by handle, up to twin types. -/
abbrev Instance.Twin (o copy : Instance) : Prop :=
  o.Copies (· = ·) copy

namespace ObjectGraph

/-- Each handle names the same object in both graphs, up to twin types. -/
def Twins (g copy : ObjectGraph) : Prop :=
  ∀ h, Option.Rel Instance.Twin (g.get? h) (copy.get? h)

variable {g copy : ObjectGraph} {v w : Value} {o o' : Instance} {t u : RuntimeType}

theorem twins_empty : Twins empty empty :=
  fun _ => .none

theorem Twins.isSome (h : g.Twins copy) (k : Handle) :
    (g.get? k).isSome = (copy.get? k).isSome := by
  have hk := h k
  generalize g.get? k = a, copy.get? k = b at hk
  cases hk <;> rfl

theorem Twins.size (h : g.Twins copy) : g.size = copy.size := by
  have hlt : ∀ i, i < g.size ↔ i < copy.size := by
    intro i
    have hi := h.isSome ⟨i⟩
    rw [← get?_isSome_iff (g := g) (h := ⟨i⟩), ← get?_isSome_iff (g := copy) (h := ⟨i⟩), hi]
  exact Nat.le_antisymm (Nat.le_of_not_lt fun h => Nat.lt_irrefl _ ((hlt _).mp h))
    (Nat.le_of_not_lt fun h => Nat.lt_irrefl _ ((hlt _).mpr h))

theorem Twins.push (h : g.Twins copy) (ho : o.Twin o') :
    Twins ⟨g.objects.push o⟩ ⟨copy.objects.push o'⟩ := by
  intro k
  rw [get?_push, get?_push, h.size]
  split
  · exact .some ho
  · exact h k

/-! ## Checks -/

theorem together_require {fits fits' : Bool} {declared declared' : ValueType}
    (hfits : fits = fits') :
    Together (g.require fits declared v) (copy.require fits' declared' w) fun _ _ => True := by
  subst hfits
  cases fits
  · exact .error rfl
  · exact .ok trivial

theorem Twins.checkObject (h : g.Twins copy) (declared : ValueType) (k : Handle) :
    Together (g.checkObject declared k) (copy.checkObject declared k) fun _ _ => True := by
  unfold ObjectGraph.checkObject
  have hk := h k
  generalize g.get? k = a, copy.get? k = b at hk
  cases hk with
  | none => exact .error rfl
  | some ho => exact together_require (ho.type.accepts declared)

theorem Twins.checkValue (h : g.Twins copy) (declared : ValueType) (hv : v.Twin w) :
    Together (g.checkValue declared v) (copy.checkValue declared w) fun _ _ => True := by
  induction declared generalizing v w with
  | primitive kind =>
    cases hv <;> exact together_require rfl
  | reference name =>
    cases hv with
    | constant htype => exact together_require (htype.accepts (.reference name))
    | object hk =>
      subst hk
      exact h.checkObject _ _
    | _ => exact together_require rfl
  | list element ih =>
    cases hv with
    | list hitems => exact .forM hitems fun _ _ _ hab => ih hab
    | _ => exact together_require rfl
  | any =>
    cases hv with
    | object hk =>
      subst hk
      exact h.checkObject _ _
    | null => exact together_require rfl
    | _ => exact .ok trivial

theorem Twins.checkSlot (h : g.Twins copy) (owner owner' : String) (slot : Field) (hv : v.Twin w) :
    Together (g.checkSlot owner slot v) (copy.checkSlot owner' slot w) fun _ _ => True := by
  have hnull : v.isNull = w.isNull := by cases hv <;> rfl
  unfold ObjectGraph.checkSlot
  rw [hnull]
  split
  · split
    · exact .ok trivial
    · exact .error rfl
  · exact h.checkValue _ hv

theorem Twins.checkSlots (h : g.Twins copy) (ht : t.Twin u) {vs ws : List Value}
    (hvs : List.Forall₂ Value.Twin vs ws) :
    Together (g.checkSlots t vs) (copy.checkSlots u ws) fun _ _ => True := by
  have hpairs : List.Forall₂ (fun a b : Field × Value => a.1 = b.1 ∧ a.2.Twin b.2)
      (t.slots.zip vs) (u.slots.zip ws) := by
    rw [ht.slots]
    generalize u.slots = slots
    induction hvs generalizing slots with
    | nil => simp
    | cons hvw _ ih =>
      cases slots with
      | nil => exact .nil
      | cons slot rest => exact .cons ⟨rfl, hvw⟩ (ih rest)
  refine .forM hpairs ?_
  rintro ⟨slot, v⟩ - ⟨_, w⟩ ⟨rfl, hvw⟩
  exact h.checkSlot t.name u.name slot hvw

/-- **Additions.** An object is added to both graphs under one handle, or to neither. -/
theorem Twins.instantiate (h : g.Twins copy) (ht : t.Twin u) {vs ws : List Value}
    (hvs : List.Forall₂ Value.Twin vs ws) :
    Together (g.instantiate t vs) (copy.instantiate u ws) fun added added' =>
      added.1 = added'.1 ∧ added.2.Twins added'.2 := by
  have hinstantiable : t.isInstantiable = u.isInstantiable := by
    rw [RuntimeType.isInstantiable, RuntimeType.isInstantiable, ht.kind]
  unfold ObjectGraph.instantiate
  rw [hinstantiable, hvs.length_eq, ht.slots, h.size]
  refine .guard .rfl rfl fun _ => ?_
  refine .guard .rfl rfl fun _ => ?_
  refine (h.checkSlots ht hvs).bind fun _ _ _ => ?_
  refine .guard .rfl rfl fun _ => ?_
  exact .ok ⟨rfl, h.push ⟨ht, hvs⟩⟩

end ObjectGraph

end ObjectEnvelope
