import ObjectEnvelope.Graph.Matching
import ObjectEnvelope.Proofs.Graph.Grounded
import ObjectEnvelope.Proofs.Lists

/-!
# Steps of a match

What it takes for two values, and for two objects, to be matched. Matching goes through values the
same way whatever state it takes along (`matchValues_map`), so that the walk may be described
without the facts about pairings that it carries to see that it ends (`matchPair_eq_some_iff`).
-/

namespace ObjectEnvelope

/-- The second value is the first, but for its handles, which are linked to those of the first:
lists have as many items, and values without parts are equal. -/
inductive Value.Matches (link : Handle → Handle → Prop) : Value → Value → Prop
  | leaf {v w : Value} (hv : v.IsLeaf) (hsame : v.same w = true) : Matches link v w
  | list {xs ys : List Value} (h : List.Forall₂ (Matches link) xs ys) :
      Matches link (.list xs) (.list ys)
  | object {x y : Handle} (hlink : link x y) : Matches link (.object x) (.object y)

/-- The objects are of types with one digest, and have as many fields, which match. -/
structure Instance.Matches (link : Handle → Handle → Prop) (o o' : Instance) : Prop where
  digest : o.type.digest = o'.type.digest
  fields : List.Forall₂ (Value.Matches link) o.fields o'.fields

variable {link link' : Handle → Handle → Prop} {v w : Value} {o o' : Instance}

theorem Value.Matches.mono (hlink : ∀ x y, link x y → link' x y) (h : v.Matches link w) :
    v.Matches link' w := by
  induction v using Value.induct generalizing w with
  | list items ih =>
    cases h with
    | leaf hv => cases hv
    | list h => exact .list (forall₂_imp_mem h fun x hx y hxy => ih x hx hxy)
  | object x =>
    cases h with
    | leaf hv => cases hv
    | object h => exact .object (hlink _ _ h)
  | null | primitive | constant =>
    cases h with
    | leaf hv hsame => exact .leaf hv hsame

theorem Instance.Matches.mono (hlink : ∀ x y, link x y → link' x y) (h : o.Matches link o') :
    o.Matches link' o' :=
  ⟨h.digest, h.fields.imp fun _ _ hvw => hvw.mono hlink⟩

namespace ObjectGraph

/-! ## Matching values -/

section Values

variable {σ τ : Type} {hop : Handle → Handle → σ → Option σ}
  {hop' : Handle → Handle → τ → Option τ} {xs ys : List Value} {s s' : σ}

theorem matchValue_leaf (hv : v.IsLeaf) :
    matchValue hop v w s = if v.same w then some s else none := by
  cases hv <;> cases w <;> rfl

/-- Values match as leaves, as lists, or as objects. -/
theorem matchValue_eq_some_iff : matchValue hop v w s = some s' ↔
    (v.IsLeaf ∧ v.same w = true ∧ s = s') ∨
    (∃ xs ys, v = .list xs ∧ w = .list ys ∧ matchValues hop xs ys s = some s') ∨
    (∃ x y, v = .object x ∧ w = .object y ∧ hop x y s = some s') := by
  have hlist : ∀ items, ¬ (Value.list items).IsLeaf := fun _ h => by cases h
  have hobject : ∀ h, ¬ (Value.object h).IsLeaf := fun _ h => by cases h
  cases v with
  | null => simp [matchValue_leaf .null, Value.IsLeaf.null]
  | primitive p => simp [matchValue_leaf (.primitive p), Value.IsLeaf.primitive]
  | constant c => simp [matchValue_leaf (.constant c), Value.IsLeaf.constant]
  | list items => cases w <;> simp [matchValue, Value.same, hlist]
  | object x => cases w <;> simp [matchValue, Value.same, hobject]

theorem matchValues_nil_eq_some_iff :
    matchValues hop [] ys s = some s' ↔ ys = [] ∧ s = s' := by
  cases ys <;> simp [matchValues]

theorem matchValues_cons_eq_some_iff : matchValues hop (v :: xs) ys s = some s' ↔
    ∃ w rest, ys = w :: rest ∧ ∃ mid, matchValue hop v w s = some mid ∧
      matchValues hop xs rest mid = some s' := by
  cases ys <;> simp [matchValues, Option.bind_eq_some_iff]

/-- Matching goes the same way over other states, if objects are matched the same way. -/
theorem matchValue_map {f : σ → τ} (hhop : ∀ x y s, hop' x y (f s) = (hop x y s).map f) :
    matchValue hop' v w (f s) = (matchValue hop v w s).map f := by
  induction v using Value.induct generalizing w s with
  | null => simp [matchValue_leaf .null, apply_ite]
  | primitive p => simp [matchValue_leaf (.primitive p), apply_ite]
  | constant c => simp [matchValue_leaf (.constant c), apply_ite]
  | object x => cases w <;> simp [matchValue, Value.same, hhop]
  | list items ih =>
    cases w with
    | list others =>
      rw [matchValue, matchValue]
      induction items generalizing others s with
      | nil => cases others <;> simp [matchValues]
      | cons x xs ihxs =>
        obtain ⟨hx, hxs⟩ := List.forall_mem_cons.mp ih
        cases others with
        | nil => rfl
        | cons y ys =>
          rw [matchValues, matchValues, hx, Option.map_bind, Option.bind_map]
          exact Option.bind_congr fun mid _ => ihxs hxs ys
    | null | primitive | constant | object => simp [matchValue, Value.same]

theorem matchValues_map {f : σ → τ} (hhop : ∀ x y s, hop' x y (f s) = (hop x y s).map f)
    (xs ys : List Value) (s : σ) :
    matchValues hop' xs ys (f s) = (matchValues hop xs ys s).map f := by
  simpa only [matchValue] using matchValue_map (v := .list xs) (w := .list ys) hhop

end Values

end ObjectGraph

/-! ## Pairings -/

namespace Pairing

variable {p q r : Pairing} {x y x' y' : Handle}

/-- The two objects are partners. -/
def Linked (p : Pairing) (x y : Handle) : Prop :=
  (x, y) ∈ p.pairs

/-- Nobody has two partners. -/
def OneToOne (p : Pairing) : Prop :=
  ∀ x y x' y', p.Linked x y → p.Linked x' y' → (x = x' ↔ y = y')

theorem Linked.extends (h : p.Linked x y) (hpq : p.Extends q) : q.Linked x y :=
  List.IsSuffix.subset hpq h

theorem linked_add_iff : (p.add x y).Linked x' y' ↔ (x' = x ∧ y' = y) ∨ p.Linked x' y' := by
  simp [Linked, add]

theorem linked_of_right? (h : p.right? x = some y) : p.Linked x y := by
  obtain ⟨⟨x', y'⟩, hfind, rfl⟩ := Option.map_eq_some_iff.mp h
  obtain rfl : x' = x := by simpa using List.find?_some hfind
  exact List.mem_of_find?_eq_some hfind

theorem linked_of_left? (h : p.left? y = some x) : p.Linked x y := by
  obtain ⟨⟨x', y'⟩, hfind, rfl⟩ := Option.map_eq_some_iff.mp h
  obtain rfl : y' = y := by simpa using List.find?_some hfind
  exact List.mem_of_find?_eq_some hfind

theorem not_linked_of_right? (h : p.right? x = none) (y : Handle) : ¬ p.Linked x y :=
  fun hxy => right?_eq_none_iff.mp h _ hxy rfl

theorem not_linked_of_left? (h : p.left? y = none) (x : Handle) : ¬ p.Linked x y := by
  intro hxy
  rw [left?, Option.map_eq_none_iff, List.find?_eq_none] at h
  exact h _ hxy (beq_self_eq_true y)

/-- The partners are the images under a function. -/
theorem OneToOne.exists_image (h : p.OneToOne) :
    ∃ image : Handle → Handle, ∀ x y, p.Linked x y → image x = y := by
  refine ⟨fun x => (p.right? x).getD x, fun x y hxy => ?_⟩
  obtain ⟨y', hx⟩ : ∃ y', p.right? x = some y' :=
    Option.ne_none_iff_exists'.mp fun hx => not_linked_of_right? hx y hxy
  have hy : y' = y := (h x y' x y (linked_of_right? hx) hxy).mp rfl
  simp [hx, hy]

/-- Objects without partners may become partners. -/
theorem OneToOne.add (h : p.OneToOne) (hx : p.right? x = none) (hy : p.left? y = none) :
    (p.add x y).OneToOne := by
  intro a b a' b' hab hab'
  rw [linked_add_iff] at hab hab'
  rcases hab with ⟨rfl, rfl⟩ | hab <;> rcases hab' with ⟨rfl, rfl⟩ | hab'
  · simp
  · constructor
    · rintro rfl
      exact absurd hab' (not_linked_of_right? hx _)
    · rintro rfl
      exact absurd hab' (not_linked_of_left? hy _)
  · constructor
    · rintro rfl
      exact absurd hab (not_linked_of_right? hx _)
    · rintro rfl
      exact absurd hab (not_linked_of_left? hy _)
  · exact h _ _ _ _ hab hab'

end Pairing

/-! ## Matching objects -/

namespace ObjectGraph

variable {left right : ObjectGraph} {p q : Pairing} {x y : Handle}

/-- Objects match when they are partners already, or when neither has a partner and, once they are
partners, their fields match. -/
theorem matchPair_eq_some_iff : matchPair left right x y p = some q ↔
    (p.right? x = some y ∧ p.left? y = some x ∧ p = q) ∨
    (p.right? x = none ∧ p.left? y = none ∧ ∃ o o', left.get? x = some o ∧
      right.get? y = some o' ∧ o.type.digest = o'.type.digest ∧
      matchValues (matchPair left right) o.fields o'.fields (p.add x y) = some q) := by
  rw [matchPair, matchObject]
  split
  · next y' x' hx hy => simp [hx, hy, and_assoc]
  · next hx hy =>
    split
    · next o o' ho ho' =>
      -- within, pairings come with the fact that they extend the one with the new pair
      have hhop : ∀ x' y' (q : (p.add x y).Extension), matchPair left right x' y' q.1 =
          Option.map Subtype.val ((matchObject left right x' y' q.1).map fun r =>
            (⟨r.1, q.2.trans r.2⟩ : (p.add x y).Extension)) := by
        intro x' y' q
        simp [matchPair, Function.comp_def]
      have hfields := fun xs ys => matchValues_map hhop xs ys ⟨p.add x y, .refl _⟩
      by_cases hdigest : o.type.digest = o'.type.digest
      · simp [hx, hy, ho, ho', hdigest, hfields, Function.comp_def]
      · simp [hx, hy, ho, ho', hdigest]
    · next hnone =>
      simp only [Option.map_none, reduceCtorEq, hx, hy, true_and, false_and, false_or, false_iff]
      rintro ⟨o, o', ho, ho', -⟩
      exact hnone o o' ho ho'
  · next hsome hnone =>
    simp only [Option.map_none, reduceCtorEq, false_iff]
    rintro (⟨hx, hy, -⟩ | ⟨hx, hy, -⟩)
    · exact hsome y x hx hy
    · exact hnone hx hy

end ObjectGraph

end ObjectEnvelope
