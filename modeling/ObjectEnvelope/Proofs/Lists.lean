import Mathlib.Data.List.Flatten
import Mathlib.Data.List.Forall2
import Mathlib.Data.List.Nodup
import Mathlib.Data.List.Perm.Subperm

/-!
# Lists in step

Partners in two lists of which each item of one belongs with the item of the other at its place, and
items that are found by their keys.
-/

namespace ObjectEnvelope

variable {α β : Type} {R S : α → β → Prop} {xs : List α} {ys : List β}

/-- What relates the items that two lists pair relates the lists. -/
theorem forall₂_imp_mem (h : List.Forall₂ R xs ys) (himp : ∀ x ∈ xs, ∀ y, R x y → S x y) :
    List.Forall₂ S xs ys := by
  induction h with
  | nil => exact .nil
  | cons hxy _ ih =>
    obtain ⟨hx, hrest⟩ := List.forall_mem_cons.mp himp
    exact .cons (hx _ hxy) (ih hrest)

/-- Each item of the first list has a partner. -/
theorem forall₂_exists_right (h : List.Forall₂ R xs ys) {x : α} (hx : x ∈ xs) :
    ∃ y ∈ ys, R x y := by
  induction h with
  | nil => cases hx
  | cons hxy _ ih =>
    rcases List.mem_cons.mp hx with rfl | hx
    · exact ⟨_, List.mem_cons_self, hxy⟩
    · obtain ⟨y, hy, hxy⟩ := ih hx
      exact ⟨y, List.mem_cons_of_mem _ hy, hxy⟩

/-- Each item of the second list has a partner. -/
theorem forall₂_exists_left (h : List.Forall₂ R xs ys) {y : β} (hy : y ∈ ys) :
    ∃ x ∈ xs, R x y :=
  forall₂_exists_right (R := Function.swap R) h.flip hy

/-- Lists behind partners are in step, one after the other. -/
theorem forall₂_flatMap {γ δ : Type} {P : γ → δ → Prop} {f : α → List γ} {f' : β → List δ}
    (h : List.Forall₂ (fun x y => List.Forall₂ P (f x) (f' y)) xs ys) :
    List.Forall₂ P (xs.flatMap f) (ys.flatMap f') :=
  List.rel_flatMap h fun _ _ => id

/-- What occurs often behind an item occurs as often for each occurrence of the item. -/
theorem mul_count_le_count_flatMap [BEq α] [LawfulBEq α] [BEq β] (xs : List α) (f : α → List β)
    (x : α) (y : β) : xs.count x * (f x).count y ≤ (xs.flatMap f).count y := by
  induction xs with
  | nil => simp
  | cons a rest ih =>
    rw [List.flatMap_cons, List.count_append, List.count_cons, Nat.add_mul]
    by_cases ha : a = x
    · subst ha
      rw [if_pos (beq_self_eq_true a)]
      omega
    · rw [if_neg (by simpa using ha)]
      omega

/-- Behind items that occur more often it occurs more often. -/
theorem count_flatMap_le [DecidableEq α] [DecidableEq β] {as bs : List α} (f : α → List β) {y : β}
    (h : ∀ a ∈ as, y ∈ f a → as.count a ≤ bs.count a) :
    (as.flatMap f).count y ≤ (bs.flatMap f).count y := by
  -- the items with nothing behind them count for nothing
  have hfilter : ∀ items : List α,
      (items.flatMap f).count y = ((items.filter (y ∈ f ·)).flatMap f).count y := by
    intro items
    induction items with
    | nil => rfl
    | cons a rest ih =>
      rw [List.flatMap_cons, List.count_append, ih, List.filter_cons]
      by_cases ha : y ∈ f a
      · rw [if_pos (by simpa using ha), List.flatMap_cons, List.count_append]
      · rw [if_neg (by simpa using ha), List.count_eq_zero.mpr ha, Nat.zero_add]
  have hsub : (as.filter (y ∈ f ·)).Subperm (bs.filter (y ∈ f ·)) := by
    refine List.subperm_ext_iff.mpr fun a ha => ?_
    obtain ⟨ha, hy⟩ := List.mem_filter.mp ha
    have hkept : ∀ items : List α, (items.filter (y ∈ f ·)).count a = items.count a :=
      fun items => List.count_filter hy
    rw [hkept, hkept]
    exact h a ha (by simpa using hy)
  obtain ⟨items, hperm, hsublist⟩ := hsub
  calc (as.flatMap f).count y
      = ((as.filter (y ∈ f ·)).flatMap f).count y := hfilter as
    _ = (items.flatMap f).count y := ((hperm.flatMap_right f).count_eq y).symm
    _ ≤ ((bs.filter (y ∈ f ·)).flatMap f).count y := (hsublist.flatMap f).count_le y
    _ = (bs.flatMap f).count y := (hfilter bs).symm

/-- Where no two items have one key, each is found by its key. -/
theorem find?_key_eq [BEq β] [LawfulBEq β] {key : α → β} (hkeys : (xs.map key).Nodup) {x : α}
    (hx : x ∈ xs) : xs.find? (key · == key x) = some x := by
  cases hfind : xs.find? (key · == key x) with
  | none => exact absurd (beq_self_eq_true (key x)) (List.find?_eq_none.mp hfind x hx)
  | some found =>
    have hkey : key found = key x := by simpa using List.find?_some hfind
    rw [List.inj_on_of_nodup_map hkeys (List.mem_of_find?_eq_some hfind) hx hkey]

end ObjectEnvelope
