import Mathlib.Data.List.GetD
import Mathlib.Data.List.NodupEquivFin
import ObjectEnvelope.Proofs.Graph.Copies

/-!
# Covers of graphs

Where objects of inline types are written anew at each place, what is read is no copy of what was
written but a cover of it: `ObjectGraph.IsCover`. Every object of the cover lies over the one that
it was made of. Over an object of another type there is a single one, shared as before; over one of
an inline type there are as many as there were places on the way from the root, and each of them
has one place. A mirror is a cover when the objects of the other types were made once
(`Mirrors.isCover`).
-/

namespace ObjectEnvelope

namespace ObjectGraph

variable {g cover : ObjectGraph} {root : Value} {w : Value} {origin : List Handle}

/-! ## References -/

/-- The handles in the objects of the graph, with one occurrence for each place. -/
def references (g : ObjectGraph) : List Handle :=
  g.objects.toList.flatMap fun o => Value.handlesOfAll o.fields

/-- The number of places that refer to an object: in slots, in lists and at the root. -/
def placesOf (g : ObjectGraph) (root : Value) (h : Handle) : Nat :=
  (g.references ++ root.handles).count h

theorem references_push (g : ObjectGraph) (o : Instance) :
    (ObjectGraph.mk (g.objects.push o)).references =
      g.references ++ Value.handlesOfAll o.fields := by
  unfold references
  rw [Array.toList_push, List.flatMap_append, List.flatMap_singleton]

/-! ## Objects over objects -/

/-- The object with the second handle lies over that with the first. -/
def Over (cover : ObjectGraph) (origin : Handle → Handle) (h k : Handle) : Prop :=
  (cover.get? k).isSome ∧ origin k = h

/-- The objects of the second graph lie over those that the root leads to, the second root over the
first, and each object holds what the one below it holds. Objects of types that are not inline lie
over different objects; those of inline types are referred to from one place. -/
structure IsCover (isInline : String → Bool) (g : ObjectGraph) (root : Value) (cover : ObjectGraph)
    (coverRoot : Value) (origin : Handle → Handle) : Prop where
  maps : Set.MapsTo origin {k | (cover.get? k).isSome} {h | g.Reaches root (.object h)}
  onto : Set.SurjOn origin {k | (cover.get? k).isSome} {h | g.Reaches root (.object h)}
  root_copies : root.Copies (cover.Over origin) coverRoot
  object_copies : ∀ k o, cover.get? k = some o →
    ∃ below, g.get? (origin k) = some below ∧ below.Copies (cover.Over origin) o
  shared : Set.InjOn origin {k | ∃ o, cover.get? k = some o ∧ isInline o.type.name = false}
  copied : ∀ k o, cover.get? k = some o → isInline o.type.name = true →
    cover.placesOf coverRoot k = 1

/-- What occurs once at most in a list has one position there. -/
theorem eq_of_getElem?_of_count_le {h : Handle} (hcount : origin.count h ≤ 1) {i j : Nat}
    (hi : origin[i]? = some h) (hj : origin[j]? = some h) : i = j := by
  have hnot : ∀ m n : Nat, m < n → origin[m]? = some h → origin[n]? ≠ some h := by
    intro m n hlt hm hn
    obtain ⟨hm', hgetm⟩ := List.getElem?_eq_some_iff.mp hm
    obtain ⟨hn', hgetn⟩ := List.getElem?_eq_some_iff.mp hn
    have htwice : List.Duplicate h origin :=
      List.duplicate_iff_exists_distinct_get.mpr ⟨⟨m, hm'⟩, ⟨n, hn'⟩, hlt, hgetm.symm, hgetn.symm⟩
    exact absurd (List.duplicate_iff_two_le_count.mp htwice) (by omega)
  rcases Nat.lt_trichotomy i j with hlt | heq | hlt
  · exact absurd hj (hnot i j hlt hi)
  · exact heq
  · exact absurd hi (hnot j i hlt hj)

/-- A mirror of the objects that are met is a cover, if those whose types are not inline were made
once and the others have one place. -/
theorem Mirrors.isCover {isInline : String → Bool} (hmirrors : g.Mirrors origin cover)
    (hreached : ∀ h ∈ origin, g.Reaches root (.object h)) (hroot : root.Copies (Linked origin) w)
    (hshared : ∀ h o, g.get? h = some o → isInline o.type.name = false → origin.count h ≤ 1)
    (hcopied : ∀ k o, cover.get? k = some o → isInline o.type.name = true →
      cover.placesOf w k = 1) :
    g.IsCover isInline root cover w fun k => origin.getD k.index k := by
  have hover : ∀ h k, Linked origin h k → cover.Over (fun k => origin.getD k.index k) h k := by
    intro h k hk
    obtain ⟨hlt, rfl⟩ := List.getElem?_eq_some_iff.mp hk
    exact ⟨get?_isSome_iff.mpr (hmirrors.size ▸ hlt), List.getD_eq_getElem _ _ hlt⟩
  have hlinked : ∀ k, (cover.get? k).isSome → Linked origin (origin.getD k.index k) k := by
    intro k hk
    have hlt : k.index < origin.length := hmirrors.size ▸ get?_isSome_iff.mp hk
    rw [List.getD_eq_getElem _ _ hlt]
    exact List.getElem?_eq_getElem hlt
  have hbelow : ∀ k o, cover.get? k = some o → ∃ below,
      g.get? (origin.getD k.index k) = some below ∧ below.Copies (Linked origin) o := by
    intro k o hget
    obtain ⟨below, o', hbelow, hget', hcopies⟩ :=
      hmirrors.objects _ k (hlinked k (Option.isSome_iff_exists.mpr ⟨o, hget⟩))
    obtain rfl := Option.some_inj.mp (hget.symm.trans hget')
    exact ⟨below, hbelow, hcopies⟩
  refine ⟨fun k hk => ?_, fun h hreach => ?_, hroot.mono hover, fun k o hget => ?_, ?_, hcopied⟩
  · obtain ⟨hlt, hget⟩ := List.getElem?_eq_some_iff.mp (hlinked k hk)
    exact hreached _ (hget ▸ List.getElem_mem hlt)
  · obtain ⟨x, -, hcopy⟩ := hmirrors.exists_copy hreach hroot
    cases hcopy with
    | @object _ k hk =>
      obtain ⟨hsome, hbelow⟩ := hover _ _ hk
      exact ⟨k, hsome, hbelow⟩
  · obtain ⟨below, hget', hcopies⟩ := hbelow k o hget
    exact ⟨below, hget', hcopies.mono hover⟩
  · rintro k ⟨o, hget, hinline⟩ j ⟨p, hget', -⟩ heq
    obtain ⟨below, hgetbelow, hcopies⟩ := hbelow k o hget
    have hname : below.type.name = o.type.name := hcopies.type.alike.name
    have hcount := hshared _ below hgetbelow (hname ▸ hinline)
    have hk := hlinked k (Option.isSome_iff_exists.mpr ⟨o, hget⟩)
    have hj := hlinked j (Option.isSome_iff_exists.mpr ⟨p, hget'⟩)
    dsimp only at heq
    rw [← heq] at hj
    have hindex := eq_of_getElem?_of_count_le hcount hk hj
    cases k
    cases j
    exact congrArg Handle.mk hindex

end ObjectGraph

end ObjectEnvelope
