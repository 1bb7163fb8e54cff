import Mathlib.Data.Set.Card
import ObjectEnvelope.Proofs.Graph.Covers
import ObjectEnvelope.Proofs.Graph.Grounded

/-!
# Sizes of covers

Over an object of an inline type lie as many objects of a cover as there are places for it, at the
root and in the objects of the cover (`IsCover.countsPlaces`). Where no object is met inside itself
this settles the numbers one after the other, from the root down. So a list of handles that counts
places in the same way is no longer than any cover (`IsCover.length_le_size`).
-/

namespace ObjectEnvelope

/-- The handles in a copy are linked to those in the original, place by place. -/
theorem Value.Copies.handles {link : Handle → Handle → Prop} {v w : Value}
    (h : v.Copies link w) : List.Forall₂ link v.handles w.handles := by
  induction v using Value.induct generalizing w with
  | null =>
    cases h
    exact .nil
  | primitive p =>
    cases h
    exact .nil
  | constant c =>
    cases h
    exact .nil
  | object k =>
    cases h with
    | object hlink => exact .cons hlink .nil
  | list items ih =>
    cases h with
    | list hitems =>
      rw [Value.handles, Value.handles, handlesOfAll_eq_flatMap, handlesOfAll_eq_flatMap]
      exact forall₂_flatMap (forall₂_imp_mem hitems fun x hx y hxy => ih x hx hxy)

theorem Instance.Copies.handles {link : Handle → Handle → Prop} {o copy : Instance}
    (h : o.Copies link copy) :
    List.Forall₂ link (Value.handlesOfAll o.fields) (Value.handlesOfAll copy.fields) := by
  rw [Value.handlesOfAll_eq_flatMap, Value.handlesOfAll_eq_flatMap]
  exact forall₂_flatMap (h.fields.imp fun _ _ hvw => hvw.handles)

namespace ObjectGraph

variable {g cover : ObjectGraph} {root w : Value} {origin : Handle → Handle}
  {isInline : String → Bool} {made : List Handle}

/-- The list names each object of an inline type once for each place for it, in the values and in
the objects that the list names. -/
def CountsPlaces (g : ObjectGraph) (isInline : String → Bool) (values : List Value)
    (made : List Handle) : Prop :=
  ∀ h o, g.get? h = some o → isInline o.type.name = true →
    made.count h = (made.flatMap g.successors ++ Value.handlesOfAll values).count h

theorem countsPlaces_nil {values : List Value}
    (h : ∀ k ∈ Value.handlesOfAll values, ∀ o, g.get? k = some o → isInline o.type.name = false) :
    g.CountsPlaces isInline values [] := by
  intro k o hget hinline
  rw [List.flatMap_nil, List.nil_append, List.count_nil]
  refine (List.count_eq_zero.mpr fun hk => ?_).symm
  rw [h k hk o hget] at hinline
  cases hinline

theorem CountsPlaces.append {values rest : List Value} {made' : List Handle}
    (h : g.CountsPlaces isInline values made) (hrest : g.CountsPlaces isInline rest made') :
    g.CountsPlaces isInline (values ++ rest) (made ++ made') := by
  intro k o hget hinline
  have hmade := h k o hget hinline
  have hmade' := hrest k o hget hinline
  rw [List.flatMap_append, Value.handlesOfAll_append]
  simp only [List.count_append] at hmade hmade' ⊢
  omega

theorem CountsPlaces.list {items : List Value} (h : g.CountsPlaces isInline items made) :
    g.CountsPlaces isInline [.list items] made := by
  rw [CountsPlaces, Value.handlesOfAll_singleton]
  exact h

/-- An object is named behind what its fields need. -/
theorem CountsPlaces.object {h : Handle} {o : Instance} (hget : g.get? h = some o)
    (hfields : g.CountsPlaces isInline o.fields made) :
    g.CountsPlaces isInline [.object h] (made ++ [h]) := by
  intro k p hget' hinline
  have hmade := hfields k p hget' hinline
  rw [List.flatMap_append, List.flatMap_singleton, successors_eq hget,
    Value.handlesOfAll_singleton, Value.handles]
  simp only [List.count_append] at hmade ⊢
  omega

/-- The places in the objects, object by object. -/
theorem references_eq_flatMap (g : ObjectGraph) : g.references = g.handles.flatMap g.successors := by
  have hobjects : g.handles.map g.successors =
      g.objects.toList.map fun o => Value.handlesOfAll o.fields := by
    refine List.ext_getElem (by simp [handles, size]) fun i hi hi' => ?_
    rw [List.length_map, Array.length_toList] at hi'
    have hget : g.get? ⟨i⟩ = some g.objects[i] := Array.getElem?_eq_getElem hi'
    simpa [handles] using successors_eq hget
  rw [references, List.flatMap_def, List.flatMap_def, hobjects]

/-! ## Places in a cover -/

/-- What lies over handles, lies over the origins. -/
theorem eq_map_of_over {hs ks : List Handle} (h : List.Forall₂ (cover.Over origin) hs ks) :
    hs = ks.map origin ∧ ∀ k ∈ ks, (cover.get? k).isSome := by
  induction h with
  | nil => exact ⟨rfl, by simp⟩
  | cons hover _ ih =>
    obtain ⟨rfl, hsome⟩ := ih
    obtain ⟨hk, rfl⟩ := hover
    exact ⟨rfl, List.forall_mem_cons.mpr ⟨hk, hsome⟩⟩

/-- The places in a cover lie over the places in the objects below, counted for each object of the
cover. -/
theorem IsCover.places (h : g.IsCover isInline root cover w origin) :
    List.Forall₂ (cover.Over origin)
      ((cover.handles.map origin).flatMap g.successors ++ root.handles)
      (cover.references ++ w.handles) := by
  refine List.rel_append ?_ h.root_copies.handles
  rw [references_eq_flatMap, List.flatMap_map]
  refine forall₂_flatMap (List.forall₂_same.mpr fun k hk => ?_)
  obtain ⟨o, hget⟩ := Option.isSome_iff_exists.mp (get?_isSome_iff.mpr (mem_handles_iff.mp hk))
  obtain ⟨below, hbelow, hcopies⟩ := h.object_copies k o hget
  rw [successors_eq hget, successors_eq hbelow]
  exact hcopies.handles

/-- Over an object of an inline type, the objects of a cover and the places for them are the same
handles; what is no object has no place. -/
theorem IsCover.count_handles (h : g.IsCover isInline root cover w origin) {j : Handle}
    {o : Instance} (hget : g.get? (origin j) = some o) (hinline : isInline o.type.name = true) :
    cover.handles.count j = cover.placesOf w j := by
  cases hover : cover.get? j with
  | none =>
    have hnot : ¬ (cover.get? j).isSome := by simp [hover]
    have hplace : j ∉ cover.references ++ w.handles := fun hmem =>
      hnot ((eq_map_of_over h.places).2 j hmem)
    have hobject : j ∉ cover.handles := fun hmem =>
      hnot (get?_isSome_iff.mpr (mem_handles_iff.mp hmem))
    rw [placesOf, List.count_eq_zero.mpr hplace, List.count_eq_zero.mpr hobject]
  | some o' =>
    obtain ⟨below, hbelow, hcopies⟩ := h.object_copies j o' hover
    obtain rfl := Option.some_inj.mp (hget.symm.trans hbelow)
    have hname : o.type.name = o'.type.name := hcopies.type.alike.name
    rw [h.copied j o' hover (hname ▸ hinline)]
    exact List.count_eq_one_of_mem nodup_handles (mem_handles_iff.mpr (get?_eq_some_lt hover))

/-- Over an object of an inline type lie as many objects as there are places for it. -/
theorem IsCover.countsPlaces (h : g.IsCover isInline root cover w origin) :
    g.CountsPlaces isInline [root] (cover.handles.map origin) := by
  intro k o hget hinline
  have hcount : ∀ ks : List Handle, (ks.map origin).count k =
      (ks.filter fun j => origin j == k).length := by
    intro ks
    rw [List.count, List.countP_map, List.countP_eq_length_filter]
    rfl
  rw [Value.handlesOfAll_singleton, (eq_map_of_over h.places).1, hcount, hcount]
  refine (List.perm_iff_count.mpr fun j => ?_).length_eq
  by_cases hj : origin j = k
  · rw [List.count_filter (by simpa using hj), List.count_filter (by simpa using hj)]
    exact h.count_handles (hj ▸ hget) hinline
  · rw [List.count_eq_zero.mpr fun hmem => hj (by simpa using (List.mem_filter.mp hmem).2),
      List.count_eq_zero.mpr fun hmem => hj (by simpa using (List.mem_filter.mp hmem).2)]

/-! ## The smallest covers -/

/-- Fewer objects lead to an object than to those that it leads to. -/
theorem ncard_leadsTo_lt {j k : Handle} (hjk : g.LeadsTo j (.object k)) (hj : ¬ g.OnCycle j) :
    {i | g.LeadsTo i (.object j)}.ncard < {i | g.LeadsTo i (.object k)}.ncard := by
  have hfinite : {i | g.LeadsTo i (.object k)}.Finite := by
    refine (List.finite_toSet g.handles).subset fun i hi => ?_
    obtain ⟨o, hget, -⟩ := hi
    exact mem_handles_iff.mpr (get?_eq_some_lt hget)
  refine Set.ncard_lt_ncard ⟨fun i hi => hi.trans hjk.reaches, fun hsubset => ?_⟩ hfinite
  exact hj (hsubset hjk)

/-- A list that counts places names no object more often than a cover has objects over it. -/
theorem IsCover.count_le (h : g.IsCover isInline root cover w origin)
    (hacyclic : ∀ k, g.Reaches root (.object k) → ¬ g.OnCycle k)
    (hreached : ∀ k ∈ made, g.Reaches root (.object k))
    (hshared : ∀ k o, g.get? k = some o → isInline o.type.name = false → made.count k ≤ 1)
    (hplaces : g.CountsPlaces isInline [root] made) {k : Handle} (hk : k ∈ made) :
    made.count k ≤ (cover.handles.map origin).count k := by
  -- the induction is on the number of objects that lead to it
  induction hnumber : {i | g.LeadsTo i (.object k)}.ncard using Nat.strong_induction_on
    generalizing k with
  | _ number ih =>
    subst hnumber
    obtain ⟨j, hj, rfl⟩ := h.onto (hreached k hk)
    obtain ⟨o, hget⟩ := Option.isSome_iff_exists.mp hj
    obtain ⟨below, hbelow, -⟩ := h.object_copies j o hget
    cases hinline : isInline below.type.name with
    | false =>
      have hmem : origin j ∈ cover.handles.map origin :=
        List.mem_map_of_mem (mem_handles_iff.mpr (get?_isSome_iff.mp hj))
      exact (hshared _ below hbelow hinline).trans (List.one_le_count_iff.mpr hmem)
    | true =>
      rw [hplaces _ below hbelow hinline, h.countsPlaces _ below hbelow hinline,
        List.count_append, List.count_append]
      refine Nat.add_le_add_right (count_flatMap_le _ fun i hi hsucc => ?_) _
      have hleads := leadsTo_of_mem_successors hsucc
      exact ih _ (ncard_leadsTo_lt hleads (hacyclic i (hreached i hi))) hi rfl

/-- **The size of covers.** Where no object is met inside itself, a list of objects that a root
leads to, which names those of inline types once for each place and the others once, is no longer
than any cover of what the root leads to. -/
theorem IsCover.length_le_size (h : g.IsCover isInline root cover w origin)
    (hacyclic : ∀ k, g.Reaches root (.object k) → ¬ g.OnCycle k)
    (hreached : ∀ k ∈ made, g.Reaches root (.object k))
    (hshared : ∀ k o, g.get? k = some o → isInline o.type.name = false → made.count k ≤ 1)
    (hplaces : g.CountsPlaces isInline [root] made) : made.length ≤ cover.size := by
  have hsub : made.Subperm (cover.handles.map origin) :=
    List.subperm_ext_iff.mpr fun k hk => h.count_le hacyclic hreached hshared hplaces hk
  calc made.length ≤ (cover.handles.map origin).length := hsub.length_le
    _ = cover.size := by rw [List.length_map, length_handles]

end ObjectGraph

end ObjectEnvelope
