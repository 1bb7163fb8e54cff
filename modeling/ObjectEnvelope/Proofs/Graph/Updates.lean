import ObjectEnvelope.Proofs.Graph.Fits

/-!
# Graphs that were built

`ObjectGraph.Built` are the graphs that additions and replacements lead to from the empty graph. In
each of them every object has as many values as its type has slots, and each value fits its slot in
the graph as it is now (`Built.wellFormed`): an update is checked, and objects keep their types.
-/

namespace ObjectEnvelope

namespace ObjectGraph

/-! ## What an update does -/

theorem instantiate_eq_ok_iff {g after : ObjectGraph} {type : RuntimeType} {values : List Value}
    {h : Handle} :
    g.instantiate type values = .ok (h, after) ↔
      type.isInstantiable = true ∧ values.length = type.slots.length ∧
        (∀ p ∈ type.slots.zip values, g.FitsSlot p.1 p.2) ∧ g.size < capacity ∧
        h = ⟨g.size⟩ ∧ after = ⟨g.objects.push ⟨type, values⟩⟩ := by
  simp only [instantiate, Outcome.guard_eq_ok_iff, Outcome.bind_eq_ok_iff, Outcome.pure_eq_ok_iff,
    Bool.not_eq_true', Bool.not_eq_false, ne_eq, Classical.not_not, Nat.not_le, Prod.mk.injEq]
  constructor
  · rintro ⟨htype, hlength, _, hslots, hsize, rfl, rfl⟩
    exact ⟨htype, hlength, checkSlots_eq_ok_iff.mp hslots, hsize, rfl, rfl⟩
  · rintro ⟨htype, hlength, hslots, hsize, rfl, rfl⟩
    exact ⟨htype, hlength, _, checkSlots_eq_ok_iff.mpr hslots, hsize, rfl, rfl⟩

/-- What passes all checks is refused where there is no room. -/
theorem instantiate_eq_error_of_full {g : ObjectGraph} {type : RuntimeType} {values : List Value}
    (htype : type.isInstantiable = true) (hlength : values.length = type.slots.length)
    (hslots : ∀ p ∈ type.slots.zip values, g.FitsSlot p.1 p.2) (hfull : capacity ≤ g.size) :
    g.instantiate type values = .error (.notSerializable .graphFull) := by
  unfold instantiate
  rw [if_neg (by simp [htype]), if_neg (by simp [hlength]), checkSlots_eq_ok_iff.mpr hslots]
  exact if_pos hfull

theorem slotCalled_eq_ok_iff {type : RuntimeType} {name : String} {index : Nat} :
    slotCalled type name = .ok index ↔ type.slotIndex? name = some index := by
  unfold slotCalled
  cases type.slotIndex? name <;> simp

theorem instantiateNamed_eq_ok_iff {g after : ObjectGraph} {type : RuntimeType}
    {named : List (String × Value)} {h : Handle} :
    g.instantiateNamed type named = .ok (h, after) ↔
      ∃ values, place type named (List.replicate type.slots.length .null) = .ok values ∧
        g.instantiate type values = .ok (h, after) := by
  simp only [instantiateNamed, Outcome.bind_eq_ok_iff]

/-- A position of a slot is the position of a slot with the name. -/
theorem getElem?_of_slotIndex? {type : RuntimeType} {name : String} {index : Nat}
    (h : type.slotIndex? name = some index) :
    ∃ slot, type.slots[index]? = some slot ∧ slot.name = name := by
  obtain ⟨hlt, hname, -⟩ := List.findIdx?_eq_some_iff_getElem.mp h
  exact ⟨_, List.getElem?_eq_getElem hlt, by simpa using hname⟩

theorem setField_eq_ok_iff {g after : ObjectGraph} {h : Handle} {name : String} {v : Value} :
    g.setField h name v = .ok after ↔
      ∃ o index slot, g.get? h = some o ∧ o.type.slotIndex? name = some index ∧
        o.type.slots[index]? = some slot ∧ g.FitsSlot slot v ∧
        after = ⟨g.objects.setIfInBounds h.index { o with fields := o.fields.set index v }⟩ := by
  unfold setField
  cases hget : g.get? h with
  | none => simp
  | some o =>
    simp only [Outcome.bind_eq_ok_iff, slotCalled_eq_ok_iff, Outcome.pure_eq_ok_iff]
    constructor
    · rintro ⟨index, hindex, _, hslot, rfl⟩
      obtain ⟨slot, hget', -⟩ := getElem?_of_slotIndex? hindex
      rw [hget'] at hslot
      exact ⟨o, index, slot, rfl, hindex, hget', checkSlot_eq_ok_iff.mp hslot, rfl⟩
    · rintro ⟨_, index, slot, ⟨rfl⟩, hindex, hget', hslot, rfl⟩
      refine ⟨index, hindex, ⟨⟩, ?_, rfl⟩
      rw [hget']
      exact checkSlot_eq_ok_iff.mpr hslot

/-! ## The objects afterwards -/

theorem get?_push {g : ObjectGraph} {o : Instance} {h : Handle} :
    (ObjectGraph.mk (g.objects.push o)).get? h =
      if h.index = g.size then some o else g.get? h := by
  unfold get? size
  rw [Array.getElem?_push]

theorem get?_eq_some_lt {g : ObjectGraph} {o : Instance} {h : Handle} (hget : g.get? h = some o) :
    h.index < g.size := by
  unfold get? at hget
  exact (Array.getElem?_eq_some_iff.mp hget).1

theorem get?_isSome_iff {g : ObjectGraph} {h : Handle} :
    (g.get? h).isSome = true ↔ h.index < g.size := by
  unfold get? size
  simp

/-- The handles of the objects, oldest first. -/
def handles (g : ObjectGraph) : List Handle :=
  (List.range g.size).map Handle.mk

theorem mem_handles_iff {g : ObjectGraph} {h : Handle} : h ∈ g.handles ↔ h.index < g.size := by
  unfold handles
  rw [List.mem_map]
  constructor
  · rintro ⟨index, hindex, rfl⟩
    exact List.mem_range.mp hindex
  · intro hlt
    exact ⟨h.index, List.mem_range.mpr hlt, rfl⟩

theorem length_handles (g : ObjectGraph) : g.handles.length = g.size := by
  rw [handles, List.length_map, List.length_range]

theorem handles_push (g : ObjectGraph) (o : Instance) :
    (ObjectGraph.mk (g.objects.push o)).handles = g.handles ++ [⟨g.size⟩] := by
  have hsize : (ObjectGraph.mk (g.objects.push o)).size = g.size + 1 := Array.size_push _
  rw [handles, hsize, List.range_succ, List.map_append]
  rfl

theorem extends_push (g : ObjectGraph) (o : Instance) :
    g.Extends ⟨g.objects.push o⟩ := by
  intro h o' hget
  have hlt := get?_eq_some_lt hget
  refine ⟨o', ?_, rfl⟩
  rw [get?_push, if_neg (by omega), hget]

theorem get?_set {g : ObjectGraph} {o : Instance} {h k : Handle} {o' : Instance}
    (hget : g.get? h = some o') :
    (ObjectGraph.mk (g.objects.setIfInBounds h.index o)).get? k =
      if k = h then some o else g.get? k := by
  have hlt := get?_eq_some_lt hget
  unfold size at hlt
  unfold get?
  rw [Array.getElem?_setIfInBounds]
  by_cases hk : k = h
  · subst hk
    simp [hlt]
  · have hindex : h.index ≠ k.index := fun heq => hk (by cases h; cases k; simp_all)
    rw [if_neg hindex, if_neg hk]

theorem extends_set {g : ObjectGraph} {o o' : Instance} {h : Handle} (hget : g.get? h = some o)
    (htype : o'.type = o.type) : g.Extends ⟨g.objects.setIfInBounds h.index o'⟩ := by
  intro k p hk
  rw [get?_set hget]
  by_cases heq : k = h
  · subst heq
    rw [hget] at hk
    cases hk
    exact ⟨o', by rw [if_pos rfl], htype⟩
  · exact ⟨p, by rw [if_neg heq, hk], rfl⟩

/-! ## Well-formed graphs -/

/-- The object has a value for each slot of its type, and each fits its slot. -/
structure FitsObject (g : ObjectGraph) (o : Instance) : Prop where
  composite : o.type.kind = .composite
  length_fields : o.fields.length = o.type.slots.length
  fits : ∀ p ∈ o.type.slots.zip o.fields, g.FitsSlot p.1 p.2

theorem FitsObject.mono {g after : ObjectGraph} (hafter : g.Extends after) {o : Instance}
    (h : g.FitsObject o) : after.FitsObject o :=
  ⟨h.composite, h.length_fields, fun p hp => (h.fits p hp).mono hafter⟩

/-- Every object fits its type, and handles suffice to name them all. -/
structure WellFormed (g : ObjectGraph) : Prop where
  object : ∀ h o, g.get? h = some o → g.FitsObject o
  size_le : g.size ≤ capacity

theorem wellFormed_empty : WellFormed empty where
  object := by
    intro h o hget
    simp [empty, get?] at hget
  size_le := by simp [empty, size]

theorem fitsObject_of_instantiate {g after : ObjectGraph} {type : RuntimeType}
    {values : List Value} {h : Handle} (hnew : g.instantiate type values = .ok (h, after)) :
    after.FitsObject ⟨type, values⟩ := by
  obtain ⟨htype, hlength, hslots, -, -, rfl⟩ := instantiate_eq_ok_iff.mp hnew
  refine ⟨?_, hlength, fun p hp => (hslots p hp).mono (extends_push g _)⟩
  simpa [RuntimeType.isInstantiable] using htype

theorem WellFormed.instantiate {g after : ObjectGraph} (hg : g.WellFormed) {type : RuntimeType}
    {values : List Value} {h : Handle} (hnew : g.instantiate type values = .ok (h, after)) :
    after.WellFormed := by
  have hobject := fitsObject_of_instantiate hnew
  obtain ⟨-, -, -, hsize, -, rfl⟩ := instantiate_eq_ok_iff.mp hnew
  refine ⟨fun k o hget => ?_, by simpa [size] using Nat.succ_le_of_lt hsize⟩
  rw [get?_push] at hget
  by_cases hk : k.index = g.size
  · rw [if_pos hk] at hget
    cases hget
    exact hobject
  · rw [if_neg hk] at hget
    exact (hg.object k o hget).mono (extends_push g _)

/-- The pairs of slots and values after one value is replaced. -/
theorem mem_zip_set {slots : List Field} {values : List Value} {index : Nat} {v : Value}
    {p : Field × Value} (h : p ∈ slots.zip (values.set index v)) :
    p ∈ slots.zip values ∨ (slots[index]? = some p.1 ∧ p.2 = v) := by
  obtain ⟨i, hi⟩ := List.mem_iff_getElem?.mp h
  obtain ⟨hslot, hvalue⟩ := List.getElem?_zip_eq_some.mp hi
  rw [List.getElem?_set] at hvalue
  by_cases hindex : index = i
  · rw [if_pos hindex] at hvalue
    split at hvalue
    · cases hvalue
      exact .inr ⟨hindex ▸ hslot, rfl⟩
    · cases hvalue
  · rw [if_neg hindex] at hvalue
    exact .inl (List.mem_iff_getElem?.mpr ⟨i, List.getElem?_zip_eq_some.mpr ⟨hslot, hvalue⟩⟩)

theorem WellFormed.setField {g after : ObjectGraph} (hg : g.WellFormed) {h : Handle}
    {name : String} {v : Value} (hset : g.setField h name v = .ok after) : after.WellFormed := by
  obtain ⟨o, index, slot, hget, -, hslot, hfits, rfl⟩ := setField_eq_ok_iff.mp hset
  have hextends : g.Extends
      ⟨g.objects.setIfInBounds h.index { o with fields := o.fields.set index v }⟩ :=
    extends_set hget rfl
  refine ⟨fun k p hk => ?_, by simpa [size] using hg.size_le⟩
  rw [get?_set hget] at hk
  by_cases heq : k = h
  · rw [if_pos heq] at hk
    cases hk
    have ho := hg.object h o hget
    refine ⟨ho.composite, by simpa using ho.length_fields, fun p hp => ?_⟩
    rcases mem_zip_set hp with hold | ⟨hnew, hv⟩
    · exact (ho.fits p hold).mono hextends
    · rw [hslot] at hnew
      cases hnew
      rw [hv]
      exact hfits.mono hextends
  · rw [if_neg heq] at hk
    exact (hg.object k p hk).mono hextends

/-! ## Histories -/

/-- The graphs that additions and replacements lead to from the empty graph. -/
inductive Built : ObjectGraph → Prop
  | empty : Built .empty
  | instantiate {g after : ObjectGraph} {type : RuntimeType} {values : List Value} {h : Handle}
      (hg : Built g) (hnew : g.instantiate type values = .ok (h, after)) : Built after
  | instantiateNamed {g after : ObjectGraph} {type : RuntimeType}
      {named : List (String × Value)} {h : Handle}
      (hg : Built g) (hnew : g.instantiateNamed type named = .ok (h, after)) : Built after
  | setField {g after : ObjectGraph} {h : Handle} {name : String} {v : Value}
      (hg : Built g) (hset : g.setField h name v = .ok after) : Built after

/-- Every graph that was built is well formed. -/
theorem Built.wellFormed {g : ObjectGraph} (hg : g.Built) : g.WellFormed := by
  induction hg with
  | empty => exact wellFormed_empty
  | instantiate _ hnew ih => exact ih.instantiate hnew
  | instantiateNamed _ hnew ih =>
    obtain ⟨values, -, hnew⟩ := instantiateNamed_eq_ok_iff.mp hnew
    exact ih.instantiate hnew
  | setField _ hset ih => exact ih.setField hset

end ObjectGraph

end ObjectEnvelope
