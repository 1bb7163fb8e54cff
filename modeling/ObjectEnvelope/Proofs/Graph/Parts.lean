import ObjectEnvelope.Graph.Value

/-!
# Parts of values

A value is a tree of lists. `Value.Holds` says that a value occurs in another, itself included, and
`Value.induct` is the induction that goes with it: what holds of a list may be shown from what holds
of its items.
-/

namespace ObjectEnvelope

/-- Only enums have constants. -/
theorem Constant.kind_type (c : Constant) : c.type.kind = .enumeration := by
  have hlt := c.inRange
  unfold RuntimeType.constants at hlt
  rw [c.type.layout_eq, Descriptor.layout] at hlt
  by_cases hkind : c.type.descriptor.kind = .enumeration
  · exact hkind
  · simp [hkind] at hlt

namespace Value

/-- Induction over values: a list may draw on its items. -/
@[elab_as_elim]
theorem induct {motive : Value → Prop} (null : motive .null)
    (primitive : ∀ p, motive (.primitive p))
    (list : ∀ items, (∀ v ∈ items, motive v) → motive (.list items))
    (constant : ∀ c, motive (.constant c)) (object : ∀ h, motive (.object h)) : ∀ v, motive v
  | .null => null
  | .primitive p => primitive p
  | .list items =>
    list items fun v _ => induct null primitive list constant object v
  | .constant c => constant c
  | .object h => object h

/-- The second value occurs in the first, as it stands or inside lists. -/
inductive Holds : Value → Value → Prop
  | self (v : Value) : Holds v v
  | item {items : List Value} {v w : Value} (hv : v ∈ items) (hw : Holds v w) :
      Holds (.list items) w

theorem holds_list_iff {items : List Value} {w : Value} :
    Holds (.list items) w ↔ w = .list items ∨ ∃ v ∈ items, Holds v w := by
  constructor
  · intro h
    cases h with
    | self => exact .inl rfl
    | item hv hw => exact .inr ⟨_, hv, hw⟩
  · rintro (rfl | ⟨v, hv, hw⟩)
    · exact .self _
    · exact .item hv hw

/-- A value that is no list holds only itself. -/
theorem Holds.eq_self {v w : Value} (h : Holds v w) (hv : ∀ items, v ≠ .list items) : w = v := by
  cases h with
  | self => rfl
  | item => exact absurd rfl (hv _)

theorem holds_null_iff {w : Value} : Holds .null w ↔ w = .null :=
  ⟨fun h => h.eq_self (by simp), fun h => h ▸ .self _⟩

theorem holds_object_iff {h : Handle} {w : Value} : Holds (.object h) w ↔ w = .object h :=
  ⟨fun hw => hw.eq_self (by simp), fun hw => hw ▸ .self _⟩

theorem handlesOfAll_eq_flatMap (items : List Value) :
    handlesOfAll items = items.flatMap handles := by
  induction items with
  | nil => rfl
  | cons item rest ih => rw [handlesOfAll, ih, List.flatMap_cons]

theorem handlesOfAll_append (items rest : List Value) :
    handlesOfAll (items ++ rest) = handlesOfAll items ++ handlesOfAll rest := by
  simp only [handlesOfAll_eq_flatMap, List.flatMap_append]

theorem handlesOfAll_singleton (v : Value) : handlesOfAll [v] = v.handles := by
  rw [handlesOfAll_eq_flatMap, List.flatMap_singleton]

end Value

end ObjectEnvelope
