import ObjectEnvelope.Graph.ObjectGraph
import ObjectEnvelope.Proofs.Graph.Parts

/-!
# What a value leads to

`ObjectGraph.Reaches` relates a value to every value that is met on the way from it, through the
items of lists and the fields of objects. All conditions on what an encoding meets are stated with
it.
-/

namespace ObjectEnvelope.ObjectGraph

/-- The second value is met on the way from the first: it is the first, or is met from an item of
it, if that is a list, or from a field of it, if that is an object of the graph. -/
inductive Reaches (g : ObjectGraph) : Value → Value → Prop
  | self (v : Value) : Reaches g v v
  | item {items : List Value} {v w : Value} (hv : v ∈ items) (hw : Reaches g v w) :
      Reaches g (.list items) w
  | field {h : Handle} {o : Instance} {v w : Value} (hget : g.get? h = some o)
      (hv : v ∈ o.fields) (hw : Reaches g v w) : Reaches g (.object h) w

/-- An object that is met again on the way from its own fields. -/
def OnCycle (g : ObjectGraph) (h : Handle) : Prop :=
  ∃ o, g.get? h = some o ∧ ∃ v ∈ o.fields, g.Reaches v (.object h)

/-- The type is that of an object or of a constant that is met on the way from the value. -/
inductive Uses (g : ObjectGraph) (root : Value) : RuntimeType → Prop
  | object {h : Handle} {o : Instance} (hreach : g.Reaches root (.object h))
      (hget : g.get? h = some o) : Uses g root o.type
  | constant {c : Constant} (hreach : g.Reaches root (.constant c)) : Uses g root c.type

variable {g : ObjectGraph}

theorem Reaches.trans {u v w : Value} (huv : g.Reaches u v) (hvw : g.Reaches v w) :
    g.Reaches u w := by
  induction huv with
  | self => exact hvw
  | item hv _ ih => exact .item hv (ih hvw)
  | field hget hv _ ih => exact .field hget hv (ih hvw)

/-- What holds of a value, and of the items and fields of whatever it holds of, holds of all that is
met on the way. -/
theorem Reaches.closed {P : Value → Prop} (hitem : ∀ items, P (.list items) → ∀ v ∈ items, P v)
    (hfield : ∀ h o, g.get? h = some o → P (.object h) → ∀ v ∈ o.fields, P v) {v w : Value}
    (hreach : g.Reaches v w) (hv : P v) : P w := by
  induction hreach with
  | self => exact hv
  | item hmem _ ih => exact ih (hitem _ hv _ hmem)
  | field hget hmem _ ih => exact ih (hfield _ _ hget hv _ hmem)

theorem reaches_list_iff {items : List Value} {w : Value} :
    g.Reaches (.list items) w ↔ w = .list items ∨ ∃ v ∈ items, g.Reaches v w := by
  constructor
  · intro h
    cases h with
    | self => exact .inl rfl
    | item hv hw => exact .inr ⟨_, hv, hw⟩
  · rintro (rfl | ⟨v, hv, hw⟩)
    · exact .self _
    · exact .item hv hw

theorem reaches_object_iff {h : Handle} {o : Instance} (hget : g.get? h = some o) {w : Value} :
    g.Reaches (.object h) w ↔ w = .object h ∨ ∃ v ∈ o.fields, g.Reaches v w := by
  constructor
  · intro hw
    cases hw with
    | self => exact .inl rfl
    | field hget' hv hw =>
      rw [hget] at hget'
      cases hget'
      exact .inr ⟨_, hv, hw⟩
  · rintro (rfl | ⟨v, hv, hw⟩)
    · exact .self _
    · exact .field hget hv hw

theorem reaches_constant_iff {c : Constant} {w : Value} :
    g.Reaches (.constant c) w ↔ w = .constant c := by
  constructor
  · rintro ⟨⟩
    rfl
  · rintro rfl
    exact .self _

theorem reaches_primitive_iff {p : Primitive} {w : Value} :
    g.Reaches (.primitive p) w ↔ w = .primitive p := by
  constructor
  · rintro ⟨⟩
    rfl
  · rintro rfl
    exact .self _

theorem reaches_null_iff {w : Value} : g.Reaches .null w ↔ w = .null := by
  constructor
  · rintro ⟨⟩
    rfl
  · rintro rfl
    exact .self _

theorem reaches_of_mem_handles {v : Value} {k : Handle} (hk : k ∈ v.handles) :
    g.Reaches v (.object k) := by
  induction v using Value.induct with
  | null => cases hk
  | primitive p => cases hk
  | constant c => cases hk
  | list items ih =>
    rw [Value.handles, Value.handlesOfAll_eq_flatMap, List.mem_flatMap] at hk
    obtain ⟨v, hv, hk⟩ := hk
    exact .item hv (ih v hv hk)
  | object h =>
    rw [List.mem_singleton.mp hk]
    exact .self _

/-- The handles in the fields of an object, with one occurrence for each place; none where there is
no object. -/
def successors (g : ObjectGraph) (h : Handle) : List Handle :=
  match g.get? h with
  | some o => Value.handlesOfAll o.fields
  | none => []

theorem successors_eq {h : Handle} {o : Instance} (hget : g.get? h = some o) :
    g.successors h = Value.handlesOfAll o.fields := by
  unfold successors
  rw [hget]

/-! ## Types that are met -/

variable {t : RuntimeType}

theorem not_uses_null : ¬ g.Uses .null t := by
  rintro (⟨hreach, -⟩ | hreach) <;> cases reaches_null_iff.mp hreach

theorem not_uses_primitive {p : Primitive} : ¬ g.Uses (.primitive p) t := by
  rintro (⟨hreach, -⟩ | hreach) <;> cases reaches_primitive_iff.mp hreach

theorem uses_constant_iff {c : Constant} : g.Uses (.constant c) t ↔ t = c.type := by
  constructor
  · rintro (⟨hreach, -⟩ | hreach) <;> cases reaches_constant_iff.mp hreach
    rfl
  · rintro rfl
    exact .constant (.self _)

theorem uses_list_iff {items : List Value} :
    g.Uses (.list items) t ↔ ∃ v ∈ items, g.Uses v t := by
  constructor
  · rintro (⟨hreach, hget⟩ | hreach)
    · rcases reaches_list_iff.mp hreach with heq | ⟨v, hv, hreach⟩
      · cases heq
      · exact ⟨v, hv, .object hreach hget⟩
    · rcases reaches_list_iff.mp hreach with heq | ⟨v, hv, hreach⟩
      · cases heq
      · exact ⟨v, hv, .constant hreach⟩
  · rintro ⟨v, hv, ⟨hreach, hget⟩ | hreach⟩
    · exact .object (.item hv hreach) hget
    · exact .constant (.item hv hreach)

theorem uses_object_iff {h : Handle} {o : Instance} (hget : g.get? h = some o) :
    g.Uses (.object h) t ↔ t = o.type ∨ ∃ v ∈ o.fields, g.Uses v t := by
  constructor
  · rintro (⟨hreach, hget'⟩ | hreach)
    · rcases (reaches_object_iff hget).mp hreach with heq | ⟨v, hv, hreach⟩
      · cases heq
        rw [Option.some_inj.mp (hget'.symm.trans hget)]
        exact .inl rfl
      · exact .inr ⟨v, hv, .object hreach hget'⟩
    · rcases (reaches_object_iff hget).mp hreach with heq | ⟨v, hv, hreach⟩
      · cases heq
      · exact .inr ⟨v, hv, .constant hreach⟩
  · rintro (rfl | ⟨v, hv, ⟨hreach, hget'⟩ | hreach⟩)
    · exact .object (.self _) hget
    · exact .object (.field hget hv hreach) hget'
    · exact .constant (.field hget hv hreach)

end ObjectEnvelope.ObjectGraph
