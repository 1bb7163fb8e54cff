import ObjectEnvelope.Graph.ObjectGraph
import ObjectEnvelope.Proofs.Graph.Parts
import ObjectEnvelope.Proofs.Runs

/-!
# Values that fit

`ObjectGraph.Fits` is the meaning of the value check: which values may stand where a type is
declared. The check accepts exactly those (`checkValue_eq_ok_iff`), and a value goes on to fit when
the graph grows or objects get other fields, since only the types of objects matter (`Fits.mono`).
-/

namespace ObjectEnvelope

namespace ObjectGraph

/-- The value may stand where the type is declared. What a list holds where anything may stand is
not looked at. -/
inductive Fits (g : ObjectGraph) : ValueType → Value → Prop
  | null {declared : ValueType} (h : declared.canBeNull = true) : Fits g declared .null
  | primitive {declared : ValueType} {p : Primitive} (h : declared.admits p.kind = true) :
      Fits g declared (.primitive p)
  | list {element : ValueType} {items : List Value} (h : ∀ v ∈ items, Fits g element v) :
      Fits g (.list element) (.list items)
  | anyList (items : List Value) : Fits g .any (.list items)
  | constant {declared : ValueType} {c : Constant} (h : c.type.accepts declared = true) :
      Fits g declared (.constant c)
  | object {declared : ValueType} {h : Handle} {o : Instance} (hget : g.get? h = some o)
      (haccepts : o.type.accepts declared = true) : Fits g declared (.object h)

/-- The value may stand in the slot, which may be without one only where it is nullable. -/
def FitsSlot (g : ObjectGraph) (slot : Field) (v : Value) : Prop :=
  g.Fits slot.type v ∧ (v = .null → slot.nullable = true)

/-! ## The checks -/

theorem require_eq_ok_iff {g : ObjectGraph} {fits : Bool} {declared : ValueType} {v : Value} :
    g.require fits declared v = .ok () ↔ fits = true := by
  cases fits <;> simp [require]

theorem checkObject_eq_ok_iff {g : ObjectGraph} {declared : ValueType} {h : Handle} :
    g.checkObject declared h = .ok () ↔
      ∃ o, g.get? h = some o ∧ o.type.accepts declared = true := by
  unfold checkObject
  cases g.get? h with
  | none => simp
  | some o => simp [require_eq_ok_iff]

theorem fits_object_iff {g : ObjectGraph} {declared : ValueType} {h : Handle} :
    g.Fits declared (.object h) ↔ ∃ o, g.get? h = some o ∧ o.type.accepts declared = true := by
  constructor
  · rintro (_ | _ | _ | _ | _ | ⟨hget, haccepts⟩)
    exact ⟨_, hget, haccepts⟩
  · rintro ⟨o, hget, haccepts⟩
    exact .object hget haccepts

theorem fits_list_iff {g : ObjectGraph} {element : ValueType} {items : List Value} :
    g.Fits (.list element) (.list items) ↔ ∀ v ∈ items, g.Fits element v := by
  constructor
  · rintro (_ | _ | h)
    exact h
  · exact .list

/-- Where no list type is declared, the check of a list looks at the declared type alone. -/
theorem fits_list_of_ne {g : ObjectGraph} {declared : ValueType} {items : List Value}
    (h : ∀ element, declared ≠ .list element) :
    g.Fits declared (.list items) ↔ declared = .any := by
  constructor
  · rintro (_ | _ | _ | _)
    · exact absurd rfl (h _)
    · rfl
  · rintro rfl
    exact .anyList items

/-- The value check accepts exactly the values that fit. -/
theorem checkValue_eq_ok_iff {g : ObjectGraph} {declared : ValueType} {v : Value} :
    g.checkValue declared v = .ok () ↔ g.Fits declared v := by
  induction v using Value.induct generalizing declared with
  | null =>
    rw [checkValue, require_eq_ok_iff]
    exact ⟨.null, fun | .null h => h⟩
  | primitive p =>
    have hfits : g.Fits declared (.primitive p) ↔ declared.admits p.kind = true :=
      ⟨fun | .primitive h => h, .primitive⟩
    rw [hfits]
    cases declared <;>
      simp [checkValue, require_eq_ok_iff, Value.primitiveKind?, ValueType.admits]
  | list items ih =>
    cases declared with
    | list element =>
      rw [checkValue, Outcome.forM_eq_ok_iff, fits_list_iff]
      exact forall₂_congr fun v hv => ih v hv
    | primitive kind =>
      rw [fits_list_of_ne (by simp)]
      simp [checkValue, require_eq_ok_iff, Value.primitiveKind?]
    | reference name =>
      rw [fits_list_of_ne (by simp)]
      simp [checkValue, require_eq_ok_iff]
    | any =>
      rw [fits_list_of_ne (by simp)]
      simp [checkValue]
  | constant c =>
    have hfits : g.Fits declared (.constant c) ↔ c.type.accepts declared = true :=
      ⟨fun | .constant h => h, .constant⟩
    rw [hfits]
    cases declared <;>
      simp [checkValue, require_eq_ok_iff, Value.primitiveKind?, RuntimeType.accepts]
  | object h =>
    rw [fits_object_iff]
    cases declared with
    | reference name => exact checkObject_eq_ok_iff
    | any => exact checkObject_eq_ok_iff
    | primitive kind =>
      simp [checkValue, require_eq_ok_iff, Value.primitiveKind?, RuntimeType.accepts]
    | list element => simp [checkValue, require_eq_ok_iff, RuntimeType.accepts]

theorem isNull_eq_true_iff {v : Value} : v.isNull = true ↔ v = .null := by
  cases v <;> simp [Value.isNull]

theorem checkSlot_eq_ok_iff {g : ObjectGraph} {owner : String} {slot : Field} {v : Value} :
    g.checkSlot owner slot v = .ok () ↔ g.FitsSlot slot v := by
  unfold checkSlot FitsSlot
  by_cases hv : v.isNull = true
  · rw [if_pos hv]
    rw [isNull_eq_true_iff] at hv
    subst hv
    by_cases hslot : slot.nullable = true
    · simp [hslot, Fits.null (slot.canBeNull_of_nullable hslot)]
    · simp [hslot]
  · rw [if_neg hv, checkValue_eq_ok_iff]
    rw [isNull_eq_true_iff] at hv
    simp [hv]

theorem checkSlots_eq_ok_iff {g : ObjectGraph} {type : RuntimeType} {values : List Value} :
    g.checkSlots type values = .ok () ↔ ∀ p ∈ type.slots.zip values, g.FitsSlot p.1 p.2 := by
  unfold checkSlots
  rw [Outcome.forM_eq_ok_iff]
  exact forall₂_congr fun p _ => checkSlot_eq_ok_iff

/-! ## Growing graphs -/

/-- Every object of the first graph is an object of the second, of the same type. -/
def Extends (g after : ObjectGraph) : Prop :=
  ∀ h o, g.get? h = some o → ∃ o', after.get? h = some o' ∧ o'.type = o.type

theorem Fits.mono {g after : ObjectGraph} (hafter : g.Extends after) {declared : ValueType}
    {v : Value} (h : g.Fits declared v) : after.Fits declared v := by
  induction h with
  | null h => exact .null h
  | primitive h => exact .primitive h
  | list _ ih => exact .list ih
  | anyList items => exact .anyList items
  | constant h => exact .constant h
  | object hget haccepts =>
    obtain ⟨o', hget', htype⟩ := hafter _ _ hget
    exact .object hget' (htype ▸ haccepts)

theorem FitsSlot.mono {g after : ObjectGraph} (hafter : g.Extends after) {slot : Field}
    {v : Value} (h : g.FitsSlot slot v) : after.FitsSlot slot v :=
  ⟨h.1.mono hafter, h.2⟩

end ObjectGraph

end ObjectEnvelope
