import ObjectEnvelope.Schema.ValueType

/-!
# Fields

A named slot of a described type. Only fields whose type can be without a value are nullable.
-/

namespace ObjectEnvelope

/-- A named slot with the type of its values. -/
structure Field where
  name : String
  type : ValueType
  /-- Whether the slot may be without a value. -/
  nullable : Bool
  canBeNull_of_nullable : nullable = true → type.canBeNull = true
  deriving DecidableEq

namespace Field

/-- The field that always has a value. -/
def mandatory (name : String) (type : ValueType) : Field :=
  ⟨name, type, false, nofun⟩

/-- The field for a value of any type, or none. -/
def anything (name : String) : Field :=
  ⟨name, .any, true, fun _ => rfl⟩

/-- The field as messages show it. -/
def text (f : Field) : String :=
  f.name ++ ":" ++ f.type.text ++ (if f.nullable then "?" else "")

end Field

end ObjectEnvelope
