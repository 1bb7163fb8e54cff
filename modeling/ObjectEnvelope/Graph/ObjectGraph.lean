import ObjectEnvelope.Graph.Value

/-!
# Object graphs

Objects refer to each other by handles into one graph, so that a shared object is stored once. A
graph only grows, and every value is checked against its slot before it is stored: `checkValue` says
which values fit a declared type.
-/

namespace ObjectEnvelope

/-- An object: its type and one value for each slot. -/
structure Instance where
  type : RuntimeType
  fields : List Value

/-- The value of the slot called `name`. -/
def Instance.field? (o : Instance) (name : String) : Option Value :=
  (o.type.slotIndex? name).bind (o.fields[·]?)

/-- The objects, oldest first; the handle of an object is its position. -/
structure ObjectGraph where
  objects : Array Instance

namespace ObjectGraph

/-- The graph without objects. -/
def empty : ObjectGraph := ⟨#[]⟩

/-- The number of objects. -/
def size (g : ObjectGraph) : Nat := g.objects.size

/-- The largest number of objects that handles can name. -/
def capacity : Nat := UInt32.size

/-- The object with a handle. -/
def get? (g : ObjectGraph) (h : Handle) : Option Instance :=
  g.objects[h.index]?

/-- The value of the slot called `name` of an object. -/
def field? (g : ObjectGraph) (h : Handle) (name : String) : Option Value :=
  (g.get? h).bind (·.field? name)

/-- What kind of value it is, as messages show it. -/
def describe (g : ObjectGraph) : Value → String
  | .null => "null"
  | .primitive p => p.kind.name
  | .list _ => "list"
  | .constant c => "enum " ++ c.type.name
  | .object h =>
    match g.get? h with
    | some o => o.type.name
    | none => "dangling " ++ h.text

/-! ## Checks -/

/-- Refuses a value that does not fit the declared type. -/
def require (g : ObjectGraph) (fits : Bool) (declared : ValueType) (value : Value) :
    Except WireError Unit :=
  if fits then .ok () else .error (.schemaMismatch (.unfit declared (g.describe value)))

/-- Checks that an object may stand where `declared` is declared. -/
def checkObject (g : ObjectGraph) (declared : ValueType) (h : Handle) : Except WireError Unit :=
  match g.get? h with
  | some o => g.require (o.type.accepts declared) declared (.object h)
  | none => .error (.notSerializable (.dangling h))

/-- Checks that a value fits the declared type. An absent value fits wherever the type can be
without a value, and whatever a list holds fits where anything is declared. -/
def checkValue (g : ObjectGraph) : ValueType → Value → Except WireError Unit
  | declared, .null => g.require declared.canBeNull declared .null
  | .primitive kind, value =>
    g.require (value.primitiveKind? == some kind) (.primitive kind) value
  | .list element, .list items => items.forM (checkValue g element)
  | .reference name, .constant c =>
    g.require (c.type.isAssignableTo name) (.reference name) (.constant c)
  | .reference name, .object h => g.checkObject (.reference name) h
  | .any, .object h => g.checkObject .any h
  | .any, _ => .ok ()
  | declared, value => g.require false declared value

/-- Checks that a value may stand in a slot of the type called `owner`. Only a nullable slot may be
without a value. -/
def checkSlot (g : ObjectGraph) (owner : String) (slot : Field) (value : Value) :
    Except WireError Unit :=
  if value.isNull then
    if slot.nullable then .ok ()
    else .error (.nullabilityViolation (.nullSlot owner slot.name))
  else g.checkValue slot.type value

/-- Checks the values of all slots of a type, the first failure first. -/
def checkSlots (g : ObjectGraph) (type : RuntimeType) (values : List Value) :
    Except WireError Unit :=
  (type.slots.zip values).forM fun (slot, value) => g.checkSlot type.name slot value

/-! ## Updates -/

/-- Adds an object with one value for each slot, in the order of the slots. -/
def instantiate (g : ObjectGraph) (type : RuntimeType) (values : List Value) :
    Except WireError (Handle × ObjectGraph) := do
  if !type.isInstantiable then
    throw (.notSerializable (.notInstantiable type.kind type.name))
  if values.length ≠ type.slots.length then
    throw (.schemaMismatch (.valueCount type.name type.slots.length values.length))
  g.checkSlots type values
  if capacity ≤ g.size then
    throw (.notSerializable .graphFull)
  return (⟨g.size⟩, ⟨g.objects.push ⟨type, values⟩⟩)

/-- The position of the slot called `name`, which the type must have. -/
def slotCalled (type : RuntimeType) (name : String) : Except WireError Nat :=
  match type.slotIndex? name with
  | some index => .ok index
  | none => .error (.schemaMismatch (.unknownField type.name name))

/-- The values with the named ones in their slots; of two for one slot the later counts. -/
def place (type : RuntimeType) : List (String × Value) → List Value → Except WireError (List Value)
  | [], values => .ok values
  | (name, value) :: rest, values => do
    let index ← slotCalled type name
    place type rest (values.set index value)

/-- Adds an object from named values; the other slots are without a value. -/
def instantiateNamed (g : ObjectGraph) (type : RuntimeType) (named : List (String × Value)) :
    Except WireError (Handle × ObjectGraph) := do
  let values ← place type named (List.replicate type.slots.length .null)
  g.instantiate type values

/-- Replaces the value of the slot called `name` of an object. -/
def setField (g : ObjectGraph) (h : Handle) (name : String) (value : Value) :
    Except WireError ObjectGraph :=
  match g.get? h with
  | none => .error (.notSerializable (.dangling h))
  | some o => do
    let index ← slotCalled o.type name
    (o.type.slots[index]?).forM fun slot => g.checkSlot o.type.name slot value
    return ⟨g.objects.setIfInBounds h.index { o with fields := o.fields.set index value }⟩

end ObjectGraph

end ObjectEnvelope
