import ObjectEnvelope.Bytes.Reader
import ObjectEnvelope.Schema.Descriptor

/-!
# Schema entries

The description of one type on the wire. Supertype and interfaces are named, not nested, so that an
entry can be read on its own; nothing here checks what the names denote.
-/

namespace ObjectEnvelope

/-- The largest number of list wrappers of a value type that is read. -/
def maxListDepth : Nat := 64

/-! ## Value types -/

/-- A value type: the number of its form, then its parts. -/
def ValueType.write : ValueType → Except WireError (List UInt8)
  | primitive kind => .ok [0, kind.code]
  | reference name => return 1 :: (← Write.text name)
  | list element => return 2 :: (← element.write)
  | any => .ok [3]

/-- The primitive kind with the next code. -/
def PrimitiveKind.read : Read PrimitiveKind := do
  let code ← Read.byte
  match ofCode? code with
  | some kind => return kind
  | none => throw (.invalidEnvelope (.primitiveCode code))

/-- The next value type, of fewer than `room` list wrappers. -/
def ValueType.read : (room : Nat) → Read ValueType
  | 0 => throw (.invalidEnvelope .valueTypeTooDeep)
  | room + 1 => do
    let form ← Read.byte
    if form = 0 then
      return primitive (← PrimitiveKind.read)
    else if form = 1 then
      return reference (← Read.text)
    else if form = 2 then
      return list (← read room)
    else if form = 3 then
      return any
    else
      throw (.invalidEnvelope (.valueTypeTag form))

/-! ## Fields -/

/-- A field: its name, its type and whether it is nullable. -/
def Field.write (f : Field) : Except WireError (List UInt8) := do
  let name ← Write.text f.name
  let type ← f.type.write
  return name ++ type ++ Write.flag f.nullable

/-- The next field of the type called `owner`. -/
def Field.read (owner : String) : Read Field := do
  let name ← Read.text
  let type ← ValueType.read (maxListDepth + 1)
  let nullable ← Read.flag (.nullabilityFlag · owner name)
  Step.ofExcept (Field.declare name type nullable)

/-! ## Entries -/

/-- The description of a type by itself. -/
structure SchemaEntry where
  name : String
  kind : TypeKind
  /-- The name of the supertype. -/
  parent? : Option String
  interfaces : List String
  /-- The own fields. -/
  fields : List Field
  deriving DecidableEq

namespace SchemaEntry

/-- The entry that describes a descriptor. -/
def ofDescriptor (d : Descriptor) : SchemaEntry where
  name := d.name
  kind := d.kind
  parent? := d.parent?.map (·.name)
  interfaces := d.interfaces
  fields := d.fields

/-- A supertype: whether there is one, then its name. -/
def writeParent : Option String → Except WireError (List UInt8)
  | none => .ok (Write.flag false)
  | some name => return Write.flag true ++ (← Write.text name)

/-- An entry, item by item. -/
def write (entry : SchemaEntry) : Except WireError (List UInt8) := do
  let name ← Write.text entry.name
  let parent ← writeParent entry.parent?
  let interfaces ← Write.counted Write.text entry.interfaces
  let fields ← Write.counted Field.write entry.fields
  return name ++ [entry.kind.code] ++ parent ++ interfaces ++ fields

/-- The next kind, that of the type called `name`. -/
def readKind (name : String) : Read TypeKind := do
  let code ← Read.byte
  match TypeKind.ofCode? code with
  | some kind => return kind
  | none => throw (.invalidEnvelope (.typeKind code name))

/-- The next supertype, that of the type called `name`. -/
def readParent (name : String) : Read (Option String) := do
  if ← Read.flag (.supertypeFlag · name) then
    return some (← Read.text)
  else
    return none

/-- The fewest bytes of a name. -/
def minNameSize : Nat := 4

/-- The fewest bytes of a field: an empty name, a form and a flag. -/
def minFieldSize : Nat := 6

/-- The fewest bytes of an entry: an empty name, a kind, a flag and two counts. -/
def minSize : Nat := 14

/-- The next entry. -/
def read : Read SchemaEntry := do
  let name ← Read.text
  let kind ← readKind name
  let parent? ← readParent name
  let interfaces ← Step.times Read.text (← Read.length minNameSize)
  let fields ← Step.times (Field.read name) (← Read.length minFieldSize)
  return { name, kind, parent?, interfaces, fields }

end SchemaEntry

end ObjectEnvelope
