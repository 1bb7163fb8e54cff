import ObjectEnvelope.Bytes.Reader
import ObjectEnvelope.Graph.Value

/-!
# Payload tags

Every value of a payload begins with a tag of one byte, which says what follows. The body of a
primitive is its fixed-width number, or its length and bytes.
-/

namespace ObjectEnvelope

/-- What a value of a payload begins with. -/
inductive Tag where
  | null
  | primitive (kind : PrimitiveKind)
  /-- A count and as many values. -/
  | list
  /-- A type and an ordinal. -/
  | constant
  /-- A type, a count and a value for each slot. The object gets the next number. -/
  | object
  /-- An object that gets no number. -/
  | inlineObject
  /-- The number of an object that is complete. -/
  | backReference
  deriving DecidableEq, Repr

namespace Tag

/-- Every tag, in the order of the codes. -/
def all : List Tag :=
  null :: PrimitiveKind.all.map primitive ++ [list, constant, object, inlineObject, backReference]

/-- The byte of a tag. -/
def code : Tag → UInt8
  | null => 0
  | primitive kind => kind.code + 1
  | list => 0x10
  | constant => 0x11
  | object => 0x12
  | inlineObject => 0x13
  | backReference => 0x14

/-- The tag of a byte. -/
def ofCode? (code : UInt8) : Option Tag :=
  all.find? (·.code == code)

theorem ofCode?_code (t : Tag) : ofCode? t.code = some t := by
  cases t with
  | primitive kind =>
    cases kind with
    | scalar kind => cases kind <;> rfl
    | _ => rfl
  | _ => rfl

end Tag

namespace Primitive

/-- The body of a primitive. -/
def encode : Primitive → Except WireError (List UInt8)
  | bool b => .ok (Write.flag b)
  | scalar s => .ok s.encode
  | char c => .ok (LittleEndian.ofNat 4 c.toNat)
  | text content => Write.text content
  | bytes content => Write.blob content

/-- The next character. -/
def readChar : Read Char := do
  let scalar ← Read.number 4
  if h : scalar.isValidChar then
    return Char.ofNatAux scalar h
  else
    throw (.invalidEnvelope (.charScalar scalar))

/-- The next body of a kind. -/
def read : PrimitiveKind → Read Primitive
  | .bool => return bool (← Read.flag .boolByte)
  | .scalar kind => return scalar (← Read.scalar kind)
  | .char => return char (← readChar)
  | .string => return text (← Read.text)
  | .bytes => return bytes (← Read.blob)

end Primitive

end ObjectEnvelope
