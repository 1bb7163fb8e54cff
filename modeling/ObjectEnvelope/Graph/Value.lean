import ObjectEnvelope.Types.RuntimeType

/-!
# Values

What a slot of an object holds: nothing, a primitive, a list of values, a constant of an enum, or an
object of the graph, named by its handle. A value is only a tree of such pieces; whether it fits a
declared type is decided with the graph at hand.
-/

namespace ObjectEnvelope

/-- A value without parts. -/
inductive Primitive where
  | bool (b : Bool)
  | scalar (s : Scalar)
  | char (c : Char)
  | text (content : String)
  | bytes (content : List UInt8)
  deriving DecidableEq

namespace Primitive

/-- The kind of the primitive. -/
def kind : Primitive → PrimitiveKind
  | bool _ => .bool
  | scalar s => .scalar s.kind
  | char _ => .char
  | text _ => .string
  | bytes _ => .bytes

/-- Equality as values: floating-point numbers compare as numbers, so that a NaN equals nothing. -/
def same : Primitive → Primitive → Bool
  | scalar s, scalar t => s.same t
  | p, q => p == q

end Primitive

/-- A constant of an enum, by its ordinal. -/
structure Constant where
  type : RuntimeType
  ordinal : Nat
  inRange : ordinal < type.constants.length

namespace Constant

/-- The constant of an enum with an ordinal. -/
def ofOrdinal (type : RuntimeType) (ordinal : Nat) : Except WireError Constant :=
  if type.kind = .enumeration then
    if h : ordinal < type.constants.length then .ok ⟨type, ordinal, h⟩
    else .error (.schemaMismatch (.ordinalOutside type.name type.constants.length ordinal))
  else .error (.schemaMismatch (.notAnEnum type.name))

/-- The constant of an enum with a name. -/
def ofName (type : RuntimeType) (name : String) : Except WireError Constant :=
  match type.ordinalOf? name with
  | some ordinal => ofOrdinal type ordinal
  | none => .error (.schemaMismatch (.unknownConstant type.name name))

/-- The name of the constant. -/
def name (c : Constant) : String :=
  c.type.constants.get ⟨c.ordinal, c.inRange⟩

/-- The constant with its type, as messages show it. -/
def text (c : Constant) : String :=
  s!"{c.type.name}::{c.name}({c.ordinal})"

/-- Whether two constants have the same place in types of the same digest. -/
def same (a b : Constant) : Bool :=
  a.ordinal == b.ordinal && a.type.digest == b.type.digest

end Constant

/-- A value of a slot. -/
inductive Value where
  | null
  | primitive (p : Primitive)
  | list (items : List Value)
  | constant (c : Constant)
  | object (h : Handle)

namespace Value

/-- Whether there is no value. -/
def isNull : Value → Bool
  | null => true
  | _ => false

/-- The kind of a primitive value. -/
def primitiveKind? : Value → Option PrimitiveKind
  | primitive p => some p.kind
  | _ => none

mutual

/-- Equality of values, handle by handle. -/
def same : Value → Value → Bool
  | null, null => true
  | primitive p, primitive q => p.same q
  | list xs, list ys => sameAll xs ys
  | constant c, constant d => c.same d
  | object h, object k => h == k
  | _, _ => false

/-- Equality of lists, item by item. -/
def sameAll : List Value → List Value → Bool
  | [], [] => true
  | x :: xs, y :: ys => same x y && sameAll xs ys
  | _, _ => false

end

mutual

/-- The handles in a value, from left to right. -/
def handles : Value → List Handle
  | object h => [h]
  | list items => handlesOfAll items
  | null | primitive _ | constant _ => []

/-- The handles in a list of values, from left to right. -/
def handlesOfAll : List Value → List Handle
  | [] => []
  | item :: rest => handles item ++ handlesOfAll rest

end

end Value

end ObjectEnvelope
