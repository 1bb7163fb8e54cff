import ObjectEnvelope.Scalar

/-!
# Value types

What a slot of an object may hold: a primitive of one kind, an object or constant of a named type, a
list, or anything.
-/

namespace ObjectEnvelope

/-- The kinds of primitive values. -/
inductive PrimitiveKind where
  | bool
  | scalar (kind : ScalarKind)
  | char
  | string
  | bytes
  deriving DecidableEq, Repr

namespace PrimitiveKind

/-- Every kind, in the order of the wire codes. -/
def all : List PrimitiveKind :=
  bool :: ScalarKind.all.map scalar ++ [char, string, bytes]

/-- The name of the kind. -/
def name : PrimitiveKind → String
  | bool => "bool"
  | scalar kind => kind.name
  | char => "char"
  | string => "string"
  | bytes => "bytes"

/-- The wire code: the position among all kinds. -/
def code : PrimitiveKind → UInt8
  | bool => 0
  | scalar .u8 => 1
  | scalar .i8 => 2
  | scalar .u16 => 3
  | scalar .i16 => 4
  | scalar .u32 => 5
  | scalar .i32 => 6
  | scalar .u64 => 7
  | scalar .i64 => 8
  | scalar .f32 => 9
  | scalar .f64 => 10
  | char => 11
  | string => 12
  | bytes => 13

/-- The kind with a wire code. -/
def ofCode? (code : UInt8) : Option PrimitiveKind :=
  all.find? (·.code == code)

/-- Whether absence of a value can be told from every value of the kind. -/
def isReference : PrimitiveKind → Bool
  | string | bytes => true
  | _ => false

theorem ofCode?_code (k : PrimitiveKind) : ofCode? k.code = some k := by
  cases k with
  | scalar kind => cases kind <;> rfl
  | _ => rfl

theorem code_of_ofCode? {code : UInt8} {k : PrimitiveKind} (h : ofCode? code = some k) :
    k.code = code := by
  simpa using List.find?_some h

end PrimitiveKind

/-- What a slot is declared to hold. -/
inductive ValueType where
  /-- A primitive of one kind. -/
  | primitive (kind : PrimitiveKind)
  /-- An object or an enum constant of the named type or of a type assignable to it. -/
  | reference (name : String)
  /-- An ordered list of values of one type. -/
  | list (element : ValueType)
  /-- Any value at all. -/
  | any
  deriving DecidableEq, Repr

namespace ValueType

/-- The type as messages show it. -/
def text : ValueType → String
  | primitive kind => kind.name
  | reference name => "ref<" ++ name ++ ">"
  | list element => "list<" ++ element.text ++ ">"
  | any => "any"

/-- Whether a slot of this type can be without a value. -/
def canBeNull : ValueType → Bool
  | primitive kind => kind.isReference
  | reference _ | list _ | any => true

/-- What the items of a list are declared to be, where a list may stand. -/
def element? : ValueType → Option ValueType
  | list element => some element
  | any => some any
  | primitive _ | reference _ => none

/-- Whether a primitive of a kind may stand. -/
def admits (kind : PrimitiveKind) : ValueType → Bool
  | any => true
  | primitive declared => kind == declared
  | reference _ | list _ => false

/-- The number of list wrappers around the innermost element type. -/
def listDepth : ValueType → Nat
  | list element => element.listDepth + 1
  | _ => 0

end ValueType

/-- The kinds of described types. -/
inductive TypeKind where
  /-- A concrete type with slots. -/
  | composite
  /-- An abstract type without instances. -/
  | interface
  /-- A type whose fields are its constants. -/
  | enumeration
  deriving DecidableEq, Repr

namespace TypeKind

/-- Every kind, in the order of the wire codes. -/
def all : List TypeKind := [composite, interface, enumeration]

/-- The name of the kind. -/
def name : TypeKind → String
  | composite => "composite"
  | interface => "interface"
  | enumeration => "enum"

/-- The wire code of the kind. -/
def code : TypeKind → UInt8
  | composite => 0
  | interface => 1
  | enumeration => 2

/-- The kind with a wire code. -/
def ofCode? (code : UInt8) : Option TypeKind :=
  all.find? (·.code == code)

theorem ofCode?_code (k : TypeKind) : ofCode? k.code = some k := by
  cases k <;> rfl

theorem code_of_ofCode? {code : UInt8} {k : TypeKind} (h : ofCode? code = some k) :
    k.code = code := by
  simpa using List.find?_some h

end TypeKind

end ObjectEnvelope
