import ObjectEnvelope.Schema.Descriptor

/-!
# Runtime types

A runtime type is a descriptor that can be laid out, with its layout: the slots of its instances,
the names it is assignable to and, for an enum, its constants. `Descriptor.layoutFault?` says which
descriptors have a layout.
-/

namespace ObjectEnvelope

/-- The largest number of slots or constants of a type. -/
def maxSlots : Nat := 65535

/-- How the values of a type are stored and where they may stand. -/
structure Layout where
  /-- The slots of an instance, inherited ones first. -/
  slots : List Field
  /-- Every name that the type may be declared by. -/
  assignable : List String
  /-- The constants in the order of their ordinals. -/
  constants : List String
  deriving DecidableEq

namespace Descriptor

/-- The name of the type and of its supertypes, nearest first. -/
def chainNames (d : Descriptor) : List String :=
  (d.level :: d.above).map (·.name)

/-- The interfaces that the type and its supertypes declare. -/
def chainInterfaces (d : Descriptor) : List String :=
  (d.level :: d.above).flatMap (·.interfaces)

/-- The first own field that an inherited one contradicts, and the inherited one. -/
def firstConflict? (own inherited : List Field) : Option (Field × Field) :=
  own.findSome? fun f =>
    match inherited.find? (·.name == f.name) with
    | some base => if base.type = f.type ∧ base.nullable = f.nullable then none else some (f, base)
    | none => none

/-- Why an enum cannot be laid out. -/
def enumFault? (d : Descriptor) : Option LayoutFault :=
  if d.above ≠ [] ∨ d.interfaces ≠ [] then some (.enumWithSupertypes d.name)
  else if maxSlots < d.fields.length then
    some (.tooManyConstants d.name d.fields.length maxSlots)
  else none

/-- Why a composite type or an interface cannot be laid out. -/
def extensionFault? (d : Descriptor) : Option LayoutFault :=
  let kindChange := d.above.head?.bind fun parent =>
    if parent.kind = d.kind then none
    else some (.kindChange d.kind d.name parent.kind parent.name)
  let conflict := (firstConflict? d.fields (fieldsOfLevels d.above)).map fun (own, inherited) =>
    .fieldConflict d.name own inherited
  let excess :=
    if maxSlots < d.allFields.length then
      some (.tooManySlots d.name d.allFields.length maxSlots)
    else none
  kindChange <|> conflict <|> excess

/-- Why the descriptor cannot be laid out, if it cannot. -/
def layoutFault? (d : Descriptor) : Option LayoutFault :=
  match firstRepeat? d.chainNames with
  | some ancestor => some (.cyclicSupertypes ancestor d.name)
  | none => if d.kind = .enumeration then d.enumFault? else d.extensionFault?

/-- The layout of the type. -/
def layout (d : Descriptor) : Layout where
  slots := if d.kind = .enumeration then [] else d.allFields
  assignable := (d.chainNames ++ d.chainInterfaces).eraseDups
  constants := if d.kind = .enumeration then d.fields.map (·.name) else []

end Descriptor

/-- Where a runtime type comes from. -/
inductive Origin where
  /-- It was registered as a local type. -/
  | known
  /-- It was made from a descriptor for want of a local type. -/
  | synthesized
  deriving DecidableEq, Repr

/-- The name of the origin. -/
def Origin.name : Origin → String
  | known => "Local"
  | synthesized => "Synthesized"

/-- The identity of a runtime type: the collection it was made in and its place there. -/
structure TypeId where
  origin : Origin
  home : Nat
  index : Nat
  deriving DecidableEq, Repr

/-- A descriptor with its layout. -/
structure RuntimeType where
  id : TypeId
  /-- The digest that the type is found by. -/
  digest : Digest
  descriptor : Descriptor
  layout : Layout
  layout_eq : layout = descriptor.layout
  admissible : descriptor.layoutFault? = none
  deriving DecidableEq

namespace RuntimeType

/-- The type of a descriptor that can be laid out. -/
def ofDescriptor (id : TypeId) (digest : Digest) (d : Descriptor) (h : d.layoutFault? = none) :
    RuntimeType :=
  ⟨id, digest, d, d.layout, rfl, h⟩

/-- Lays out the descriptor. -/
def create (id : TypeId) (digest : Digest) (d : Descriptor) : Except WireError RuntimeType :=
  match h : d.layoutFault? with
  | some fault => .error (.synthesisFailure fault)
  | none => .ok (ofDescriptor id digest d h)

/-- The name of the type. -/
def name (t : RuntimeType) : String := t.descriptor.name

/-- The kind of the type. -/
def kind (t : RuntimeType) : TypeKind := t.descriptor.kind

/-- Where the type comes from. -/
def origin (t : RuntimeType) : Origin := t.id.origin

/-- The slots of an instance. -/
def slots (t : RuntimeType) : List Field := t.layout.slots

/-- The constants in the order of their ordinals. -/
def constants (t : RuntimeType) : List String := t.layout.constants

/-- The position of the slot called `name`. -/
def slotIndex? (t : RuntimeType) (name : String) : Option Nat :=
  t.slots.findIdx? (·.name == name)

/-- The constant with an ordinal. -/
def constant? (t : RuntimeType) (ordinal : Nat) : Option String :=
  t.constants[ordinal]?

/-- The ordinal of the constant called `name`. -/
def ordinalOf? (t : RuntimeType) (name : String) : Option Nat :=
  t.constants.findIdx? (· == name)

/-- Whether the type has instances with slots. -/
def isInstantiable (t : RuntimeType) : Bool :=
  t.kind == .composite

/-- Whether a value of the type may stand where `name` is declared. -/
def isAssignableTo (t : RuntimeType) (name : String) : Bool :=
  t.layout.assignable.contains name

/-- Whether a value of the type may stand where `declared` is declared. -/
def accepts (t : RuntimeType) : ValueType → Bool
  | .any => true
  | .reference name => t.isAssignableTo name
  | .primitive _ | .list _ => false

end RuntimeType

end ObjectEnvelope
