import ObjectEnvelope.Error
import ObjectEnvelope.Text.Names

/-!
# Descriptors

The structure of a type, apart from any local representation: its name, kind, fields and interfaces,
and the chain of its supertypes. The digest of a descriptor hashes its signature, a byte string in
which every name is preceded by its length and the supertype is represented by its own digest.
-/

namespace ObjectEnvelope

/-- What a type declares itself, without its supertypes. -/
structure Declaration where
  name : String
  kind : TypeKind
  /-- The own fields; those of an enum are its constants. -/
  fields : List Field
  interfaces : List String
  deriving DecidableEq

namespace Signature

/-- A length, in eight bytes. -/
def ofLength (n : Nat) : List UInt8 :=
  LittleEndian.ofNat 8 n

/-- A name, preceded by its length in bytes. -/
def ofName (name : String) : List UInt8 :=
  ofLength name.utf8ByteSize ++ Utf8.encode name

/-- A value type, preceded by the number of its form. -/
def ofValueType : ValueType → List UInt8
  | .primitive kind => [0, kind.code]
  | .reference name => 1 :: ofName name
  | .list element => 2 :: ofValueType element
  | .any => [3]

/-- A field: its name, its type and whether it is nullable. -/
def ofField (f : Field) : List UInt8 :=
  ofName f.name ++ ofValueType f.type ++ [if f.nullable then 1 else 0]

/-- The supertype: its digest in hexadecimal. -/
def ofParent : Option Digest → List UInt8
  | none => [0]
  | some digest => 1 :: Utf8.encode digest.text

/-- The items, preceded by their number. -/
def ofList {α : Type} (item : α → List UInt8) (items : List α) : List UInt8 :=
  ofLength items.length ++ items.flatMap item

end Signature

/-- The interfaces in the order of their code points, so that their order of declaration does not
matter. -/
def Declaration.sortedInterfaces (d : Declaration) : List String :=
  d.interfaces.mergeSort (· ≤ ·)

/-- The bytes that the digest of a type hashes, when the supertype has the digest `parent`. -/
def Declaration.signature (d : Declaration) (parent : Option Digest) : List UInt8 :=
  Signature.ofName d.name ++ [d.kind.code] ++ Signature.ofParent parent ++
    Signature.ofList Signature.ofName d.sortedInterfaces ++
    Signature.ofList Signature.ofField d.fields

/-- One type of a supertype chain, with the digest of its signature. -/
structure Level extends Declaration where
  digest : Digest
  deriving DecidableEq

/-- Every level, nearest first, has distinct fields and interfaces and the digest that its
declaration and the next level determine. -/
def Sealed : List Level → Prop
  | [] => True
  | level :: above =>
    level.digest = Digest.ofBytes (level.signature (above.head?.map (·.digest))) ∧
      (level.fields.map (·.name)).Nodup ∧ level.interfaces.Nodup ∧ Sealed above

/-- The level that a declaration makes below the levels `above`. -/
def Declaration.toLevel (d : Declaration) (above : List Level) : Level :=
  ⟨d, Digest.ofBytes (d.signature (above.head?.map (·.digest)))⟩

theorem Declaration.sealed_toLevel {d : Declaration} {above : List Level}
    (hfields : (d.fields.map (·.name)).Nodup) (hinterfaces : d.interfaces.Nodup)
    (habove : Sealed above) : Sealed (d.toLevel above :: above) :=
  ⟨rfl, hfields, hinterfaces, habove⟩

/-- A described type together with its supertypes, nearest first. -/
structure Descriptor where
  level : Level
  above : List Level
  isSealed : Sealed (level :: above)
  deriving DecidableEq

namespace Descriptor

/-- The name of the type. -/
def name (d : Descriptor) : String := d.level.name

/-- The kind of the type. -/
def kind (d : Descriptor) : TypeKind := d.level.kind

/-- The own fields in the order of declaration. -/
def fields (d : Descriptor) : List Field := d.level.fields

/-- The interfaces that the type declares itself, each once. -/
def interfaces (d : Descriptor) : List String := d.level.interfaces

/-- The hash of the signature. -/
def digest (d : Descriptor) : Digest := d.level.digest

/-- The supertype. -/
def parent? (d : Descriptor) : Option Descriptor :=
  match h : d.above with
  | [] => none
  | level :: above => some ⟨level, above, by have hs := d.isSealed; rw [h] at hs; exact hs.2.2.2⟩

/-- The bytes that the digest hashes. -/
def signature (d : Descriptor) : List UInt8 :=
  d.level.signature (d.above.head?.map (·.digest))

/-- The descriptors of a sealed chain, one for each of its levels. -/
def ofLevels : (levels : List Level) → Sealed levels → List Descriptor
  | [], _ => []
  | level :: above, h => ⟨level, above, h⟩ :: ofLevels above h.2.2.2

/-- The supertypes, nearest first. -/
def ancestors (d : Descriptor) : List Descriptor :=
  ofLevels d.above d.isSealed.2.2.2

/-- The type and its supertypes, nearest first. -/
def lineage (d : Descriptor) : List Descriptor :=
  d :: d.ancestors

/-- The own field called `name`. -/
def field? (d : Descriptor) (name : String) : Option Field :=
  d.fields.find? (·.name == name)

/-- The fields with `f` in the place of the field of its name, or at the end. -/
def overlay (f : Field) : List Field → List Field
  | [] => [f]
  | g :: rest => if g.name = f.name then f :: rest else g :: overlay f rest

/-- The fields of a chain, inherited ones first. A field that a lower level declares again keeps its
inherited place. -/
def fieldsOfLevels : List Level → List Field
  | [] => []
  | level :: above => level.fields.foldl (fun all f => overlay f all) (fieldsOfLevels above)

/-- The inherited and own fields. -/
def allFields (d : Descriptor) : List Field :=
  fieldsOfLevels (d.level :: d.above)

/-- Equality of structure: the same declaration up to the order of interfaces, over supertypes with
the same digest. -/
def same (a b : Descriptor) : Bool :=
  a.name == b.name && a.kind == b.kind && a.fields == b.fields &&
    a.above.head?.map (·.digest) == b.above.head?.map (·.digest) &&
    a.interfaces.length == b.interfaces.length && a.interfaces.all (b.interfaces.contains ·)

/-- The type with this declaration below the given supertype. A repeated field is refused, a
repeated interface counts once. -/
def declare (d : Declaration) (parent : Option Descriptor) : Except WireError Descriptor :=
  match h : firstRepeat? (d.fields.map (·.name)) with
  | some field => .error (.duplicateFieldName d.name field)
  | none =>
    let declaration : Declaration := { d with interfaces := d.interfaces.eraseDups }
    let above : { levels : List Level // Sealed levels } :=
      match parent with
      | none => ⟨[], trivial⟩
      | some p => ⟨p.level :: p.above, p.isSealed⟩
    have hfields : (declaration.fields.map (·.name)).Nodup := firstRepeat?_eq_none_iff.mp h
    have hinterfaces : declaration.interfaces.Nodup := nodup_eraseDups _
    .ok ⟨declaration.toLevel above.1, above.1,
      Declaration.sealed_toLevel hfields hinterfaces above.2⟩

end Descriptor

/-- The field with this type, unless it is a primitive that cannot be without a value and is to be
nullable. -/
def Field.declare (name : String) (type : ValueType) (nullable : Bool) : Except WireError Field :=
  if h : nullable = true → type.canBeNull = true then .ok ⟨name, type, nullable, h⟩
  else .error (.nullabilityViolation (.nullablePrimitive name type))

/-- The constant of the enum called `owner`. -/
def Field.constant (owner name : String) : Field :=
  .mandatory name (.reference owner)

end ObjectEnvelope
