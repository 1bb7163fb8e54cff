import ObjectEnvelope.Envelope.Framing
import ObjectEnvelope.Graph.ObjectGraph
import ObjectEnvelope.Payload.SchemaTable
import ObjectEnvelope.Payload.Tag
import ObjectEnvelope.Settings
import ObjectEnvelope.Types.CodecCache

/-!
# Encoding

A payload is written depth first from the root. An object gets the next number once it is complete,
and is referred to by that number from then on; objects of inline types get none and are written
anew. An object inside itself has no encoding, so the objects being written are kept as a path.
-/

namespace ObjectEnvelope

/-- What an encoding draws on. -/
structure Encoder where
  settings : Settings
  locals : LocalTypes
  graph : ObjectGraph

/-- What an encoding has done so far. -/
structure Encoding where
  /-- The complete objects; the position of an object is its number. -/
  numbered : Array Handle
  schema : SchemaTable
  codecs : CodecCache

/-- A writing step: the bytes it returns come after those of the steps before it. -/
abbrev Encode := Step Encoding

namespace Encoding

/-- The state before the first step. -/
def start (codecs : CodecCache) : Encoding := ⟨#[], .empty, codecs⟩

/-- The largest number of objects that can be numbered. -/
def capacity : Nat := UInt32.size

end Encoding

namespace Encode

/-- The codec of a type where `declared` stands. -/
def codec (t : RuntimeType) (declared : ValueType) : Encode Codec :=
  Step.on Encoding.codecs (fun s codecs => { s with codecs }) (CodecCache.provide t declared)

/-- Adds what describes a type to the schema. -/
def describe (locals : LocalTypes) (t : RuntimeType) : Encode Unit := do
  let s ← get
  let schema ← Step.ofExcept (s.schema.describe locals t)
  set { s with schema }

/-- Gives a complete object the next number. -/
def number (h : Handle) : Encode Unit := do
  let s ← get
  if Encoding.capacity ≤ s.numbered.size then
    throw (.notSerializable .tooManyObjects)
  set { s with numbered := s.numbered.push h }

/-- The place of a type in the schema. -/
def typeIndex (t : RuntimeType) : Encode (List UInt8) := do
  match (← get).schema.index? t.name with
  | some index => return LittleEndian.ofNat 4 index
  | none => throw (.notSerializable (.undescribedType t.name))

/-- The bytes of the items, one after the other. -/
def all {α : Type} (item : α → Encode (List UInt8)) (items : List α) : Encode (List UInt8) :=
  return (← Step.each item items).flatten

end Encode

namespace Encoder

/-- The failure of a value that may not stand where `declared` is declared. -/
def unfit (e : Encoder) (declared : ValueType) (value : Value) : WireError :=
  .notSerializable (.unfit (e.graph.describe value) declared)

/-- The body of a value of a type: what follows its tag. `slot` writes the value of a slot. -/
def writeBody (e : Encoder) (slot : ValueType → Value → Encode (List UInt8)) (type : RuntimeType) :
    BodyForm → Value → Encode (List UInt8)
  | .slots, .object h =>
    match e.graph.get? h with
    | none => throw (.notSerializable (.dangling h))
    | some o => do
      let index ← Encode.typeIndex type
      let count ← Step.ofExcept (Write.length type.slots.length)
      let fields ← Encode.all (fun (f, value) => slot f.type value) (type.slots.zip o.fields)
      return index ++ count ++ fields
  | .slots, _ => throw (.notSerializable (.notAnObject type.name))
  | .ordinal, .constant c => return (← Encode.typeIndex type) ++ LittleEndian.ofNat 4 c.ordinal
  | .ordinal, _ => throw (.notSerializable (.notAConstant type.name))

/-- A constant where `declared` stands. -/
def writeConstant (e : Encoder) (declared : ValueType) (c : Constant) : Encode (List UInt8) := do
  let codec ← Encode.codec c.type declared
  Encode.describe e.locals codec.type
  let body ← e.writeBody (fun _ _ => return []) codec.type codec.form (.constant c)
  return Tag.constant.code :: body

/-- An object that has no number, inside the objects of `path`. -/
def writeNew (e : Encoder) (slot : ValueType → Value → Encode (List UInt8)) (path : List Handle)
    (form : BodyForm) (type : RuntimeType) (h : Handle) : Encode (List UInt8) := do
  if h ∈ path then
    throw (.notSerializable (.cycle type.name h))
  let body ← e.writeBody slot type form (.object h)
  if e.settings.isInline type.name then
    return Tag.inlineObject.code :: body
  else
    Encode.number h
    return Tag.object.code :: body

/-- An object where `declared` stands, inside the objects of `path`. -/
def writeObject (e : Encoder) (slot : ValueType → Value → Encode (List UInt8)) (path : List Handle)
    (declared : ValueType) (h : Handle) : Encode (List UInt8) :=
  match e.graph.get? h with
  | none => throw (.notSerializable (.dangling h))
  | some o => do
    let codec ← Encode.codec o.type declared
    Encode.describe e.locals codec.type
    match (← get).numbered.idxOf? h with
    | some id => return Tag.backReference.code :: LittleEndian.ofNat 4 id
    | none => e.writeNew slot path codec.form codec.type h

/-- A value where `declared` stands, inside the objects of `path`. At most `room` values, itself
included, may be nested in each other. -/
def writeValue (e : Encoder) :
    (room : Nat) → (path : List Handle) → ValueType → Value → Encode (List UInt8)
  | 0, _, _, _ => throw (.notSerializable (.nestsTooDeep e.settings.maxDepth))
  | room + 1, path, declared, value =>
    match value with
    | .null =>
      if declared.canBeNull then return [Tag.null.code]
      else throw (.nullabilityViolation (.nullElement declared))
    | .primitive p => do
      if !declared.admits p.kind then
        throw (e.unfit declared value)
      return (Tag.primitive p.kind).code :: (← Step.ofExcept p.encode)
    | .list items =>
      match declared.element? with
      | none => throw (e.unfit declared value)
      | some element => do
        let count ← Step.ofExcept (Write.length items.length)
        let body ← Encode.all (writeValue e room path element) items
        return Tag.list.code :: (count ++ body)
    | .constant c => e.writeConstant declared c
    | .object h => e.writeObject (writeValue e room (h :: path)) path declared h

/-- The envelope of a root value. -/
def writeRoot (e : Encoder) (root : Value) : Encode Envelope := do
  if root.isNull then
    throw (.notSerializable .nullRoot)
  let payload ← e.writeValue (e.settings.roomAt 0) [] .any root
  return ⟨payload, (← get).schema.entries⟩

end Encoder

end ObjectEnvelope
