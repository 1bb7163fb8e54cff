import ObjectEnvelope.Bytes.Reader
import ObjectEnvelope.Graph.ObjectGraph
import ObjectEnvelope.Payload.Tag
import ObjectEnvelope.Settings
import ObjectEnvelope.Types.CodecCache

/-!
# Decoding

A payload is read depth first into a new graph. Objects are added, and numbered, once they are
complete, so a back-reference can only name an object that precedes the one it stands in. Objects
and constants are checked against the declared type as they are met, all other values when they are
stored.
-/

namespace ObjectEnvelope

/-- What a decoding draws on. -/
structure Decoder where
  settings : Settings
  /-- The types that the places in the schema stand for. -/
  types : List RuntimeType

/-- How far a payload has been read. -/
structure Progress where
  reader : Reader
  graph : ObjectGraph
  /-- The objects with a number; the position of an object is its number. -/
  numbered : Array Handle

/-- The state before the first byte of a payload. -/
def Progress.start (payload : List UInt8) : Progress :=
  ⟨Reader.ofBytes payload, .empty, #[]⟩

/-- What a decoding has done so far. -/
structure Decoding extends Progress where
  codecs : CodecCache

/-- A reading step with a graph to add to. -/
abbrev Decode := Step Decoding

namespace Decode

/-- A step that only reads. -/
def read {α : Type} (step : Read α) : Decode α :=
  Step.on (·.reader) (fun s reader => { s with reader }) step

/-- The codec of a type where anything may stand. -/
def codec (t : RuntimeType) : Decode Codec :=
  Step.on Decoding.codecs (fun s codecs => { s with codecs }) (CodecCache.provide t .any)

/-- Adds an object to the graph. -/
def instantiate (type : RuntimeType) (values : List Value) : Decode Handle := do
  let s ← get
  let (h, graph) ← Step.ofExcept (s.graph.instantiate type values)
  set { s with graph }
  return h

/-- Gives a complete object the next number. -/
def number (h : Handle) : Decode Unit :=
  modify fun s => { s with numbered := s.numbered.push h }

/-- The object that a back-reference names. -/
def referent : Decode Handle := do
  let id ← read (Read.number 4)
  let s ← get
  match s.numbered[id]? with
  | some h => return h
  | none => throw (.referenceIntegrityViolation id s.numbered.size)

/-- The next tag. -/
def tag : Decode Tag := do
  let s ← get
  let code ← read Read.byte
  match Tag.ofCode? code with
  | some tag => return tag
  | none => throw (.invalidEnvelope (.valueTag code s.reader.offset))

end Decode

namespace Decoder

/-- The type at the next place, which must fit where `declared` stands. -/
def readType (d : Decoder) (declared : ValueType) : Decode RuntimeType := do
  let index ← Decode.read (Read.number 4)
  match d.types[index]? with
  | none => throw (.invalidEnvelope (.typeIndex index d.types.length))
  | some type =>
    if type.accepts declared then
      return type
    else
      throw (.schemaMismatch (.unfit declared type.name))

/-- The ordinal of a constant of a type. -/
def readOrdinal (type : RuntimeType) : Decode Value := do
  let ordinal ← Decode.read (Read.number 4)
  match Constant.ofOrdinal type ordinal with
  | .ok c => return .constant c
  | .error _ =>
    throw (.invalidEnvelope (.ordinalOutside ordinal type.name type.constants.length))

/-- The values of the slots of a type, after their number. `slot` reads the value of a slot. -/
def readSlots (slot : ValueType → Decode Value) (type : RuntimeType) : Decode Value := do
  let count ← Decode.read (Read.number 4)
  if count ≠ type.slots.length then
    throw (.invalidEnvelope (.slotCount type.name type.slots.length count))
  let values ← Step.each (fun f => slot f.type) type.slots
  return .object (← Decode.instantiate type values)

/-- The body of a value of a type: what follows its type. -/
def readBody (slot : ValueType → Decode Value) (type : RuntimeType) : BodyForm → Decode Value
  | .slots => readSlots slot type
  | .ordinal => readOrdinal type

/-- A constant, after its tag. -/
def readConstant (d : Decoder) (slot : ValueType → Decode Value) (declared : ValueType) :
    Decode Value := do
  let type ← d.readType declared
  if type.kind ≠ .enumeration then
    throw (.invalidEnvelope (.constantOfKind type.kind type.name))
  let codec ← Decode.codec type
  readBody slot codec.type codec.form

/-- An object, after its tag. -/
def readObject (d : Decoder) (slot : ValueType → Decode Value) (declared : ValueType) :
    Decode Value := do
  let type ← d.readType declared
  if !type.isInstantiable then
    throw (.invalidEnvelope (.objectOfKind type.kind type.name))
  let codec ← Decode.codec type
  readBody slot codec.type codec.form

/-- A list, after its tag. `item` reads an item of a declared type. -/
def readList (d : Decoder) (item : ValueType → Decode Value) (declared : ValueType) :
    Decode Value :=
  match declared.element? with
  | none => throw (.schemaMismatch (.unfit declared "list"))
  | some element => do
    let count ← Decode.read (Read.length 1)
    if d.settings.maxListLength < count then
      throw (.invalidEnvelope (.listTooLong count d.settings.maxListLength))
    return .list (← Step.times (item element) count)

/-- Numbers the object that was read. -/
def numbering (step : Decode Value) : Decode Value := do
  let value ← step
  if let .object h := value then
    Decode.number h
  return value

/-- The next value where `declared` stands. At most `room` values, itself included, may be nested in
each other. -/
def readValue (d : Decoder) : (room : Nat) → ValueType → Decode Value
  | 0, _ => throw (.invalidEnvelope (.nestsTooDeep d.settings.maxDepth))
  | room + 1, declared => do
    match ← Decode.tag with
    | .null => return .null
    | .primitive kind => return .primitive (← Decode.read (Primitive.read kind))
    | .list => d.readList (readValue d room) declared
    | .constant => d.readConstant (readValue d room) declared
    | .object => numbering (d.readObject (readValue d room) declared)
    | .inlineObject => d.readObject (readValue d room) declared
    | .backReference => return .object (← Decode.referent)

/-- The root value, which must end with the payload. -/
def readRoot (d : Decoder) : Decode Value := do
  let root ← d.readValue (d.settings.roomAt 0) .any
  let s ← get
  if !s.reader.isExhausted then
    throw (.invalidEnvelope (.trailingPayload s.reader.remaining))
  return root

end Decoder

end ObjectEnvelope
