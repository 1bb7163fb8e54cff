import ObjectEnvelope.Envelope.Entry

/-!
# Envelopes

An envelope is an encoded value with the schema of the types in it. Its frame is a header of eight
bytes, the payload and the schema, each behind its own mark and length:

    magic | major | minor | 0xA0 | length | payload | 0xA1 | length | schema

A reader accepts any minor version, and otherwise exactly the frames that a writer produces.
-/

namespace ObjectEnvelope

/-- An encoded value and the description of its types. -/
structure Envelope where
  payload : List UInt8
  schema : List SchemaEntry
  deriving DecidableEq

namespace Envelope

/-- The bytes that every frame begins with: "tywr". -/
def magic : List UInt8 := [0x74, 0x79, 0x77, 0x72]

/-- The version that must agree. -/
def majorVersion : Nat := 1

/-- The version that is written and not compared. -/
def minorVersion : Nat := 0

/-- The number of bytes before the first mark. -/
def headerLength : Nat := 8

/-- The mark of the payload. -/
def payloadMark : UInt8 := 0xA0

/-- The mark of the schema. -/
def schemaMark : UInt8 := 0xA1

/-- The bytes before the first mark. -/
def header : List UInt8 :=
  magic ++ LittleEndian.ofNat 2 majorVersion ++ LittleEndian.ofNat 2 minorVersion

/-- The frame of the envelope. -/
def toBytes (e : Envelope) : Except WireError (List UInt8) := do
  let schema ← Write.counted SchemaEntry.write e.schema
  let payload ← Write.blob e.payload
  let schema ← Write.blob schema
  return header ++ [payloadMark] ++ payload ++ [schemaMark] ++ schema

/-- Reads a mark, which must be the expected one. -/
def readMark (expected : UInt8) : Read Unit := do
  let found ← Read.byte
  if found ≠ expected then
    throw (.invalidEnvelope (.sectionTag expected found))

/-- Reads the header. -/
def readHeader : Read Unit := do
  let found ← Read.raw magic.length
  if found ≠ magic then
    throw (.invalidEnvelope .badMagic)
  let major ← Read.number 2
  let minor ← Read.number 2
  if major ≠ majorVersion then
    throw (.invalidEnvelope (.unsupportedVersion major minor))

/-- The next `count` entries, none of them called as another or as one of `seen`. -/
def readEntries : (count : Nat) → (seen : List String) → Read (List SchemaEntry)
  | 0, _ => return []
  | count + 1, seen => do
    let entry ← SchemaEntry.read
    if entry.name ∈ seen then
      throw (.invalidEnvelope (.describedTwice entry.name))
    return entry :: (← readEntries count (entry.name :: seen))

/-- Reads a whole schema, to its last byte. -/
def readSchema : Read (List SchemaEntry) := do
  let entries ← readEntries (← Read.length SchemaEntry.minSize) []
  if !(← get).isExhausted then
    throw (.invalidEnvelope .trailingSchema)
  return entries

/-- Reads the payload and the bytes of the schema, to the last byte of the frame. -/
def readSections : Read (List UInt8 × List UInt8) := do
  readMark payloadMark
  let payload ← Read.blob
  readMark schemaMark
  let schema ← Read.blob
  let reader ← get
  if !reader.isExhausted then
    throw (.invalidEnvelope (.trailingBytes reader.remaining))
  return (payload, schema)

/-- The envelope in a frame. -/
def ofBytes (bytes : List UInt8) : Except WireError Envelope := do
  if bytes.length < headerLength then
    throw (.invalidEnvelope (.shortHeader bytes.length))
  let (payload, schema) ← Step.outcome (do readHeader; readSections) (Reader.ofBytes bytes)
  let entries ← Step.outcome readSchema (Reader.ofBytes schema)
  return ⟨payload, entries⟩

end Envelope

end ObjectEnvelope
