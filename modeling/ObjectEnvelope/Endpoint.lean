import ObjectEnvelope.Envelope.Resolution
import ObjectEnvelope.Payload.Decoder
import ObjectEnvelope.Payload.Encoder

/-!
# Endpoints

An endpoint holds what outlives a call: the local types, the types synthesized so far and the
codecs. Encoding changes only the codecs, decoding the codecs and the synthesized types, and either
keeps what it added when it fails.
-/

namespace ObjectEnvelope

/-- The types and codecs of one party. -/
structure Endpoint where
  locals : LocalTypes
  synthesis : SynthesisCache
  codecs : CodecCache

/-- A graph that was read, with its root. -/
structure DecodedGraph where
  graph : ObjectGraph
  root : Value

/-! ## Root checks -/

/-- The type of an object or constant. -/
def ObjectGraph.typeOf? (g : ObjectGraph) : Value → Option RuntimeType
  | .object h => (g.get? h).map (·.type)
  | .constant c => some c.type
  | .null | .primitive _ | .list _ => none

/-- How a root of the expected name differs from the local type of that name. -/
def LocalTypes.rootFault? (locals : LocalTypes) (g : ObjectGraph) (expected : ValueType)
    (root : Value) : Option Mismatch :=
  match expected with
  | .reference name => do
    let found ← g.typeOf? root
    let held ← locals.lookup? name
    if found.name = name ∧ found.digest ≠ held.digest then
      some (.rootDigest name held.digest found.name found.digest)
    else none
  | .primitive _ | .list _ | .any => none

/-- Checks a root against what is expected. A root is never without a value. -/
def LocalTypes.checkRoot (locals : LocalTypes) (g : ObjectGraph) (expected : ValueType)
    (root : Value) : Except WireError Unit :=
  match locals.rootFault? g expected root with
  | some fault => .error (.schemaMismatch fault)
  | none =>
    if root.isNull then .error (.schemaMismatch (.unfit expected "null"))
    else g.checkValue expected root

namespace Endpoint

/-- The endpoint without types and codecs. -/
def empty (home : Nat) : Endpoint := ⟨.empty home, .empty home, .empty⟩

/-- The endpoint of all who make none of their own. -/
def shared : Endpoint := empty 0

/-- Registers a local type. -/
def register (d : Descriptor) : Step Endpoint RuntimeType :=
  Step.on Endpoint.locals (fun s locals => { s with locals }) (LocalTypes.register d)

/-- Synthesizes a type, its supertypes aside that are known elsewhere. -/
def synthesize (isLocal : Descriptor → Bool) (d : Descriptor) : Step Endpoint RuntimeType :=
  Step.on Endpoint.synthesis (fun s synthesis => { s with synthesis })
    (SynthesisCache.synthesize isLocal d)

/-- The codec of a type where `declared` stands. -/
def codec (t : RuntimeType) (declared : ValueType) : Step Endpoint Codec := do
  let s ← get
  let (codec, codecs) ← Step.ofExcept (s.codecs.request t declared)
  set { s with codecs }
  return codec

/-! ## Encoding -/

/-- Runs an encoding with the local types and the codecs of the endpoint. -/
def encoding {α : Type} (settings : Settings) (graph : ObjectGraph)
    (step : Encoder → Encode α) : Step Endpoint α := do
  let encoder : Encoder := ⟨settings, (← get).locals, graph⟩
  Step.on (fun s => Encoding.start s.codecs) (fun s after => { s with codecs := after.codecs })
    (step encoder)

/-- The envelope of the graph that a root leads to. -/
def encode (settings : Settings) (graph : ObjectGraph) (root : Value) : Step Endpoint Envelope :=
  encoding settings graph fun e => e.writeRoot root

/-- The envelope of a root whose payload begins with the body of another value, written at a depth
with a given codec. -/
def encodeAfterBody (settings : Settings) (graph : ObjectGraph) (c : Codec) (value : Value)
    (depth : Nat) (root : Value) : Step Endpoint Envelope :=
  encoding settings graph fun e => do
    let slot := e.writeValue (settings.roomAt (depth + 1)) []
    let body ← e.writeBody slot c.type c.form value
    let envelope ← e.writeRoot root
    return { envelope with payload := body ++ envelope.payload }

/-! ## Decoding -/

/-- Runs a decoding with the codecs of the endpoint, from where `progress` stands. -/
def decoding {α : Type} (progress : Progress) (step : Decode α) : Step Endpoint (α × Progress) :=
  Step.on (fun s => ⟨progress, s.codecs⟩) (fun s after => { s with codecs := after.codecs }) do
    let a ← step
    return (a, (← get).toProgress)

/-- The types of the entries of a schema. -/
def resolve (settings : Settings) (schema : List SchemaEntry) :
    Step Endpoint (List RuntimeType) := do
  let resolver : Resolver := ⟨schema, (← get).locals, settings.maxDepth⟩
  Step.on (fun s => ⟨s.synthesis, []⟩) (fun s after => { s with synthesis := after.synthesis })
    resolver.resolveAll

/-- Reads the root where `progress` stands, and checks it against what is expected. -/
def decodeFrom (settings : Settings) (schema : List SchemaEntry) (expected : ValueType)
    (progress : Progress) : Step Endpoint DecodedGraph := do
  let types ← resolve settings schema
  let (root, after) ← decoding progress (Decoder.readRoot ⟨settings, types⟩)
  Step.ofExcept ((← get).locals.checkRoot after.graph expected root)
  return ⟨after.graph, root⟩

/-- The graph in an envelope, whose root must fit what is expected. -/
def decode (settings : Settings) (envelope : Envelope) (expected : ValueType) :
    Step Endpoint DecodedGraph :=
  decodeFrom settings envelope.schema expected (Progress.start envelope.payload)

/-- The graph in a frame, whose root must fit what is expected. -/
def decodeBytes (settings : Settings) (bytes : List UInt8) (expected : ValueType) :
    Step Endpoint DecodedGraph := do
  let envelope ← Step.ofExcept (Envelope.ofBytes bytes)
  decode settings envelope expected

/-- The value whose body begins a payload, read at a depth with a given codec before any type of the
schema is known. -/
def readBody (settings : Settings) (c : Codec) (depth : Nat) (payload : List UInt8) :
    Step Endpoint (Value × Progress) :=
  let slot := Decoder.readValue ⟨settings, []⟩ (settings.roomAt (depth + 1))
  decoding (Progress.start payload) (Decoder.readBody slot c.type c.form)

end Endpoint

end ObjectEnvelope
