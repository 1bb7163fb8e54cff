import ObjectEnvelope.Envelope.Entry
import ObjectEnvelope.Types.LocalTypes
import ObjectEnvelope.Types.Synthesis

/-!
# Schema resolution

A schema entry stands for the local type of its name and digest, and otherwise for a synthesized
type. Its digest hangs on that of its supertype, so entries are resolved after the entries that they
name, along chains of limited length; entries that need each other are refused.
-/

namespace ObjectEnvelope

/-- A schema entry with its place. -/
structure PlacedEntry where
  entry : SchemaEntry
  place : Nat

/-- What a resolution draws on. -/
structure Resolver where
  schema : List SchemaEntry
  locals : LocalTypes
  /-- The largest number of entries of which each needs the next. -/
  maxChain : Nat

/-- What a resolution has done so far. -/
structure Resolution where
  synthesis : SynthesisCache
  /-- The types found, with the places of their entries, the latest first. -/
  resolved : List (Nat × RuntimeType)

/-- A step of a resolution. -/
abbrev Resolve := Step Resolution

/-- The type found for the entry at a place. -/
def Resolution.typeAt? (s : Resolution) (place : Nat) : Option RuntimeType :=
  s.resolved.lookup place

namespace Resolver

/-- The entries with their places, in order. -/
def placed (r : Resolver) : List PlacedEntry :=
  r.schema.zipIdx.map fun (entry, place) => ⟨entry, place⟩

/-- The entry called `name`; of several the last. -/
def entry? (r : Resolver) (name : String) : Option PlacedEntry :=
  r.placed.reverse.find? (·.entry.name == name)

/-- The entries that an entry names, its supertype first. -/
def needs (r : Resolver) (entry : SchemaEntry) : List PlacedEntry :=
  (entry.parent?.toList ++ entry.interfaces).filterMap r.entry?

/-- The descriptor of the supertype called `name` of the type called `child`: that of the schema,
and only where the schema has none that of the local type. -/
def parent (r : Resolver) (s : Resolution) (name child : String) : Except WireError Descriptor :=
  let described := (r.entry? name).bind fun p => s.typeAt? p.place
  match described <|> r.locals.lookup? name with
  | some type => .ok type.descriptor
  | none => .error (.synthesisFailure (.unknownSupertype name child))

/-- The descriptor of an entry whose supertype is resolved. -/
def describe (r : Resolver) (s : Resolution) (entry : SchemaEntry) :
    Except WireError Descriptor := do
  let parent ← entry.parent?.mapM fun name => r.parent s name entry.name
  Descriptor.declare ⟨entry.name, entry.kind, entry.fields, entry.interfaces⟩ parent

/-- The type of a descriptor: the local one, or else a synthesized one. -/
def typeOf (r : Resolver) (d : Descriptor) : Resolve RuntimeType :=
  match r.locals.find? d with
  | some type => return type
  | none =>
    Step.on Resolution.synthesis (fun s synthesis => { s with synthesis })
      (SynthesisCache.synthesize (fun ancestor => (r.locals.find? ancestor).isSome) d)

/-- Resolves an entry whose needs are resolved. -/
def build (r : Resolver) (p : PlacedEntry) : Resolve RuntimeType := do
  let d ← Step.ofExcept (r.describe (← get) p.entry)
  let type ← r.typeOf d
  modify fun s => { s with resolved := (p.place, type) :: s.resolved }
  return type

/-- Resolves what an entry needs and is not resolved yet, then the entry. The entries of `path` wait
for it. -/
def settle (r : Resolver) (deeper : PlacedEntry → Resolve RuntimeType) (path : List Nat)
    (p : PlacedEntry) : Resolve RuntimeType := do
  (r.needs p.entry).forM fun need => do
    if ((← get).typeAt? need.place).isNone then
      if need.place ∈ p.place :: path then
        throw (.synthesisFailure (.cyclicDependency need.entry.name))
      discard (deeper need)
  r.build p

/-- Resolves an entry below `root`, when the chain may have `room` further entries. -/
def visit (r : Resolver) (root : String) :
    (room : Nat) → (path : List Nat) → PlacedEntry → Resolve RuntimeType
  | 0, path, p =>
    r.settle (fun _ => throw (.synthesisFailure (.dependenciesTooDeep root r.maxChain))) path p
  | room + 1, path, p => r.settle (visit r root room (p.place :: path)) path p

/-- The type of an entry, resolved at most once. -/
def resolve (r : Resolver) (p : PlacedEntry) : Resolve RuntimeType := do
  match (← get).typeAt? p.place with
  | some type => return type
  | none => r.visit p.entry.name (r.maxChain - 1) [] p

/-- The types of all entries, in order. -/
def resolveAll (r : Resolver) : Resolve (List RuntimeType) :=
  Step.each r.resolve r.placed

end Resolver

end ObjectEnvelope
