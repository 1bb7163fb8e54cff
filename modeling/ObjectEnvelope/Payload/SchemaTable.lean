import ObjectEnvelope.Envelope.Entry
import ObjectEnvelope.Types.LocalTypes

/-!
# The schema of a payload

The descriptors of the types met so far, each name once. The values of a type refer to it by the
place of its name. `LocalTypes.closure` lists what a type brings along: its supertypes, and the
local types that its interfaces and theirs are.
-/

namespace ObjectEnvelope

/-- A local type called `name` with its supertypes, if there is one. -/
def LocalTypes.lineageOf (locals : LocalTypes) (name : String) : List Descriptor :=
  match locals.lookup? name with
  | some known => known.descriptor.lineage
  | none => []

/-- The descriptors that describe a type: itself and its supertypes, each followed by those of its
interfaces that are local types, with their supertypes. -/
def LocalTypes.closure (locals : LocalTypes) (t : RuntimeType) : List Descriptor :=
  t.descriptor.lineage.flatMap fun d => d :: d.interfaces.flatMap locals.lineageOf

/-- The descriptors met so far, and the digests of the types that brought them. -/
structure SchemaTable where
  described : List Digest
  descriptors : List Descriptor

namespace SchemaTable

/-- The table without descriptors. -/
def empty : SchemaTable := ⟨[], []⟩

/-- The largest number of descriptors that places can name. -/
def capacity : Nat := UInt32.size

/-- The place of the descriptor called `name`. -/
def index? (table : SchemaTable) (name : String) : Option Nat :=
  table.descriptors.findIdx? (·.name == name)

/-- Adds a descriptor, unless its name is taken by one of the same digest. One of another digest
refuses it. -/
def add (table : SchemaTable) (d : Descriptor) : Except WireError SchemaTable :=
  match table.descriptors.find? (·.name == d.name) with
  | some held =>
    if held.digest = d.digest then .ok table
    else .error (.notSerializable (.nameShared d.name))
  | none =>
    if capacity ≤ table.descriptors.length then .error (.notSerializable .tooManyTypes)
    else .ok { table with descriptors := table.descriptors ++ [d] }

/-- Adds the descriptors in order. -/
def addAll (table : SchemaTable) (ds : List Descriptor) : Except WireError SchemaTable :=
  ds.foldlM add table

/-- Adds what describes a type, the first time that a type of its digest is met. -/
def describe (table : SchemaTable) (locals : LocalTypes) (t : RuntimeType) :
    Except WireError SchemaTable :=
  if t.digest ∈ table.described then .ok table
  else addAll { table with described := t.digest :: table.described } (locals.closure t)

/-- The entries of the schema. -/
def entries (table : SchemaTable) : List SchemaEntry :=
  table.descriptors.map SchemaEntry.ofDescriptor

end SchemaTable

end ObjectEnvelope
