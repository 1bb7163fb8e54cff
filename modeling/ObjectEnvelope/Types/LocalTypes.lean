import ObjectEnvelope.Step
import ObjectEnvelope.Types.RuntimeType

/-!
# Local types

The types that an application declares, found by name. A name is bound once: registering the same
structure again returns the type that holds the name, and another structure is refused.
-/

namespace ObjectEnvelope

/-- The registered types, oldest first. -/
structure LocalTypes where
  /-- Tells the types of this collection from those of others. -/
  home : Nat
  types : List RuntimeType

namespace LocalTypes

/-- The collection without types. -/
def empty (home : Nat) : LocalTypes := ⟨home, []⟩

/-- The type registered under a name. -/
def lookup? (locals : LocalTypes) (name : String) : Option RuntimeType :=
  locals.types.find? (·.name == name)

/-- The registered type with the name and the digest of a descriptor. -/
def find? (locals : LocalTypes) (d : Descriptor) : Option RuntimeType :=
  (locals.lookup? d.name).filter (·.digest == d.digest)

/-- Binds the name of a descriptor, its supertypes aside. -/
def bindName (d : Descriptor) : Step LocalTypes RuntimeType := fun locals =>
  match locals.lookup? d.name with
  | some held =>
    if held.digest = d.digest then .ok held locals
    else .error (.notSerializable (.nameRegistered d.name held.digest d.digest)) locals
  | none =>
    match RuntimeType.create ⟨.known, locals.home, locals.types.length⟩ d.digest d with
    | .ok type => .ok type { locals with types := locals.types ++ [type] }
    | .error e => .error e locals

/-- Registers a descriptor after its supertypes, the topmost first. What was bound before a failure
stays bound. -/
def register (d : Descriptor) : Step LocalTypes RuntimeType := do
  d.ancestors.reverse.forM fun ancestor => discard (bindName ancestor)
  bindName d

end LocalTypes

end ObjectEnvelope
