/-!
# Settings

The limits that an endpoint keeps to, and the types whose objects it writes anew at every
occurrence.
-/

namespace ObjectEnvelope

/-- What an endpoint may be told. -/
structure Settings where
  /-- The names of the types whose objects are written in place each time and never referred back
  to. -/
  inlineTypes : List String
  /-- The largest depth of a value below the root, and the longest chain of described types of which
  each needs the next. -/
  maxDepth : Nat
  /-- The largest number of items of a list that is read. -/
  maxListLength : Nat

namespace Settings

/-- No inline types, and limits that ordinary graphs do not meet. -/
def standard : Settings := ⟨[], 512, 1 <<< 24⟩

/-- Whether objects of the type called `name` are written in place each time. -/
def isInline (s : Settings) (name : String) : Bool :=
  s.inlineTypes.contains name

/-- How many values may be nested in each other from a depth on. -/
def roomAt (s : Settings) (depth : Nat) : Nat :=
  s.maxDepth + 1 - depth

end Settings

end ObjectEnvelope
