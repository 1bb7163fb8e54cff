/-!
# Handles

A handle names an object of a graph by its position. Two slots with the same handle share one
object.
-/

namespace ObjectEnvelope

/-- The position of an object in its graph. -/
structure Handle where
  index : Nat
  deriving DecidableEq, Repr

/-- The handle as messages show it. -/
def Handle.text (h : Handle) : String :=
  s!"ObjectRef({h.index})"

end ObjectEnvelope
