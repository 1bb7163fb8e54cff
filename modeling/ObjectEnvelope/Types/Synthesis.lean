import ObjectEnvelope.Step
import ObjectEnvelope.Types.RuntimeType

/-!
# Synthesized types

Types made from descriptors that no local type matches. They are kept under a digest of their
descriptor for good, so that equal descriptors share one type; a descriptor whose digest another
structure holds is refused.
-/

namespace ObjectEnvelope

/-- The synthesized types, oldest first. -/
structure SynthesisCache where
  /-- Tells the types of this collection from those of others. -/
  home : Nat
  /-- The digest that a descriptor is kept under. -/
  key : Descriptor → Digest
  types : List RuntimeType

namespace SynthesisCache

/-- The collection without types that keeps descriptors under their own digest. -/
def empty (home : Nat) : SynthesisCache := ⟨home, Descriptor.digest, []⟩

/-- The type kept under a digest. -/
def get? (cache : SynthesisCache) (digest : Digest) : Option RuntimeType :=
  cache.types.find? (·.digest == digest)

/-- The type already made for a descriptor, unless another descriptor holds its digest. -/
def cached (cache : SynthesisCache) (d : Descriptor) : Except WireError (Option RuntimeType) :=
  match cache.get? (cache.key d) with
  | none => .ok none
  | some held =>
    if held.descriptor.same d then .ok (some held)
    else .error (.synthesisFailure (.digestTaken (cache.key d) d.name held.name))

/-- The type for a descriptor, its supertypes aside, made if it is new. -/
def synthesizeOne (d : Descriptor) : Step SynthesisCache RuntimeType := fun cache =>
  match cache.cached d with
  | .error e => .error e cache
  | .ok (some held) => .ok held cache
  | .ok none =>
    match RuntimeType.create ⟨.synthesized, cache.home, cache.types.length⟩ (cache.key d) d with
    | .ok type => .ok type { cache with types := cache.types ++ [type] }
    | .error e => .error e cache

/-- The supertypes still to be made, nearest first, up to the first that is known locally or already
made. -/
def missing (cache : SynthesisCache) (isLocal : Descriptor → Bool) :
    List Descriptor → Except WireError (List Descriptor)
  | [] => .ok []
  | ancestor :: above =>
    if isLocal ancestor then .ok []
    else
      match cache.cached ancestor with
      | .error e => .error e
      | .ok (some _) => .ok []
      | .ok none => (cache.missing isLocal above).map (ancestor :: ·)

/-- The type for a descriptor, made after its missing supertypes, the topmost first. What was made
before a failure stays. -/
def synthesize (isLocal : Descriptor → Bool) (d : Descriptor) :
    Step SynthesisCache RuntimeType := do
  let ancestors ← Step.ofExcept ((← get).missing isLocal d.ancestors)
  ancestors.reverse.forM fun ancestor => discard (synthesizeOne ancestor)
  synthesizeOne d

end SynthesisCache

end ObjectEnvelope
