import ObjectEnvelope.Bytes.Reader

/-!
# Wire items

The items that every larger format is made of, as values: a sequence of items can be written, and
read back when their shapes are known.
-/

namespace ObjectEnvelope

/-- One item on the wire. -/
inductive WireItem where
  | scalar (s : Scalar)
  /-- Bytes as they are. -/
  | raw (bytes : List UInt8)
  /-- The number of items that follow. -/
  | length (n : Nat)
  /-- Bytes after their number. -/
  | blob (bytes : List UInt8)
  /-- Text in UTF-8 after its number of bytes. -/
  | text (content : String)
  deriving DecidableEq

namespace WireItem

/-- What a reader must know of an item beforehand. -/
inductive Shape where
  | scalar (kind : ScalarKind)
  | raw (count : Nat)
  /-- A number of items of at least `itemSize` bytes each. -/
  | length (itemSize : Nat)
  | blob
  | text

/-- The bytes of the item. -/
def encode : WireItem → Except WireError (List UInt8)
  | scalar s => .ok s.encode
  | raw bytes => .ok bytes
  | length n => Write.length n
  | blob bytes => Write.blob bytes
  | text content => Write.text content

/-- Appends the item to the bytes written so far, or leaves them as they are. -/
def write (item : WireItem) : Step (List UInt8) Unit := fun written =>
  match item.encode with
  | .ok bytes => .ok () (written ++ bytes)
  | .error e => .error e written

/-- The next item of the shape. -/
def Shape.read : Shape → Read WireItem
  | scalar kind => return .scalar (← Read.scalar kind)
  | raw count => return .raw (← Read.raw count)
  | length itemSize => return .length (← Read.length itemSize)
  | blob => return .blob (← Read.blob)
  | text => return .text (← Read.text)

/-- What a step leaves behind: its result and the state after it. -/
structure Trace (α σ : Type) where
  result : Except WireError α
  after : σ

/-- One step from a state. -/
def trace {α σ : Type} (step : Step σ α) (before : σ) : Trace α σ :=
  match step before with
  | .ok a after => ⟨.ok a, after⟩
  | .error e after => ⟨.error e, after⟩

/-- The traces of the steps, each from the state that the one before it left, failed or not. -/
def traces {α σ : Type} : List (Step σ α) → σ → List (Trace α σ)
  | [], _ => []
  | step :: rest, before =>
    let t := trace step before
    t :: traces rest t.after

end WireItem

end ObjectEnvelope
