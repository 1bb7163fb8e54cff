/-!
# UTF-8

Names and strings travel as UTF-8. `encode` and `decode` are inverse: every text has one encoding,
and only encodings of texts are decoded. `Fault` says where the bytes stop being well formed.
-/

namespace ObjectEnvelope.Utf8

/-- Why bytes are no text. Positions count bytes from zero. -/
inductive Fault where
  /-- The `length` bytes from `start` begin no character, whatever follows them. -/
  | invalid (length start : Nat)
  /-- The bytes end inside the character that begins at `start`. -/
  | incomplete (start : Nat)
  deriving DecidableEq, Repr

/-- The wording of a fault. -/
def Fault.message : Fault → String
  | .invalid length start => s!"invalid utf-8 sequence of {length} bytes from index {start}"
  | .incomplete start => s!"incomplete utf-8 byte sequence from index {start}"

/-- Bounds of a byte, both included. -/
structure Range where
  low : UInt8
  high : UInt8

/-- The bounds of a continuation byte that nothing narrows. -/
def continuation : Range := ⟨0x80, 0xBF⟩

/-- The bytes that must follow a first byte, or `none` when no character begins with it. The
narrowed bounds exclude overlong forms, surrogates and code points above `10FFFF`. -/
def followers (first : UInt8) : Option (List Range) :=
  if first < 0x80 then some []
  else if first < 0xC2 then none
  else if first < 0xE0 then some [continuation]
  else if first = 0xE0 then some [⟨0xA0, 0xBF⟩, continuation]
  else if first = 0xED then some [⟨0x80, 0x9F⟩, continuation]
  else if first < 0xF0 then some [continuation, continuation]
  else if first = 0xF0 then some [⟨0x90, 0xBF⟩, continuation, continuation]
  else if first < 0xF4 then some [continuation, continuation, continuation]
  else if first = 0xF4 then some [⟨0x80, 0x8F⟩, continuation, continuation]
  else none

/-- The first fault of bytes that stand at position `start`, when `seen` bytes of a character have
been read there and the bytes in `due` are still due. -/
def scan (start seen : Nat) : (due : List Range) → List UInt8 → Option Fault
  | [], [] => none
  | _ :: _, [] => some (.incomplete start)
  | [], b :: rest =>
    match followers b with
    | none => some (.invalid 1 start)
    | some [] => scan (start + 1) 0 [] rest
    | some due => scan start 1 due rest
  | range :: due, b :: rest =>
    if range.low ≤ b ∧ b ≤ range.high then
      match due with
      | [] => scan (start + seen + 1) 0 [] rest
      | due => scan start (seen + 1) due rest
    else some (.invalid seen start)

/-- The first fault of the bytes, if there is one. -/
def fault? (bytes : List UInt8) : Option Fault :=
  scan 0 0 [] bytes

/-- The bytes of a text. -/
def encode (text : String) : List UInt8 :=
  text.toUTF8.data.toList

/-- The text that the bytes encode. -/
def decode (bytes : List UInt8) : Except Fault String :=
  match String.fromUTF8? ⟨bytes.toArray⟩ with
  | some text => .ok text
  | none => .error ((fault? bytes).getD (.incomplete bytes.length))

theorem decode_encode (text : String) : decode (encode text) = .ok text := by
  have h : (⟨(encode text).toArray⟩ : ByteArray) = text.toByteArray := by simp [encode]
  simp only [decode, h, String.fromUTF8?]
  rw [dif_pos text.isValidUTF8]
  rfl

theorem encode_of_decode {bytes : List UInt8} {text : String} (h : decode bytes = .ok text) :
    encode text = bytes := by
  unfold decode String.fromUTF8? at h
  split at h
  · rename_i t ht
    split at ht
    · cases h
      cases ht
      simp [encode, String.fromUTF8]
    · cases ht
  · cases h

theorem encode_injective {s t : String} (h : encode s = encode t) : s = t := by
  have := decode_encode s
  rw [h, decode_encode] at this
  cases this
  rfl

@[simp] theorem length_encode (text : String) : (encode text).length = text.utf8ByteSize := by
  rw [encode, Array.length_toList]
  rfl

end ObjectEnvelope.Utf8
