/-!
# Hexadecimal text

Numbers and bytes in lower-case hexadecimal, as error texts, digests and signatures show them.
-/

namespace ObjectEnvelope.Hex

/-- The two digits of a byte. -/
def ofByte (b : UInt8) : List Char :=
  [Nat.digitChar (b.toNat / 16), Nat.digitChar (b.toNat % 16)]

/-- The bytes in order, two digits each. -/
def ofBytes (bytes : List UInt8) : String :=
  String.ofList (bytes.flatMap ofByte)

/-- The digits of a number, without leading zeros. -/
def digits (n : Nat) : String :=
  String.ofList (Nat.toDigits 16 n)

/-- A byte as `0x` and two digits. -/
def marked (b : UInt8) : String :=
  "0x" ++ String.ofList (ofByte b)

end ObjectEnvelope.Hex
