import ObjectEnvelope.Bytes.LittleEndian

/-!
# Scalars

Integers and floating-point numbers of fixed width. A scalar is a bit pattern: signed integers are
in two's complement and floating-point numbers in the binary interchange format, so that every
pattern, each NaN included, survives a trip over the wire.
-/

namespace ObjectEnvelope

/-- The fixed-width numbers. -/
inductive ScalarKind where
  | u8 | i8 | u16 | i16 | u32 | i32 | u64 | i64 | f32 | f64
  deriving DecidableEq, Repr

namespace ScalarKind

/-- Every kind, in the order of the wire codes. -/
def all : List ScalarKind := [u8, i8, u16, i16, u32, i32, u64, i64, f32, f64]

/-- The name of the kind. -/
def name : ScalarKind → String
  | u8 => "u8"
  | i8 => "i8"
  | u16 => "u16"
  | i16 => "i16"
  | u32 => "u32"
  | i32 => "i32"
  | u64 => "u64"
  | i64 => "i64"
  | f32 => "f32"
  | f64 => "f64"

/-- The number of bytes. -/
def width : ScalarKind → Nat
  | u8 | i8 => 1
  | u16 | i16 => 2
  | u32 | i32 | f32 => 4
  | u64 | i64 | f64 => 8

/-- The number of bits after the exponent of a floating-point kind. -/
def fractionBits? : ScalarKind → Option Nat
  | f32 => some 23
  | f64 => some 52
  | _ => none

/-- Whether the pattern is to be read in two's complement. -/
def isSigned : ScalarKind → Bool
  | i8 | i16 | i32 | i64 => true
  | _ => false

end ScalarKind

/-- A fixed-width number, as its bit pattern. -/
structure Scalar where
  kind : ScalarKind
  bits : BitVec (8 * kind.width)
  deriving DecidableEq

namespace Scalar

/-- The pattern with the low bits of `n`. -/
def ofNat (kind : ScalarKind) (n : Nat) : Scalar :=
  ⟨kind, BitVec.ofNat _ n⟩

/-- The two's complement pattern of `n`. -/
def ofInt (kind : ScalarKind) (n : Int) : Scalar :=
  ⟨kind, BitVec.ofInt _ n⟩

/-- The pattern as a number. -/
def toNat (s : Scalar) : Nat := s.bits.toNat

/-- The integer that the pattern stands for. -/
def toInt (s : Scalar) : Int :=
  if s.kind.isSigned then s.bits.toInt else s.bits.toNat

/-- The pattern without its sign bit. -/
def magnitude (s : Scalar) : Nat :=
  s.toNat % (1 <<< (8 * s.kind.width - 1))

/-- Whether the pattern is a NaN: its magnitude exceeds that of infinity, whose exponent bits are
all set and whose fraction is zero. -/
def isNaN (s : Scalar) : Bool :=
  match s.kind.fractionBits? with
  | none => false
  | some fraction => (1 <<< (8 * s.kind.width - 1)) - (1 <<< fraction) < s.magnitude

/-- Whether the pattern is a floating-point zero of either sign. -/
def isFloatZero (s : Scalar) : Bool :=
  s.kind.fractionBits?.isSome && s.magnitude == 0

/-- Equality as numbers of one kind: a NaN equals nothing and the two zeros are equal. -/
def same (s t : Scalar) : Bool :=
  s.kind == t.kind && !s.isNaN && (s == t || (s.isFloatZero && t.isFloatZero))

/-- The pattern in little-endian bytes. -/
def encode (s : Scalar) : List UInt8 :=
  LittleEndian.ofNat s.kind.width s.toNat

/-- The scalar of a kind that the little-endian bytes hold. -/
def decode (kind : ScalarKind) (bytes : List UInt8) : Scalar :=
  ofNat kind (LittleEndian.toNat bytes)

@[simp] theorem length_encode (s : Scalar) : s.encode.length = s.kind.width := by
  simp [encode]

end Scalar

end ObjectEnvelope
