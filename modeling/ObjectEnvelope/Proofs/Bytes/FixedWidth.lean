import Mathlib.Algebra.Group.Nat.Defs
import Mathlib.Algebra.Ring.Int.Defs
import ObjectEnvelope.Scalar

/-!
# Numbers of fixed width

`LittleEndian.ofNat width` and `LittleEndian.toNat` are inverse below `256 ^ width`, and so a scalar
is the one that its bytes hold (`Scalar.decode_encode`, `Scalar.encode_decode`). An integer in the
range of a kind is the one that its pattern stands for (`Scalar.toInt_ofInt`).
-/

namespace ObjectEnvelope

namespace LittleEndian

theorem toNat_lt (bytes : List UInt8) : toNat bytes < 256 ^ bytes.length := by
  induction bytes with
  | nil => simp [toNat]
  | cons b rest ih =>
    have hb : b.toNat < 256 := b.toNat_lt
    simp only [toNat, List.length_cons, Nat.pow_succ]
    omega

theorem toNat_ofNat (width n : Nat) : toNat (ofNat width n) = n % 256 ^ width := by
  induction width generalizing n with
  | zero => simp [ofNat, toNat, Nat.mod_one]
  | succ width ih =>
    have hpow : 256 ^ (width + 1) = 256 * 256 ^ width := Nat.pow_succ'
    rw [hpow, Nat.mod_mul]
    simp [ofNat, toNat, ih]

theorem toNat_ofNat_of_lt {width n : Nat} (h : n < 256 ^ width) : toNat (ofNat width n) = n := by
  rw [toNat_ofNat, Nat.mod_eq_of_lt h]

end LittleEndian

/-- The integers that the patterns of the kind stand for: those of two's complement if it is signed,
and the patterns themselves, as numbers, if it is not. -/
def ScalarKind.InRange (kind : ScalarKind) (n : Int) : Prop :=
  if kind.isSigned then -2 ^ (8 * kind.width - 1) ≤ n ∧ n < 2 ^ (8 * kind.width - 1)
  else 0 ≤ n ∧ n < 2 ^ (8 * kind.width)

instance (kind : ScalarKind) (n : Int) : Decidable (kind.InRange n) := by
  unfold ScalarKind.InRange
  infer_instance

namespace Scalar

theorem toInt_ofInt {kind : ScalarKind} {n : Int} (h : kind.InRange n) :
    (ofInt kind n).toInt = n := by
  have hwidth : 0 < 8 * kind.width := by cases kind <;> decide
  unfold ScalarKind.InRange at h
  unfold toInt ofInt
  split at h
  · next hsigned =>
    rw [if_pos hsigned]
    exact BitVec.toInt_ofInt_eq_self hwidth h.1 h.2
  · next hunsigned =>
    rw [if_neg hunsigned, BitVec.toNat_ofInt]
    push_cast
    rw [Int.emod_eq_of_lt h.1 h.2, Int.toNat_of_nonneg h.1]

theorem decode_encode (s : Scalar) : decode s.kind s.encode = s := by
  have hlt : s.toNat < 256 ^ s.kind.width := by
    have h := s.bits.isLt
    have hpow : 256 ^ s.kind.width = 2 ^ (8 * s.kind.width) := by rw [Nat.pow_mul]
    rw [hpow]
    exact h
  rw [decode, encode, LittleEndian.toNat_ofNat_of_lt hlt, ofNat, toNat, BitVec.ofNat_toNat,
    BitVec.setWidth_eq]

theorem encode_decode {kind : ScalarKind} {bytes : List UInt8} (h : bytes.length = kind.width) :
    (decode kind bytes).encode = bytes := by
  have hlt := LittleEndian.toNat_lt bytes
  have hpow : 256 ^ bytes.length = 2 ^ (8 * kind.width) := by rw [h, Nat.pow_mul]
  rw [hpow] at hlt
  simp only [decode, encode, ofNat, toNat, BitVec.toNat_ofNat, Nat.mod_eq_of_lt hlt]
  rw [← h, LittleEndian.ofNat_toNat]

end Scalar

end ObjectEnvelope
