import ObjectEnvelope.Bytes.LittleEndian
import ObjectEnvelope.Bytes.Hex

/-!
# Digests

A digest is the sixteen-byte MD5 hash of a byte string. It stands for the structure of a type:
types are recognised by the digest of their signature.
-/

namespace ObjectEnvelope

/-- Sixteen bytes that stand for a byte string. -/
structure Digest where
  bytes : List UInt8
  length_bytes : bytes.length = 16
  deriving DecidableEq

/-- The bytes in lower-case hexadecimal. -/
def Digest.text (d : Digest) : String :=
  Hex.ofBytes d.bytes

namespace Md5

/-- The four words that the hash carries from block to block. -/
structure State where
  a : UInt32
  b : UInt32
  c : UInt32
  d : UInt32

/-- The state before the first block. -/
def start : State := ⟨0x67452301, 0xefcdab89, 0x98badcfe, 0x10325476⟩

/-- One of the four rounds of sixteen steps: how it mixes three words, which word of the block step
`j` takes (`stride * j + offset`, modulo sixteen), how far it rotates and what it adds. -/
structure Round where
  mix : UInt32 → UInt32 → UInt32 → UInt32
  stride : Nat
  offset : Nat
  shifts : List UInt32
  constants : List UInt32

/-- The first round takes the words in order. -/
def round₁ : Round :=
  { mix := fun x y z => (x &&& y) ||| (~~~x &&& z)
    stride := 1
    offset := 0
    shifts := [7, 12, 17, 22]
    constants := [
      0xd76aa478, 0xe8c7b756, 0x242070db, 0xc1bdceee,
      0xf57c0faf, 0x4787c62a, 0xa8304613, 0xfd469501,
      0x698098d8, 0x8b44f7af, 0xffff5bb1, 0x895cd7be,
      0x6b901122, 0xfd987193, 0xa679438e, 0x49b40821] }

/-- The second round takes every fifth word. -/
def round₂ : Round :=
  { mix := fun x y z => (z &&& x) ||| (~~~z &&& y)
    stride := 5
    offset := 1
    shifts := [5, 9, 14, 20]
    constants := [
      0xf61e2562, 0xc040b340, 0x265e5a51, 0xe9b6c7aa,
      0xd62f105d, 0x02441453, 0xd8a1e681, 0xe7d3fbc8,
      0x21e1cde6, 0xc33707d6, 0xf4d50d87, 0x455a14ed,
      0xa9e3e905, 0xfcefa3f8, 0x676f02d9, 0x8d2a4c8a] }

/-- The third round takes every third word. -/
def round₃ : Round :=
  { mix := fun x y z => x ^^^ y ^^^ z
    stride := 3
    offset := 5
    shifts := [4, 11, 16, 23]
    constants := [
      0xfffa3942, 0x8771f681, 0x6d9d6122, 0xfde5380c,
      0xa4beea44, 0x4bdecfa9, 0xf6bb4b60, 0xbebfbc70,
      0x289b7ec6, 0xeaa127fa, 0xd4ef3085, 0x04881d05,
      0xd9d4d039, 0xe6db99e5, 0x1fa27cf8, 0xc4ac5665] }

/-- The fourth round takes every seventh word. -/
def round₄ : Round :=
  { mix := fun x y z => y ^^^ (x ||| ~~~z)
    stride := 7
    offset := 0
    shifts := [6, 10, 15, 21]
    constants := [
      0xf4292244, 0x432aff97, 0xab9423a7, 0xfc93a039,
      0x655b59c3, 0x8f0ccc92, 0xffeff47d, 0x85845dd1,
      0x6fa87e4f, 0xfe2ce6e0, 0xa3014314, 0x4e0811a1,
      0xf7537e82, 0xbd3af235, 0x2ad7d2bb, 0xeb86d391] }

/-- The word rotated to the left by `n` bits, for `n` from 1 to 31. -/
def rotate (x n : UInt32) : UInt32 :=
  (x <<< n) ||| (x >>> (32 - n))

/-- Step `j` of a round, which adds `constant`. -/
def Round.step (r : Round) (block : List UInt32) (s : State) (constant : UInt32) (j : Nat) :
    State :=
  let word := block.getD ((r.stride * j + r.offset) % 16) 0
  let shift := r.shifts.getD (j % 4) 0
  ⟨s.d, s.b + rotate (s.a + r.mix s.b s.c s.d + constant + word) shift, s.b, s.c⟩

/-- The sixteen steps of a round. -/
def Round.run (r : Round) (block : List UInt32) (s : State) : State :=
  r.constants.zipIdx.foldl (fun s (constant, j) => r.step block s constant j) s

/-- The state after one more block of sixteen words. -/
def compress (s : State) (block : List UInt32) : State :=
  let t := round₄.run block (round₃.run block (round₂.run block (round₁.run block s)))
  ⟨s.a + t.a, s.b + t.b, s.c + t.c, s.d + t.d⟩

/-- The state after `count` blocks, taken from the front of the words. -/
def absorb : (count : Nat) → State → List UInt32 → State
  | 0, s, _ => s
  | count + 1, s, words => absorb count (compress s (words.take 16)) (words.drop 16)

/-- The message, a one bit, zeros up to eight bytes short of a block, and the length in bits. -/
def pad (message : List UInt8) : List UInt8 :=
  let zeros := (119 - message.length % 64) % 64
  message ++ 0x80 :: List.replicate zeros 0 ++ LittleEndian.ofNat 8 (8 * message.length)

/-- The bytes as little-endian words. -/
def words : List UInt8 → List UInt32
  | a :: b :: c :: d :: rest => UInt32.ofNat (LittleEndian.toNat [a, b, c, d]) :: words rest
  | _ => []

/-- The four words as sixteen bytes. -/
def State.digest (s : State) : Digest where
  bytes := [s.a, s.b, s.c, s.d].flatMap fun word => LittleEndian.ofNat 4 word.toNat
  length_bytes := by simp

end Md5

/-- The MD5 hash of the bytes. -/
@[irreducible] def Digest.ofBytes (message : List UInt8) : Digest :=
  let words := Md5.words (Md5.pad message)
  (Md5.absorb (words.length / 16) Md5.start words).digest

end ObjectEnvelope
