import ObjectEnvelope.Step

/-!
# Reading and writing bytes

A reader holds the bytes that are left and the number of those behind it. A read that asks for more
than is left consumes nothing; a length is checked against what is left once its own four bytes are
consumed. Writing returns the bytes of one item.
-/

namespace ObjectEnvelope

/-- The bytes that are left, and how many have been read before them. -/
structure Reader where
  offset : Nat
  rest : List UInt8

namespace Reader

/-- The reader before the first byte. -/
def ofBytes (bytes : List UInt8) : Reader := ⟨0, bytes⟩

/-- The number of bytes that are left. -/
def remaining (r : Reader) : Nat := r.rest.length

/-- Whether nothing is left. -/
def isExhausted (r : Reader) : Bool := r.rest.isEmpty

/-- The first `n` items and the others, if there are so many. -/
def splitAt? {α : Type} : Nat → List α → Option (List α × List α)
  | 0, items => some ([], items)
  | _ + 1, [] => none
  | n + 1, a :: items => (splitAt? n items).map fun (front, back) => (a :: front, back)

/-- Whether the list has `n` items or more. -/
def hasAtLeast {α : Type} : Nat → List α → Bool
  | 0, _ => true
  | _ + 1, [] => false
  | n + 1, _ :: items => hasAtLeast n items

theorem splitAt?_eq_some_iff {α : Type} {n : Nat} {items front back : List α} :
    splitAt? n items = some (front, back) ↔ items = front ++ back ∧ front.length = n := by
  induction n generalizing items front back with
  | zero =>
    simp only [splitAt?, Option.some.injEq, Prod.mk.injEq, List.length_eq_zero_iff]
    constructor
    · rintro ⟨rfl, rfl⟩
      simp
    · rintro ⟨rfl, rfl⟩
      simp
  | succ n ih =>
    cases items with
    | nil =>
      simp only [splitAt?, reduceCtorEq, false_iff, not_and]
      intro h
      simp [(List.append_eq_nil_iff.mp h.symm).1]
    | cons a items =>
      simp only [splitAt?, Option.map_eq_some_iff, Prod.exists, ih, Prod.mk.injEq]
      constructor
      · rintro ⟨front, back, ⟨rfl, rfl⟩, rfl, rfl⟩
        simp
      · rintro ⟨h, hlength⟩
        cases front with
        | nil => simp at hlength
        | cons b front =>
          obtain ⟨rfl, rfl⟩ := List.cons_eq_cons.mp h
          exact ⟨front, back, ⟨rfl, by simpa using hlength⟩, rfl, rfl⟩

theorem hasAtLeast_eq_true_iff {α : Type} {n : Nat} {items : List α} :
    hasAtLeast n items = true ↔ n ≤ items.length := by
  induction n generalizing items with
  | zero => simp [hasAtLeast]
  | succ n ih =>
    cases items with
    | nil => simp [hasAtLeast]
    | cons a items => simp [hasAtLeast, ih]

end Reader

/-- A reading step. -/
abbrev Read := Step Reader

namespace Read

/-- The next `count` bytes. -/
def raw (count : Nat) : Read (List UInt8) := fun r =>
  match Reader.splitAt? count r.rest with
  | some (front, back) => .ok front ⟨r.offset + count, back⟩
  | none => .error (.invalidEnvelope (.unexpectedEnd r.offset count r.remaining)) r

/-- The next byte. -/
def byte : Read UInt8 := fun r =>
  match r.rest with
  | b :: back => .ok b ⟨r.offset + 1, back⟩
  | [] => .error (.invalidEnvelope (.unexpectedEnd r.offset 1 0)) r

/-- The next truth value; any byte but 0 and 1 is refused. -/
def flag (fault : UInt8 → FormatFault) : Read Bool := do
  let found ← byte
  if found = 0 then
    return false
  else if found = 1 then
    return true
  else
    throw (.invalidEnvelope (fault found))

/-- The number in the next `width` bytes. -/
def number (width : Nat) : Read Nat :=
  return LittleEndian.toNat (← raw width)

/-- The next scalar of a kind. -/
def scalar (kind : ScalarKind) : Read Scalar :=
  return Scalar.decode kind (← raw kind.width)

/-- The next length, which counts items of `itemSize` bytes or more: they must be left. -/
def length (itemSize : Nat) : Read Nat := do
  let count ← number 4
  let r ← get
  if Reader.hasAtLeast (count * max itemSize 1) r.rest then
    return count
  else
    throw (.invalidEnvelope (.lengthBeyondEnd count r.offset r.remaining))

/-- The next byte string, which its length precedes. -/
def blob : Read (List UInt8) := do
  raw (← length 1)

/-- The next text, a byte string in UTF-8. -/
def text : Read String := do
  match Utf8.decode (← blob) with
  | .ok text => return text
  | .error fault => throw (.invalidEnvelope (.invalidUtf8 fault))

end Read

namespace Write

/-- A truth value in one byte. -/
def flag (b : Bool) : List UInt8 :=
  [if b then 1 else 0]

/-- A length in four bytes, unless it needs more. -/
def length (n : Nat) : Except WireError (List UInt8) :=
  if n < UInt32.size then .ok (LittleEndian.ofNat 4 n)
  else .error (.notSerializable (.lengthTooLarge n))

/-- A byte string after its length. -/
def blob (bytes : List UInt8) : Except WireError (List UInt8) :=
  return (← length bytes.length) ++ bytes

/-- A text in UTF-8, after its length in bytes. -/
def text (text : String) : Except WireError (List UInt8) :=
  blob (Utf8.encode text)

/-- The encodings of the items, one after the other. -/
def all {α : Type} (item : α → Except WireError (List UInt8)) :
    List α → Except WireError (List UInt8)
  | [] => return []
  | a :: rest => do
    let first ← item a
    return first ++ (← all item rest)

/-- The encodings of the items after their number. -/
def counted {α : Type} (item : α → Except WireError (List UInt8)) (items : List α) :
    Except WireError (List UInt8) := do
  let count ← length items.length
  return count ++ (← all item items)

end Write

end ObjectEnvelope
