import ObjectEnvelope.Proofs.Bytes.Failures
import ObjectEnvelope.Proofs.Bytes.Canonical

/-!
# When a read is refused

Exactly when a read is refused, and where the reader stands then: a read that finds too few bytes
takes none of them (`Read.raw_eq_error_iff`), a length that counts more than is left has been taken
itself (`Read.length_eq_error_iff`), and so has a whole byte string that is no text
(`Read.text_eq_error_iff`). How large the product of a length may get makes no difference
(`Read.lengthWithin_eq`).
-/

namespace ObjectEnvelope

theorem Reader.splitAt?_eq_none_iff {α : Type} {n : Nat} {items : List α} :
    splitAt? n items = none ↔ items.length < n := by
  induction n generalizing items with
  | zero => simp [splitAt?]
  | succ n ih =>
    cases items with
    | nil => simp [splitAt?]
    | cons a items => simp [splitAt?, ih]

namespace Read

variable {r after : Reader} {e : WireError} {count n itemSize : Nat}

theorem raw_eq_error_iff :
    raw count r = .error e after ↔ r.remaining < count ∧
      e = .invalidEnvelope (.unexpectedEnd r.offset count r.remaining) ∧ after = r := by
  unfold raw
  cases hsplit : Reader.splitAt? count r.rest with
  | none =>
    have hlt : r.remaining < count := Reader.splitAt?_eq_none_iff.mp hsplit
    simp only [hlt, true_and, EStateM.Result.error.injEq]
    exact and_congr eq_comm eq_comm
  | some parts =>
    have hge : ¬ r.remaining < count := by
      rw [Reader.remaining, ← Reader.splitAt?_eq_none_iff, hsplit]
      simp
    simp [hge]

theorem number_eq_error_iff {width : Nat} :
    number width r = .error e after ↔ raw width r = .error e after :=
  Step.map_eq_error_iff

theorem scalar_eq_error_iff {kind : ScalarKind} :
    scalar kind r = .error e after ↔ raw kind.width r = .error e after :=
  Step.map_eq_error_iff

/-- A length is read when as much as it counts is left behind it. -/
theorem length_eq_ok_iff :
    length itemSize r = .ok n after ↔
      number 4 r = .ok n after ∧ n * max itemSize 1 ≤ after.remaining := by
  simp only [length, Step.bind_eq_ok_iff, Step.get_eq_ok_iff]
  constructor
  · rintro ⟨m, _, hnumber, _, _, ⟨rfl, rfl⟩, hcheck⟩
    split at hcheck
    · next hleft =>
      obtain ⟨rfl, rfl⟩ := Step.pure_eq_ok_iff.mp hcheck
      exact ⟨hnumber, Reader.hasAtLeast_eq_true_iff.mp hleft⟩
    · exact absurd hcheck Step.throw_ne_ok
  · rintro ⟨hnumber, hleft⟩
    refine ⟨n, after, hnumber, after, after, ⟨rfl, rfl⟩, ?_⟩
    rw [if_pos (Reader.hasAtLeast_eq_true_iff.mpr hleft)]
    rfl

/-- Otherwise it is refused, and its four bytes are taken if they were there. -/
theorem length_eq_error_iff :
    length itemSize r = .error e after ↔ number 4 r = .error e after ∨
      ∃ n, number 4 r = .ok n after ∧ after.remaining < n * max itemSize 1 ∧
        e = .invalidEnvelope (.lengthBeyondEnd n after.offset after.remaining) := by
  simp only [length, Step.bind_eq_error_iff, Step.get_ne_error, Step.get_eq_ok_iff, false_or]
  refine or_congr_right ?_
  constructor
  · rintro ⟨n, _, hnumber, _, _, ⟨rfl, rfl⟩, hcheck⟩
    split at hcheck
    · exact absurd hcheck Step.pure_ne_error
    · next hleft =>
      obtain ⟨rfl, rfl⟩ := Step.throw_eq_error_iff.mp hcheck
      rw [Reader.hasAtLeast_eq_true_iff, Nat.not_le] at hleft
      exact ⟨n, hnumber, hleft, rfl⟩
  · rintro ⟨n, hnumber, hleft, rfl⟩
    refine ⟨n, after, hnumber, after, after, ⟨rfl, rfl⟩, ?_⟩
    rw [if_neg (mt Reader.hasAtLeast_eq_true_iff.mp (Nat.not_le.mpr hleft))]
    rfl

/-- The next length, checked with a product that stops at `limit` as that of machine words does. -/
def lengthWithin (limit itemSize : Nat) : Read Nat := do
  let count ← number 4
  let r ← get
  if r.remaining < min (count * max itemSize 1) limit then
    throw (.invalidEnvelope (.lengthBeyondEnd count r.offset r.remaining))
  else
    return count

/-- Where the product stops does not show as long as less is left than that. -/
theorem lengthWithin_eq {limit : Nat} (h : r.remaining < limit) :
    lengthWithin limit itemSize r = length itemSize r := by
  cases hnumber : number 4 r with
  | error e after =>
    rw [length_eq_error_iff.mpr (.inl hnumber)]
    exact Step.bind_eq_error_iff.mpr (.inl hnumber)
  | ok n after =>
    have hlimit : after.remaining < limit :=
      Nat.lt_of_le_of_lt (Nat.le.intro (remaining_of_number hnumber)) h
    by_cases hleft : after.remaining < n * max itemSize 1
    · rw [length_eq_error_iff.mpr (.inr ⟨n, hnumber, hleft, rfl⟩)]
      refine Step.bind_eq_error_iff.mpr (.inr ⟨n, after, hnumber, ?_⟩)
      refine Step.bind_eq_error_iff.mpr (.inr ⟨after, after, rfl, ?_⟩)
      rw [if_pos (Nat.lt_min.mpr ⟨hleft, hlimit⟩)]
      rfl
    · rw [length_eq_ok_iff.mpr ⟨hnumber, Nat.not_lt.mp hleft⟩]
      refine Step.bind_eq_ok_iff.mpr ⟨n, after, hnumber, ?_⟩
      refine Step.bind_eq_ok_iff.mpr ⟨after, after, rfl, ?_⟩
      rw [if_neg fun hlt => hleft (Nat.lt_min.mp hlt).1]
      rfl

/-- Behind a length that was read, the bytes that it counts are there. -/
theorem blob_eq_error_iff : blob r = .error e after ↔ length 1 r = .error e after := by
  simp only [blob, Step.bind_eq_error_iff]
  refine or_iff_left ?_
  rintro ⟨n, between, hlength, hraw⟩
  have hshort : between.remaining < n := (raw_eq_error_iff.mp hraw).1
  have hleft := (length_eq_ok_iff.mp hlength).2
  rw [Nat.max_self, Nat.mul_one] at hleft
  omega

theorem text_eq_error_iff :
    text r = .error e after ↔ blob r = .error e after ∨
      ∃ content fault, blob r = .ok content after ∧ Utf8.decode content = .error fault ∧
        e = .invalidEnvelope (.invalidUtf8 fault) := by
  simp only [text, Step.bind_eq_error_iff]
  refine or_congr_right (exists_congr fun content => ?_)
  constructor
  · rintro ⟨between, hblob, hdecode⟩
    cases hfault : Utf8.decode content with
    | ok found =>
      rw [hfault] at hdecode
      exact absurd hdecode Step.pure_ne_error
    | error fault =>
      rw [hfault] at hdecode
      obtain ⟨rfl, rfl⟩ := Step.throw_eq_error_iff.mp hdecode
      exact ⟨fault, hblob, rfl, rfl⟩
  · rintro ⟨fault, hblob, hfault, rfl⟩
    refine ⟨after, hblob, ?_⟩
    rw [hfault]
    rfl

end Read

end ObjectEnvelope
