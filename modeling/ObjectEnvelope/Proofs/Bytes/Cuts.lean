import ObjectEnvelope.Proofs.Bytes.Failures
import ObjectEnvelope.Proofs.Bytes.ReadBack
import ObjectEnvelope.Proofs.Bytes.Refusals
import ObjectEnvelope.Proofs.TwoRuns

/-!
# Reading bytes that were cut or extended

Two byte strings begin alike, and one of them ends where they part. What is read from the first is
read from the second as well, as long as the bytes are shared; the step that goes beyond them finds
too few, and is refused (`Step.Tracks` with `Reader.Forks`). That all bytes are read, and that a
reading of the second string is thereby refused in the end, is for the formats to say.
-/

namespace ObjectEnvelope

/-- The same bytes lie before both readers, and behind these the first tail for the one and the
second for the other. -/
def Reader.Forks (tail tail' : List UInt8) (r r' : Reader) : Prop :=
  ∃ shared, r.rest = shared ++ tail ∧ r'.rest = shared ++ tail'

/-- Two byte strings of which one begins the other part where that one ends. -/
theorem Reader.exists_forks_ofBytes {bytes other : List UInt8}
    (h : other <+: bytes ∨ bytes <+: other) : ∃ tail tail', (tail = [] ∨ tail' = []) ∧
      Forks tail tail' (ofBytes bytes) (ofBytes other) := by
  rcases h with ⟨tail, rfl⟩ | ⟨tail', rfl⟩
  · exact ⟨tail, [], .inr rfl, other, rfl, (List.append_nil other).symm⟩
  · exact ⟨[], tail', .inl rfl, bytes, (List.append_nil bytes).symm, rfl⟩

/-- Two readings that both come to an end have read the same bytes. -/
theorem Reader.Forks.eq_of_exhausted {tail tail' bytes other : List UInt8} {u u' : Reader}
    (hstart : Forks tail tail' (ofBytes bytes) (ofBytes other)) (hend : Forks tail tail' u u')
    (hu : u.rest = []) (hu' : u'.rest = []) : other = bytes := by
  obtain ⟨shared, hrest, hrest'⟩ := hend
  obtain ⟨rfl, rfl⟩ := List.append_eq_nil_iff.mp (hrest.symm.trans hu)
  obtain ⟨-, rfl⟩ := List.append_eq_nil_iff.mp (hrest'.symm.trans hu')
  obtain ⟨start, hbytes, hother⟩ := hstart
  exact hother.trans hbytes.symm

open Step (Tracks)
open Reader (Forks)

/-- Whether the reading may end is asked on each side for itself. -/
theorem Read.tracks_ending {α : Type} {tail tail' : List UInt8} (fault : Reader → FormatFault)
    (a : α) : Tracks (Forks tail tail') WireError.Malformed (do
      let r ← get
      if !r.isExhausted then
        throw (.invalidEnvelope (fault r))
      return a) := by
  refine .get_bind fun r r' hfork b u hrun => ?_
  obtain ⟨-, hrun⟩ := Step.guard_eq_ok_iff.mp hrun
  obtain ⟨rfl, rfl⟩ := Step.pure_eq_ok_iff.mp hrun
  split
  · exact Step.yields_throw (WireError.malformed _)
  · exact Step.yields_pure ⟨rfl, hfork⟩

variable {tail tail' : List UInt8} (h : tail = [] ∨ tail' = [])

include h

namespace Read

theorem tracks_raw (count : Nat) : Tracks (Forks tail tail') WireError.Malformed (raw count) := by
  rintro r r' ⟨shared, hr, hr'⟩ content u hrun
  obtain ⟨bytes, hrest, -, hbytes, hcount⟩ := takes_raw count r content u hrun
  subst hbytes
  by_cases hle : count ≤ shared.length
  · -- the bytes that were read are shared
    obtain ⟨back, rfl⟩ : bytes <+: shared :=
      List.prefix_of_prefix_length_le ⟨u.rest, hrest.symm.trans hr⟩ ⟨tail, rfl⟩ (hcount ▸ hle)
    have hback : u.rest = back ++ tail := by
      rw [hrest, List.append_assoc] at hr
      exact List.append_cancel_left hr
    have hread : raw count r' = .ok bytes ⟨r'.offset + count, back ++ tail'⟩ := by
      have hreturns := returns_raw bytes r'.offset (back ++ tail')
      rw [← List.append_assoc, ← hr', hcount] at hreturns
      exact hreturns
    exact .inl ⟨bytes, _, hread, rfl, back, hback, rfl⟩
  · -- they go beyond what is shared, so it is the second reader that has nothing more
    have htail' : tail' = [] := by
      refine h.resolve_left ?_
      rintro rfl
      rw [hrest, List.append_nil] at hr
      rw [← hr, List.length_append] at hle
      omega
    have hshort : r'.remaining < count := by
      rw [Reader.remaining, hr', htail', List.append_nil]
      exact Nat.lt_of_not_le hle
    exact .inr ⟨_, r', raw_eq_error_iff.mpr ⟨hshort, rfl, rfl⟩, WireError.malformed _⟩

theorem tracks_byte : Tracks (Forks tail tail') WireError.Malformed byte := by
  rintro ⟨offset, rest⟩ ⟨offset', rest'⟩ ⟨shared, rfl, rfl⟩ b u hrun
  cases shared with
  | cons first back =>
    cases hrun
    exact .inl ⟨b, _, rfl, rfl, back, rfl, rfl⟩
  | nil =>
    obtain ⟨bytes, hrest, -, rfl⟩ := takes_byte _ b u hrun
    obtain rfl : tail' = [] := h.resolve_left (by rintro rfl; cases hrest)
    exact .inr ⟨_, _, rfl, WireError.malformed _⟩

theorem tracks_flag (fault : UInt8 → FormatFault) :
    Tracks (Forks tail tail') WireError.Malformed (flag fault) := by
  refine .bind (tracks_byte h) fun found => ?_
  split
  · exact .pure _
  · split
    · exact .pure _
    · exact .throw _

theorem tracks_number (width : Nat) :
    Tracks (Forks tail tail') WireError.Malformed (number width) :=
  .bind (tracks_raw h width) fun _ => .pure _

theorem tracks_scalar (kind : ScalarKind) :
    Tracks (Forks tail tail') WireError.Malformed (scalar kind) :=
  .bind (tracks_raw h kind.width) fun _ => .pure _

/-- Behind a length, more or less than before may be left; if it is too little, the length is
refused at once. -/
theorem tracks_length (itemSize : Nat) :
    Tracks (Forks tail tail') WireError.Malformed (length itemSize) := by
  intro r r' hfork n u hrun
  have hnumber := (length_eq_ok_iff.mp hrun).1
  rcases tracks_number h 4 r r' hfork n u hnumber with
    ⟨m, u', hnumber', rfl, hforks⟩ | ⟨e, u', hnumber', he⟩
  · by_cases hleft : m * max itemSize 1 ≤ u'.remaining
    · exact .inl ⟨m, u', length_eq_ok_iff.mpr ⟨hnumber', hleft⟩, rfl, hforks⟩
    · refine .inr ⟨_, u', length_eq_error_iff.mpr (.inr ⟨m, hnumber', ?_, rfl⟩), ?_⟩
      · exact Nat.lt_of_not_le hleft
      · exact WireError.malformed _
  · exact .inr ⟨e, u', length_eq_error_iff.mpr (.inl hnumber'), he⟩

theorem tracks_blob : Tracks (Forks tail tail') WireError.Malformed blob :=
  .bind (tracks_length h 1) (tracks_raw h)

theorem tracks_text : Tracks (Forks tail tail') WireError.Malformed text := by
  refine .bind (tracks_blob h) fun content => ?_
  split
  · exact .pure _
  · exact .throw _

end Read

namespace Primitive

open Read

theorem tracks_readChar : Tracks (Forks tail tail') WireError.Malformed readChar := by
  refine .bind (tracks_number h 4) fun scalar => ?_
  by_cases hvalid : scalar.isValidChar
  · rw [dif_pos hvalid]
    exact .pure _
  · rw [dif_neg hvalid]
    exact .throw _

theorem tracks_read (kind : PrimitiveKind) :
    Tracks (Forks tail tail') WireError.Malformed (read kind) := by
  cases kind with
  | bool => exact .bind (tracks_flag h _) fun _ => .pure _
  | scalar kind => exact .bind (tracks_scalar h kind) fun _ => .pure _
  | char => exact .bind (tracks_readChar h) fun _ => .pure _
  | string => exact .bind (tracks_text h) fun _ => .pure _
  | bytes => exact .bind (tracks_blob h) fun _ => .pure _

end Primitive

end ObjectEnvelope
