import ObjectEnvelope.Proofs.Bytes.Cuts
import ObjectEnvelope.Proofs.Envelope.CanonicalFrames

/-!
# Frames that were cut or extended

The lengths in a frame account for all of its bytes. So what is left of a frame when bytes are cut
off from its end is not accepted, wherever the cut is, and neither is a frame with bytes after it
(`Envelope.ofBytes_fails_of_comparable`). The payload and the schema are not looked into for that.
-/

namespace ObjectEnvelope

namespace Envelope

open Step (Tracks)
open Reader (Forks)

section

variable {tail tail' : List UInt8} (h : tail = [] ∨ tail' = [])

include h

theorem tracks_readMark (mark : UInt8) :
    Tracks (Forks tail tail') WireError.Malformed (readMark mark) :=
  .bind (Read.tracks_byte h) fun _ => .guard (.pure _)

theorem tracks_readHeader : Tracks (Forks tail tail') WireError.Malformed readHeader :=
  .bind (Read.tracks_raw h _) fun _ => .guard <|
    .bind (Read.tracks_number h 2) fun _ => .bind (Read.tracks_number h 2) fun _ =>
    .guard (.pure _)

theorem tracks_readSections : Tracks (Forks tail tail') WireError.Malformed readSections :=
  .bind (tracks_readMark h _) fun _ => .bind (Read.tracks_blob h) fun _ =>
    .bind (tracks_readMark h _) fun _ => .bind (Read.tracks_blob h) fun _ =>
    Read.tracks_ending _ _

end

/-- Bytes whose sections are refused are no frame. -/
theorem ofBytes_of_refused {bytes : List UInt8} {f : WireError} {after : Reader}
    (hf : f.Malformed)
    (h : (do readHeader; readSections) (Reader.ofBytes bytes) = .error f after) :
    ∃ f, ofBytes bytes = .error f ∧ f.kind = .invalidEnvelope := by
  unfold ofBytes
  split
  · exact ⟨_, rfl, rfl⟩
  · refine ⟨f, Outcome.bind_eq_error_iff.mpr (.inl ?_), hf⟩
    rw [Step.outcome, h]

/-- **Frames delimit themselves.** Of the byte strings that begin a frame or begin with it, none but
the frame itself is accepted: each is refused as no envelope. -/
theorem ofBytes_fails_of_comparable {e : Envelope} {bytes other : List UInt8}
    (h : e.toBytes = .ok bytes) (hcomparable : other <+: bytes ∨ bytes <+: other)
    (hne : other ≠ bytes) :
    ∃ f, ofBytes other = .error f ∧ f.kind = .invalidEnvelope := by
  obtain ⟨body, hbody, rfl⟩ := toBytes_eq_ok_iff.mp h
  have hminor : minorVersion < 256 ^ 2 := by decide
  obtain ⟨schema, after, -, hread, hrest⟩ := exists_read_of_sections hminor hbody
  obtain ⟨tail, tail', htails, hfork⟩ := Reader.exists_forks_ofBytes hcomparable
  have htracks : Tracks (Forks tail tail') WireError.Malformed (do readHeader; readSections) :=
    .bind (tracks_readHeader htails) fun _ => tracks_readSections htails
  rcases htracks _ _ hfork _ _ hread with ⟨parts, after', hread', -, hend⟩ | ⟨f, _, hread', hf⟩
  · obtain ⟨_, _, -, hsections⟩ := Step.bind_eq_ok_iff.mp hread'
    obtain ⟨_, _, -, -, -, hrest'⟩ := eq_of_readSections hsections
    exact absurd (hfork.eq_of_exhausted hend hrest hrest') hne
  · exact ofBytes_of_refused hf hread'

/-- A frame whose payload looks like a section of the schema, cut behind it, and with a byte after
its end. -/
theorem ofBytes_fails_of_comparable_payload : ∃ bytes,
    toBytes { pointEnvelope with payload := [schemaMark, 0, 0, 0, 0] } = .ok bytes ∧
      (∃ f, ofBytes (bytes.take 18) = .error f ∧ f.kind = .invalidEnvelope) ∧
      ∃ f, ofBytes (bytes ++ [0]) = .error f ∧ f.kind = .invalidEnvelope := by
  obtain ⟨bytes, hbytes⟩ : ∃ bytes,
      toBytes { pointEnvelope with payload := [schemaMark, 0, 0, 0, 0] } = .ok bytes := ⟨_, rfl⟩
  have hcut : bytes.take 18 ≠ bytes := by
    cases hbytes
    decide
  have hmore : bytes ++ [0] ≠ bytes := by simp
  exact ⟨bytes, hbytes,
    ofBytes_fails_of_comparable hbytes (.inl (List.take_prefix 18 bytes)) hcut,
    ofBytes_fails_of_comparable hbytes (.inr (List.prefix_append bytes [0])) hmore⟩

end Envelope

end ObjectEnvelope
