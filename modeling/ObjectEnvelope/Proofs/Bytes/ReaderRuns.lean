import ObjectEnvelope.Bytes.Item
import ObjectEnvelope.Proofs.Bytes.Refusals

/-!
# Runs of a reader

A reader is asked for items of any shapes, one after the other, and goes on from where it stands
when one is refused. In the whole run it moves forward only and stays in the buffer; what it returns
is encoded by the bytes between the places where it stood before and after, and what it refuses it
refuses for what stands there (`WireItem.accounts_of_traces`).
-/

namespace ObjectEnvelope

/-- What is left for the reader is the buffer from its offset on. -/
structure Reader.StandsIn (r : Reader) (buffer : List UInt8) : Prop where
  offset_le : r.offset ≤ buffer.length
  rest : r.rest = buffer.drop r.offset

theorem Reader.standsIn_ofBytes (buffer : List UInt8) : (Reader.ofBytes buffer).StandsIn buffer :=
  ⟨Nat.zero_le _, rfl⟩

/-- The reader is still in the buffer behind the bytes that were taken, and these are the bytes
between the two places. -/
theorem Reader.StandsIn.taken {r after : Reader} {buffer bytes : List UInt8} (h : r.StandsIn buffer)
    (hrest : r.rest = bytes ++ after.rest) (hoffset : after.offset = r.offset + bytes.length) :
    after.StandsIn buffer ∧ buffer.extract r.offset after.offset = bytes := by
  have hdrop : buffer.drop r.offset = bytes ++ after.rest := by rw [← h.rest, hrest]
  have hlength : bytes.length + after.rest.length = buffer.length - r.offset := by
    rw [← List.length_append, ← hdrop, List.length_drop]
  refine ⟨⟨?_, ?_⟩, ?_⟩
  · have hle := h.offset_le
    omega
  · rw [hoffset, ← List.drop_drop, hdrop, List.drop_left]
  · rw [List.extract_eq_take_drop, hoffset, Nat.add_sub_cancel_left, hdrop, List.take_left]

theorem Reader.StandsIn.remaining_le {r : Reader} {buffer : List UInt8} (h : r.StandsIn buffer) :
    r.remaining ≤ buffer.length := by
  rw [Reader.remaining, h.rest, List.length_drop]
  exact Nat.sub_le _ _

theorem Reader.StandsIn.of_advances {r after : Reader} {buffer : List UInt8}
    (h : r.StandsIn buffer) (hadvances : r.Advances after) : after.StandsIn buffer :=
  have ⟨_, hrest, hoffset⟩ := hadvances
  (h.taken hrest hoffset).1

namespace WireItem

/-- The item is what a reader of the shape may return. -/
inductive HasShape : WireItem → Shape → Prop
  | scalar (s : Scalar) : HasShape (.scalar s) (.scalar s.kind)
  | raw (bytes : List UInt8) : HasShape (.raw bytes) (.raw bytes.length)
  | length (n itemSize : Nat) : HasShape (.length n) (.length itemSize)
  | blob (content : List UInt8) : HasShape (.blob content) .blob
  | text (content : String) : HasShape (.text content) .text

/-- A refused length: its four bytes are not there and nothing is taken, or they are taken and count
more than is left behind them. -/
structure LengthRefused (buffer : List UInt8) (itemSize : Nat) (before after : Reader) : Prop where
  offset : after.offset = before.offset + if 4 ≤ before.remaining then 4 else 0
  excess : 4 ≤ before.remaining →
    after.remaining <
      LittleEndian.toNat (buffer.extract before.offset after.offset) * max itemSize 1

/-- The whole string was taken with its length, and it is no text. -/
def NoText (buffer : List UInt8) (before after : Reader) (fault : Utf8.Fault) : Prop :=
  ∃ content, Write.blob content = .ok (buffer.extract before.offset after.offset) ∧
    Utf8.decode content = .error fault

/-- Why an item of the shape is refused with the error, and where the reader stands then. -/
def Shape.Refused (buffer : List UInt8) (before after : Reader) (e : WireError) : Shape → Prop
  | .scalar kind => before.remaining < kind.width ∧ after.offset = before.offset
  | .raw count => before.remaining < count ∧ after.offset = before.offset
  | .length itemSize => LengthRefused buffer itemSize before after
  | .blob => LengthRefused buffer 1 before after
  | .text =>
    (∃ fault, e = .invalidEnvelope (.invalidUtf8 fault) ∧ NoText buffer before after fault) ∨
      ((∀ fault, e ≠ .invalidEnvelope (.invalidUtf8 fault)) ∧ LengthRefused buffer 1 before after)

/-- What one step shows: a returned item has the shape, is encoded by the bytes between the two
places, and counts no more than is left if it is a length; otherwise it is refused. -/
structure Accounts (buffer : List UInt8) (shape : Shape) (before : Reader)
    (t : Trace WireItem Reader) : Prop where
  returned : ∀ item, t.result = .ok item →
    item.HasShape shape ∧ item.encode = .ok (buffer.extract before.offset t.after.offset)
  counted : ∀ itemSize n, shape = .length itemSize → t.result = .ok (.length n) →
    n * max itemSize 1 ≤ t.after.remaining
  refused : ∀ e, t.result = .error e → shape.Refused buffer before t.after e

/-! ## Single steps -/

variable {buffer : List UInt8} {before after : Reader} {shape : Shape} {item : WireItem}
  {e : WireError}

/-- The bytes that are taken for an item encode it. -/
theorem Shape.takes_read (shape : Shape) :
    Read.Takes shape.read fun item bytes => item.HasShape shape ∧ item.encode = .ok bytes := by
  cases shape with
  | scalar kind =>
    intro r item after hrun
    obtain ⟨s, _, hs, hitem⟩ := Step.bind_eq_ok_iff.mp hrun
    obtain ⟨rfl, rfl⟩ := Step.pure_eq_ok_iff.mp hitem
    obtain ⟨bytes, hrest, hoffset, rfl⟩ := Read.takes_scalar kind _ _ _ hs
    obtain ⟨content, _, -, hdecode⟩ := Step.bind_eq_ok_iff.mp hs
    obtain ⟨rfl, -⟩ := Step.pure_eq_ok_iff.mp hdecode
    exact ⟨_, hrest, hoffset, .scalar (Scalar.decode kind content), rfl⟩
  | raw count =>
    refine .map (Read.takes_raw count) fun content bytes ⟨hbytes, hlength⟩ => ?_
    subst hbytes hlength
    exact ⟨.raw bytes, rfl⟩
  | length itemSize => exact .map (Read.takes_length itemSize) fun n _ h => ⟨.length n itemSize, h⟩
  | blob => exact .map Read.takes_blob fun content _ h => ⟨.blob content, h⟩
  | text => exact .map Read.takes_text fun content _ h => ⟨.text content, h⟩

theorem length_le_of_read {itemSize n : Nat}
    (h : (Shape.length itemSize).read before = .ok (.length n) after) :
    n * max itemSize 1 ≤ after.remaining := by
  obtain ⟨m, _, hlength, hitem⟩ := Step.bind_eq_ok_iff.mp h
  obtain ⟨hn, rfl⟩ := Step.pure_eq_ok_iff.mp hitem
  cases hn
  exact (Read.length_eq_ok_iff.mp hlength).2

/-- A refused length leaves the reader before its four bytes or behind them. -/
theorem lengthRefused_of_length {itemSize : Nat} (hbefore : before.StandsIn buffer)
    (h : Read.length itemSize before = .error e after) :
    before.Advances after ∧ LengthRefused buffer itemSize before after ∧
      ∀ fault, e ≠ .invalidEnvelope (.invalidUtf8 fault) := by
  rcases Read.length_eq_error_iff.mp h with hshort | ⟨n, hnumber, hexcess, rfl⟩
  · obtain ⟨hlt, rfl, rfl⟩ := Read.raw_eq_error_iff.mp (Read.number_eq_error_iff.mp hshort)
    refine ⟨.refl _, ⟨?_, fun hle => absurd hlt (Nat.not_lt.mpr hle)⟩, by simp⟩
    rw [if_neg (Nat.not_le.mpr hlt), Nat.add_zero]
  · obtain ⟨bytes, hrest, hoffset, hn, rfl⟩ := Read.takes_number 4 _ _ _ hnumber
    have hbetween := (hbefore.taken hrest hoffset).2
    have hle : 4 ≤ before.remaining := by
      rw [← Read.remaining_of_number hnumber]
      exact Nat.le_add_left _ _
    refine ⟨⟨_, hrest, hoffset⟩, ⟨?_, fun _ => ?_⟩, by simp⟩
    · rw [hoffset, LittleEndian.length_ofNat, if_pos hle]
    · rwa [hbetween, LittleEndian.toNat_ofNat_of_lt hn]

/-- A refused item: where the reader stands, and why. -/
theorem refused_of_read (hbefore : before.StandsIn buffer)
    (h : shape.read before = .error e after) :
    before.Advances after ∧ shape.Refused buffer before after e := by
  cases shape with
  | scalar kind =>
    obtain ⟨hlt, -, rfl⟩ :=
      Read.raw_eq_error_iff.mp (Read.scalar_eq_error_iff.mp (Step.map_eq_error_iff.mp h))
    exact ⟨.refl _, hlt, rfl⟩
  | raw count =>
    obtain ⟨hlt, -, rfl⟩ := Read.raw_eq_error_iff.mp (Step.map_eq_error_iff.mp h)
    exact ⟨.refl _, hlt, rfl⟩
  | length itemSize =>
    obtain ⟨hadvances, hrefused, -⟩ := lengthRefused_of_length hbefore (Step.map_eq_error_iff.mp h)
    exact ⟨hadvances, hrefused⟩
  | blob =>
    obtain ⟨hadvances, hrefused, -⟩ :=
      lengthRefused_of_length hbefore (Read.blob_eq_error_iff.mp (Step.map_eq_error_iff.mp h))
    exact ⟨hadvances, hrefused⟩
  | text =>
    rcases Read.text_eq_error_iff.mp (Step.map_eq_error_iff.mp h) with hblob |
      ⟨content, fault, hblob, hdecode, rfl⟩
    · obtain ⟨hadvances, hrefused, hother⟩ :=
        lengthRefused_of_length hbefore (Read.blob_eq_error_iff.mp hblob)
      exact ⟨hadvances, .inr ⟨hother, hrefused⟩⟩
    · obtain ⟨bytes, hrest, hoffset, hwritten⟩ := Read.takes_blob _ _ _ hblob
      obtain ⟨-, hbetween⟩ := hbefore.taken hrest hoffset
      exact ⟨⟨_, hrest, hoffset⟩, .inl ⟨fault, rfl, content, hbetween ▸ hwritten, hdecode⟩⟩

/-- One step from anywhere in the buffer. -/
theorem accounts_of_trace (hbefore : before.StandsIn buffer) (shape : Shape) :
    before.Advances (trace shape.read before).after ∧
      Accounts buffer shape before (trace shape.read before) := by
  unfold trace
  cases hrun : shape.read before with
  | ok item after =>
    obtain ⟨bytes, hrest, hoffset, hshape, hencode⟩ := shape.takes_read _ _ _ hrun
    obtain ⟨-, hbetween⟩ := hbefore.taken hrest hoffset
    refine ⟨⟨_, hrest, hoffset⟩, ?_, ?_, nofun⟩
    · rintro _ ⟨⟩
      exact ⟨hshape, hbetween ▸ hencode⟩
    · rintro itemSize n rfl ⟨⟩
      exact length_le_of_read hrun
  | error e after =>
    obtain ⟨hadvances, hrefused⟩ := refused_of_read hbefore hrun
    refine ⟨hadvances, nofun, nofun, ?_⟩
    rintro _ ⟨⟩
    exact hrefused

/-! ## Whole runs -/

/-- Where the reader stands before the first step and after each of them. -/
def stations (shapes : List Shape) (start : Reader) : List Reader :=
  start :: (traces (shapes.map Shape.read) start).map Trace.after

/-- What a run over the buffer shows: the reader stays in it and never goes back, and every step
accounts for the bytes between the places before and after it. -/
structure RunAccounts (buffer : List UInt8) (shapes : List Shape) (stations : List Reader)
    (ts : List (Trace WireItem Reader)) : Prop where
  length_eq : ts.length = shapes.length
  forward : (stations.map Reader.offset).Pairwise (· ≤ ·)
  inside : ∀ r ∈ stations, r.StandsIn buffer
  step : ∀ i shape before t, shapes[i]? = some shape → stations[i]? = some before →
    ts[i]? = some t → stations[i + 1]? = some t.after ∧ Accounts buffer shape before t

theorem RunAccounts.nil (hbefore : before.StandsIn buffer) :
    RunAccounts buffer [] (stations [] before) [] where
  length_eq := rfl
  forward := List.pairwise_singleton _ _
  inside := List.forall_mem_singleton.mpr hbefore
  step := fun _ _ _ _ hshape => absurd hshape (by simp)

/-- A step, then a run from where it left the reader. -/
theorem RunAccounts.cons {shapes : List Shape} {t : Trace WireItem Reader}
    {ts : List (Trace WireItem Reader)} (hbefore : before.StandsIn buffer)
    (hadvances : before.Advances t.after) (ht : Accounts buffer shape before t)
    (hrun : RunAccounts buffer shapes (t.after :: ts.map Trace.after) ts) :
    RunAccounts buffer (shape :: shapes) (before :: t.after :: ts.map Trace.after) (t :: ts) where
  length_eq := congrArg Nat.succ hrun.length_eq
  forward := by
    have hle : before.offset ≤ t.after.offset := hadvances.offset_le
    have hforward := hrun.forward
    simp only [List.map_cons, List.pairwise_cons] at hforward ⊢
    refine ⟨?_, hforward⟩
    rintro offset (_ | ⟨_, hmem⟩)
    · exact hle
    · exact Nat.le_trans hle (hforward.1 offset hmem)
  inside := List.forall_mem_cons.mpr ⟨hbefore, hrun.inside⟩
  step := by
    intro i
    cases i with
    | zero =>
      rintro _ _ _ ⟨⟩ ⟨⟩ ⟨⟩
      exact ⟨rfl, ht⟩
    | succ i => exact hrun.step i

/-- From wherever the reader stands in the buffer. -/
theorem runAccounts_of_standsIn (shapes : List Shape) (hbefore : before.StandsIn buffer) :
    RunAccounts buffer shapes (stations shapes before) (traces (shapes.map Shape.read) before) := by
  induction shapes generalizing before with
  | nil => exact .nil hbefore
  | cons shape shapes ih =>
    obtain ⟨hadvances, haccounts⟩ := accounts_of_trace hbefore shape
    exact .cons hbefore hadvances haccounts (ih (hbefore.of_advances hadvances))

/-- **Runs of a reader.** In every run of steps over every buffer, the refused ones among them, each
step accounts for its bytes. Lengths may be checked with products that stop at any limit beyond the
buffer. -/
theorem accounts_of_traces (buffer : List UInt8) (shapes : List Shape) :
    RunAccounts buffer shapes (stations shapes (Reader.ofBytes buffer))
      (traces (shapes.map Shape.read) (Reader.ofBytes buffer)) ∧
    ∀ r ∈ stations shapes (Reader.ofBytes buffer), ∀ limit itemSize, buffer.length < limit →
      Read.lengthWithin limit itemSize r = Read.length itemSize r := by
  have hrun := runAccounts_of_standsIn shapes (Reader.standsIn_ofBytes buffer)
  refine ⟨hrun, fun r hr limit itemSize hlimit => Read.lengthWithin_eq ?_⟩
  exact Nat.lt_of_le_of_lt (hrun.inside r hr).remaining_le hlimit

/-- Of five bytes, no number of eight bytes is there; the first four are a length, which counts one
byte more than is left; and the last byte is no length. -/
example :
    (stations [.scalar .u64, .text, .scalar .u8, .blob]
        (Reader.ofBytes [2, 0, 0, 0, 97])).map Reader.offset = [0, 0, 4, 5, 5] := by
  decide

end WireItem

end ObjectEnvelope
