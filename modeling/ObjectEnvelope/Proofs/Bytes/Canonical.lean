import ObjectEnvelope.Proofs.Bytes.Writing

/-!
# Reads take what is written

Whatever a read returns, the bytes that it took say so (`Read.Takes`). The bytes that a length, a
byte string, a text, a primitive or a counted run was read from are those that are written for it,
so that none of them can be spelled in two ways.
-/

namespace ObjectEnvelope

/-- The second reader stands behind the first by the bytes that were taken between them. -/
def Reader.Advances (r after : Reader) : Prop :=
  ∃ taken, r.rest = taken ++ after.rest ∧ after.offset = r.offset + taken.length

theorem Reader.Advances.refl (r : Reader) : r.Advances r :=
  ⟨[], rfl, rfl⟩

theorem Reader.Advances.trans {r r₁ r₂ : Reader} (h₁ : r.Advances r₁) (h₂ : r₁.Advances r₂) :
    r.Advances r₂ := by
  obtain ⟨taken₁, hrest₁, hoffset₁⟩ := h₁
  obtain ⟨taken₂, hrest₂, hoffset₂⟩ := h₂
  refine ⟨taken₁ ++ taken₂, by rw [hrest₁, hrest₂, List.append_assoc], ?_⟩
  rw [hoffset₂, hoffset₁, List.length_append, Nat.add_assoc]

theorem Reader.Advances.offset_le {r after : Reader} (h : r.Advances after) :
    r.offset ≤ after.offset :=
  have ⟨_, _, hoffset⟩ := h
  hoffset ▸ Nat.le_add_right _ _

theorem Reader.Advances.remaining_le {r after : Reader} (h : r.Advances after) :
    after.remaining ≤ r.remaining := by
  obtain ⟨taken, hrest, -⟩ := h
  unfold Reader.remaining
  rw [hrest, List.length_append]
  exact Nat.le_add_left _ _

/-- A reader that has come to the end of the bytes has counted them all. -/
theorem Reader.Advances.eq_of_exhausted {bytes : List UInt8} {after : Reader}
    (h : (Reader.ofBytes bytes).Advances after) (hrest : after.rest = []) :
    after = ⟨bytes.length, []⟩ := by
  obtain ⟨taken, htaken, hoffset⟩ := h
  rw [hrest, List.append_nil] at htaken
  cases after
  simp_all [Reader.ofBytes]

namespace Read

variable {α β : Type}

/-- Whenever the step succeeds, the bytes that it took from the front spell its result. -/
def Takes (step : Read α) (spells : α → List UInt8 → Prop) : Prop :=
  ∀ r a after, step r = .ok a after → ∃ bytes, r.rest = bytes ++ after.rest ∧
    after.offset = r.offset + bytes.length ∧ spells a bytes

variable {spells spells' : α → List UInt8 → Prop}

/-- A successful read moves forward only. -/
theorem Takes.advances {step : Read α} (h : Takes step spells) {r after : Reader} {a : α}
    (hrun : step r = .ok a after) : r.Advances after := by
  obtain ⟨bytes, hrest, hoffset, -⟩ := h r a after hrun
  exact ⟨bytes, hrest, hoffset⟩

theorem Takes.pure {a : α} (h : spells a []) : Takes (pure a) spells := by
  intro r b after hrun
  obtain ⟨rfl, rfl⟩ := Step.pure_eq_ok_iff.mp hrun
  exact ⟨[], rfl, rfl, h⟩

theorem Takes.throw (e : WireError) : Takes (throw e) spells :=
  fun _ _ _ h => absurd h Step.throw_ne_ok

theorem Takes.ofExcept {x : Except WireError α} (h : ∀ a, x = .ok a → spells a []) :
    Takes (Step.ofExcept x) spells := by
  intro r a after hrun
  obtain ⟨hx, rfl⟩ := Step.ofExcept_eq_ok_iff.mp hrun
  exact ⟨[], rfl, rfl, h a hx⟩

/-- What the second step takes comes after what the first one took. -/
theorem Takes.bind {step : Read β} {next : β → Read α} {between : β → List UInt8 → Prop}
    (hstep : Takes step between)
    (hnext : ∀ b front, between b front → Takes (next b) fun a back => spells a (front ++ back)) :
    Takes (step >>= next) spells := by
  intro r a after h
  obtain ⟨b, middle, hb, ha⟩ := Step.bind_eq_ok_iff.mp h
  obtain ⟨front, hrest, hoffset, hbetween⟩ := hstep r b middle hb
  obtain ⟨back, hrest', hoffset', hspells⟩ := hnext b front hbetween middle a after ha
  refine ⟨front ++ back, ?_, ?_, hspells⟩
  · rw [hrest, hrest', List.append_assoc]
  · rw [hoffset', hoffset, List.length_append, Nat.add_assoc]

theorem Takes.mono {step : Read α} (h : Takes step spells)
    (himp : ∀ a bytes, spells a bytes → spells' a bytes) : Takes step spells' := by
  intro r a after hrun
  obtain ⟨bytes, hrest, hoffset, hspells⟩ := h r a after hrun
  exact ⟨bytes, hrest, hoffset, himp a bytes hspells⟩

theorem Takes.guard {c : Prop} [Decidable c] {e : WireError} {next : PUnit → Read α}
    (hnext : ¬ c → Takes (next ⟨⟩) spells) :
    Takes (if c then (MonadExcept.throw e : Read PUnit) >>= next else next ⟨⟩) spells := by
  intro r a after hrun
  obtain ⟨hc, hrun⟩ := Step.guard_eq_ok_iff.mp hrun
  exact hnext hc r a after hrun

/-- What a successful read works out of its outcome takes no bytes. -/
theorem Takes.map {step : Read β} {between : β → List UInt8 → Prop} {f : β → α}
    (hstep : Takes step between) (himp : ∀ b bytes, between b bytes → spells (f b) bytes) :
    Takes (do return f (← step)) spells := by
  refine .bind hstep fun b bytes hb => .pure ?_
  rw [List.append_nil]
  exact himp b bytes hb

/-! ## Bytes and numbers -/

theorem takes_get : Takes (get : Read Reader) fun _ bytes => bytes = [] := by
  intro r s after h
  obtain ⟨-, rfl⟩ := Step.get_eq_ok_iff.mp h
  exact ⟨[], rfl, rfl, rfl⟩

theorem takes_raw (count : Nat) :
    Takes (raw count) fun content bytes => bytes = content ∧ content.length = count := by
  intro r content after h
  unfold raw at h
  split at h
  · next front back hsplit =>
    cases h
    obtain ⟨hrest, hlength⟩ := Reader.splitAt?_eq_some_iff.mp hsplit
    exact ⟨content, hrest, by rw [hlength], rfl, hlength⟩
  · cases h

theorem takes_byte : Takes byte fun b bytes => bytes = [b] := by
  intro r b after h
  unfold byte at h
  split at h
  · next c back hrest =>
    cases h
    exact ⟨[b], hrest, rfl, rfl⟩
  · cases h

/-- Only the two bytes that are written for truth values are read as such. -/
theorem takes_flag (fault : UInt8 → FormatFault) :
    Takes (flag fault) fun b bytes => bytes = Write.flag b := by
  refine .bind takes_byte fun found front hfront => ?_
  subst hfront
  split
  · next hzero =>
    subst hzero
    exact .pure rfl
  · split
    · next hone =>
      subst hone
      exact .pure rfl
    · exact .throw _

theorem takes_number (width : Nat) :
    Takes (number width) fun n bytes => n < 256 ^ width ∧ bytes = LittleEndian.ofNat width n := by
  refine .map (takes_raw width) fun content bytes ⟨hbytes, hlength⟩ => ?_
  subst hbytes hlength
  exact ⟨LittleEndian.toNat_lt bytes, (LittleEndian.ofNat_toNat bytes).symm⟩

theorem remaining_of_number {width n : Nat} {r after : Reader}
    (h : number width r = .ok n after) : after.remaining + width = r.remaining := by
  obtain ⟨bytes, hrest, -, -, rfl⟩ := takes_number width r n after h
  unfold Reader.remaining
  rw [hrest, List.length_append, LittleEndian.length_ofNat, Nat.add_comm]

theorem takes_scalar (kind : ScalarKind) :
    Takes (scalar kind) fun s bytes => bytes = s.encode := by
  refine .map (takes_raw kind.width) fun content bytes ⟨hbytes, hlength⟩ => ?_
  rw [hbytes, Scalar.encode_decode hlength]

theorem takes_length (itemSize : Nat) :
    Takes (length itemSize) fun n bytes => Write.length n = .ok bytes := by
  refine .bind (takes_number 4) fun n front hfront => .bind takes_get fun r _ hempty => ?_
  subst hempty
  split
  · refine .pure ?_
    rw [List.append_nil, List.append_nil]
    exact Write.length_eq_ok_iff.mpr hfront
  · exact .throw _

theorem takes_blob : Takes blob fun content bytes => Write.blob content = .ok bytes := by
  refine .bind (takes_length 1) fun n front hfront =>
    (takes_raw n).mono fun content bytes ⟨hbytes, hlength⟩ => ?_
  subst hbytes hlength
  obtain ⟨hlt, rfl⟩ := Write.length_eq_ok_iff.mp hfront
  exact Write.blob_eq_ok_iff.mpr ⟨hlt, rfl⟩

theorem takes_text : Takes text fun content bytes => Write.text content = .ok bytes := by
  refine .bind takes_blob fun raw front hfront => ?_
  split
  · next content hdecode =>
    refine .pure ?_
    rw [List.append_nil, Write.text, Utf8.encode_of_decode hdecode]
    exact hfront
  · exact .throw _

/-! ## Runs of items -/

variable {write : α → Except WireError (List UInt8)} {holds : α → Prop}

/-- The bytes are written for the item, of which the property holds. -/
def Writes (write : α → Except WireError (List UInt8)) (holds : α → Prop) (a : α)
    (bytes : List UInt8) : Prop :=
  write a = .ok bytes ∧ holds a

theorem takes_times {read : Read α} (h : Takes read (Writes write holds)) (count : Nat) :
    Takes (Step.times read count) fun items bytes =>
      items.length = count ∧ Write.all write items = .ok bytes ∧ ∀ a ∈ items, holds a := by
  induction count with
  | zero => exact .pure ⟨rfl, rfl, by simp⟩
  | succ count ih =>
    refine .bind h fun a front ⟨hfront, ha⟩ => .map ih ?_
    rintro rest back ⟨rfl, hback, hrest⟩
    refine ⟨rfl, ?_, List.forall_mem_cons.mpr ⟨ha, hrest⟩⟩
    simp only [Write.all, Outcome.bind_eq_ok_iff, Outcome.pure_eq_ok_iff]
    exact ⟨front, hfront, back, hback, rfl⟩

/-- A run of items after its length takes what is written for the counted items. -/
theorem Takes.counted {read : Read α} {size : Nat} {next : List α → Read β}
    {spells : β → List UInt8 → Prop} (h : Takes read (Writes write holds))
    (hnext : ∀ items front, Write.counted write items = .ok front → (∀ a ∈ items, holds a) →
      Takes (next items) fun b back => spells b (front ++ back)) :
    Takes (length size >>= fun count => Step.times read count >>= next) spells := by
  refine .bind (takes_length size) fun count front hfront =>
    .bind (takes_times h count) fun items body ⟨hlength, hbody, hitems⟩ => ?_
  subst hlength
  obtain ⟨hlt, rfl⟩ := Write.length_eq_ok_iff.mp hfront
  refine (hnext items _ (Write.counted_eq_ok_iff.mpr ⟨hlt, body, hbody, rfl⟩) hitems).mono ?_
  intro b back hback
  rwa [← List.append_assoc]

end Read

/-! ## Primitives -/

namespace Primitive

open Read

theorem takes_readChar :
    Takes readChar fun c bytes => bytes = LittleEndian.ofNat 4 c.toNat := by
  refine .bind (takes_number 4) fun code front ⟨_, hfront⟩ => ?_
  by_cases hvalid : code.isValidChar
  · rw [dif_pos hvalid]
    refine .pure ?_
    rw [List.append_nil, hfront]
    rfl
  · rw [dif_neg hvalid]
    exact .throw _

/-- Whatever primitive is read, its bytes are its encoding. -/
theorem takes_read (kind : PrimitiveKind) :
    Takes (read kind) fun p bytes => p.encode = .ok bytes := by
  cases kind with
  | bool => exact .map (takes_flag _) fun _ _ h => h ▸ rfl
  | scalar kind => exact .map (takes_scalar kind) fun _ _ h => h ▸ rfl
  | char => exact .map takes_readChar fun _ _ h => h ▸ rfl
  | string => exact .map takes_text fun _ _ h => h
  | bytes => exact .map takes_blob fun _ _ h => h

end Primitive

end ObjectEnvelope
