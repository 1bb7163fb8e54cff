import ObjectEnvelope.Proofs.Bytes.Failures
import ObjectEnvelope.Proofs.Payload.DecoderInvariant

/-!
# How a decoding fails

A decoding goes through checks that refuse values as values without an encoding: a handle may name
no object, a type may have no instances, an interface has no codec. In a decoding none of them can
be met. Handles name objects that are complete, the kind of a type is looked at before an object of
it is read, and the codec is one of that very type. What remains is a graph that holds as many
objects as handles can name, and such a graph takes a payload of as many bytes (`readRoot_fails`).
-/

namespace ObjectEnvelope

open Step (FailsOnly FailsWith)

namespace ObjectGraph

variable {g : ObjectGraph} {limit : Nat} {declared : ValueType} {v : Value} {e : WireError}

/-! ## Checks of values that are there -/

theorem require_fails {fits : Bool} (h : g.require fits declared v = .error e) :
    e.BlamesInput := by
  unfold require at h
  split at h
  · cases h
  · cases h
    exact WireError.mismatched _

theorem checkObject_fails {h : Handle} (hlt : h.index < g.size)
    (hcheck : g.checkObject declared h = .error e) : e.BlamesInput := by
  obtain ⟨o, hget⟩ := Option.isSome_iff_exists.mp (get?_isSome_iff.mpr hlt)
  unfold checkObject at hcheck
  rw [hget] at hcheck
  exact require_fails hcheck

theorem checkValue_fails (hv : v.Bounded g.size limit) (h : g.checkValue declared v = .error e) :
    e.BlamesInput := by
  induction v using Value.induct generalizing declared with
  | null =>
    rw [checkValue] at h
    exact require_fails h
  | primitive p =>
    cases declared with
    | any => cases h
    | _ => exact require_fails h
  | list items ih =>
    cases declared with
    | any => cases h
    | list element =>
      rw [checkValue] at h
      obtain ⟨item, hmem, hitem⟩ := Outcome.exists_of_forM_eq_error h
      refine ih item hmem ⟨fun k hk => ?_, fun others hothers => ?_⟩ hitem
      · exact hv.handle k (.item hmem hk)
      · exact hv.list others (.item hmem hothers)
    | _ => exact require_fails h
  | constant c =>
    cases declared with
    | any => cases h
    | _ => exact require_fails h
  | object k =>
    have hlt : k.index < g.size := hv.handle k (.self _)
    cases declared with
    | any => exact checkObject_fails hlt h
    | reference name => exact checkObject_fails hlt h
    | _ => exact require_fails h

theorem checkSlot_fails {owner : String} {slot : Field} (hv : v.Bounded g.size limit)
    (h : g.checkSlot owner slot v = .error e) : e.BlamesInput := by
  unfold checkSlot at h
  split at h
  · split at h
    · cases h
    · cases h
      nofun
  · exact checkValue_fails hv h

/-- An object whose values name objects that are there is refused for its values, or for want of
room. -/
theorem instantiate_fails {type : RuntimeType} {values : List Value}
    (htype : type.kind = .composite) (hvalues : ∀ v ∈ values, v.Bounded g.size limit)
    (h : g.instantiate type values = .error e) :
    e.BlamesInput ∨ (e = .notSerializable .graphFull ∧ capacity ≤ g.size) := by
  unfold instantiate at h
  rw [if_neg (by simp [RuntimeType.isInstantiable, htype])] at h
  rcases Outcome.guard_eq_error_iff.mp h with ⟨-, rfl⟩ | ⟨-, h⟩
  · exact .inl (WireError.mismatched _)
  · rcases Outcome.bind_eq_error_iff.mp h with h | ⟨_, -, h⟩
    · obtain ⟨p, hmem, hslot⟩ := Outcome.exists_of_forM_eq_error h
      exact .inl (checkSlot_fails (hvalues p.2 (List.of_mem_zip hmem).2) hslot)
    · rcases Outcome.guard_eq_error_iff.mp h with ⟨hfull, rfl⟩ | ⟨-, h⟩
      · exact .inr ⟨rfl, hfull⟩
      · exact absurd h Outcome.pure_ne_error

end ObjectGraph

/-! ## Steps -/

namespace Decode

theorem read_fails {α : Type} {step : Read α} (h : FailsOnly WireError.Malformed step) :
    FailsOnly WireError.BlamesInput (read step) :=
  .on (h.mono fun _ => WireError.Malformed.blamesInput)

theorem tag_fails : FailsOnly WireError.BlamesInput tag := by
  refine .bind .get fun s => .bind (read_fails Read.byte_fails) fun code => ?_
  split
  · exact .pure _
  · exact .throw (WireError.malformed _).blamesInput

theorem referent_fails : FailsOnly WireError.BlamesInput referent := by
  refine .bind (read_fails (Read.number_fails 4)) fun id => .bind .get fun s => ?_
  split
  · exact .pure _
  · exact .throw nofun

/-- A type that has values has a codec where anything may stand. -/
theorem form_fails {type : RuntimeType} {form : BodyForm}
    (hform : BodyForm.ofKind? type.kind = some form) :
    FailsOnly WireError.BlamesInput (Decode.form type) := by
  have hbody : type.bodyForm .any = .ok form := RuntimeType.bodyForm_eq_ok_iff.mpr ⟨rfl, hform⟩
  refine .on (.bind (.ofExcept fun e he => ?_) fun _ => .bind (.modify _) fun _ => .pure _)
  rw [hbody] at he
  cases he

end Decode

/-- The failure blames the input, or the graph holds as many objects as handles can name and at most
`bound`. -/
def Decoding.GivesUp (bound : Nat) (e : WireError) (s : Decoding) : Prop :=
  e.BlamesInput ∨ (e = .notSerializable .graphFull ∧ ObjectGraph.capacity ≤ s.graph.size ∧
    s.graph.size ≤ bound)

/-- What a decoding that gives up for want of room has started from. -/
structure Decoding.Within (limit bound : Nat) (s : Decoding) : Prop where
  sound : s.Sound limit
  extent_le : s.extent ≤ bound

namespace Decoder

variable {d : Decoder} {limit bound : Nat} {s t : Decoding} {declared : ValueType}
  {type : RuntimeType} {v : Value} {slot item : ValueType → Decode Value}

theorem within_of_keeps (h : s.Keeps limit v t) (hs : s.Within limit bound) :
    t.Within limit bound :=
  ⟨h.sound, Nat.le_trans h.extent_le hs.extent_le⟩

/-- A step that moves the reader alone stays within. -/
theorem within_of_advances {r : Reader} (hs : s.Within limit bound) (h : s.reader.Advances r) :
    Decoding.Within limit bound { s with reader := r } :=
  ⟨⟨hs.sound.layered, hs.sound.numbered⟩,
    Nat.le_trans (extent_le_of_advances (s := s) rfl h) hs.extent_le⟩

theorem blames {α : Type} {step : Decode α} (h : FailsOnly WireError.BlamesInput step) :
    FailsWith step s (Decoding.GivesUp bound) :=
  h.failsWith fun _ _ => .inl

theorem readType_fails (declared : ValueType) :
    FailsOnly WireError.BlamesInput (d.readType declared) := by
  refine .bind (Decode.read_fails (Read.number_fails 4)) fun index => ?_
  split
  · exact .throw (WireError.malformed _).blamesInput
  · split
    · exact .pure _
    · exact .throw (WireError.mismatched _)

theorem readOrdinal_fails (type : RuntimeType) :
    FailsOnly WireError.BlamesInput (readOrdinal type) := by
  refine .bind (Decode.read_fails (Read.number_fails 4)) fun ordinal => ?_
  split
  · exact .pure _
  · exact .throw (WireError.malformed _).blamesInput

theorem numbering_fails {step : Decode Value} (h : FailsWith step s (Decoding.GivesUp bound)) :
    FailsWith (numbering step) s (Decoding.GivesUp bound) := by
  refine .bind h fun v t _ => blames ?_
  split
  · exact .bind (.modify _) fun _ => .pure _
  · exact .pure _

section

variable
  (hkeeps : ∀ declared s v t, item declared s = .ok v t → s.Sound limit → s.Keeps limit v t)
  (hfails : ∀ declared s, s.Within limit bound →
    FailsWith (item declared) s (Decoding.GivesUp bound))

include hkeeps hfails

theorem each_fails (declareds : List ValueType) (hs : s.Within limit bound) :
    FailsWith (Step.each item declareds) s (Decoding.GivesUp bound) :=
  .each hfails (fun declared s v t hrun h => within_of_keeps (hkeeps declared s v t hrun h.sound) h)
    hs

theorem readSlots_fails (htype : type.kind = .composite) (hs : s.Within limit bound) :
    FailsWith (readSlots item type) s (Decoding.GivesUp bound) := by
  refine .bind (blames (Decode.read_fails (Read.number_fails 4))) fun count u hcount =>
    .guard (.inl (WireError.malformed _).blamesInput) fun _ => ?_
  obtain ⟨r, hnumber, rfl⟩ := Decode.read_eq_ok_iff.mp hcount
  have hu := within_of_advances hs (advances_of_number hnumber)
  rw [← Step.each_map item Field.type]
  refine .bind (each_fails hkeeps hfails _ hu) fun values w hvalues => ?_
  obtain ⟨hw, -, hextent, -, hbounded⟩ := each_keeps hkeeps hvalues hu.sound
  refine .bind ?_ fun h w' _ => blames (.pure _)
  -- only the addition of the object can find the graph full
  refine .bind (blames .get) fun w' _ hget => .bind ?_ fun _ _ _ =>
    .bind (blames (.set _)) fun _ _ _ => blames (.pure _)
  obtain ⟨rfl, rfl⟩ := Step.get_eq_ok_iff.mp hget
  intro e t herror
  obtain ⟨hnew, rfl⟩ := Step.ofExcept_eq_error_iff.mp herror
  rcases ObjectGraph.instantiate_fails htype hbounded hnew with hblames | ⟨rfl, hfull⟩
  · exact .inl hblames
  · refine .inr ⟨rfl, hfull, ?_⟩
    calc w.graph.size ≤ w.extent := Nat.le_add_right _ _
      _ ≤ bound := Nat.le_trans hextent hu.extent_le

/-- A body in the form of its type. -/
theorem readBody_fails {form : BodyForm} (hform : BodyForm.ofKind? type.kind = some form)
    (hs : s.Within limit bound) :
    FailsWith (readBody item type form) s (Decoding.GivesUp bound) := by
  cases hkind : type.kind with
  | composite =>
    rw [hkind] at hform
    cases hform
    exact readSlots_fails hkeeps hfails hkind hs
  | enumeration =>
    rw [hkind] at hform
    cases hform
    exact blames (readOrdinal_fails type)
  | interface =>
    rw [hkind] at hform
    cases hform

theorem readFormed_fails {form : BodyForm} (hform : BodyForm.ofKind? type.kind = some form)
    (hs : s.Within limit bound) :
    FailsWith (do readBody item type (← Decode.form type)) s (Decoding.GivesUp bound) := by
  refine .bind (blames (Decode.form_fails hform)) fun found u hfound => ?_
  obtain ⟨hkind, rfl⟩ := Decode.form_eq_ok_iff.mp hfound
  exact readBody_fails hkeeps hfails hkind
    ⟨⟨hs.sound.layered, hs.sound.numbered⟩, hs.extent_le⟩

theorem readConstant_fails (hs : s.Within limit bound) :
    FailsWith (d.readConstant item declared) s (Decoding.GivesUp bound) := by
  rw [readConstant_eq]
  refine .bind (blames (readType_fails declared)) fun type u htype =>
    .guard (.inl (WireError.malformed _).blamesInput) fun hkind => ?_
  obtain ⟨index, r, hindex, -, -, rfl⟩ := readType_eq_ok_iff.mp htype
  have hform : BodyForm.ofKind? type.kind = some .ordinal := by
    rw [Classical.not_not.mp hkind, BodyForm.ofKind?]
  exact readFormed_fails hkeeps hfails hform (within_of_advances hs (advances_of_number hindex))

theorem readObject_fails (hs : s.Within limit bound) :
    FailsWith (d.readObject item declared) s (Decoding.GivesUp bound) := by
  rw [readObject_eq]
  refine .bind (blames (readType_fails declared)) fun type u htype =>
    .guard (.inl (WireError.malformed _).blamesInput) fun hkind => ?_
  obtain ⟨index, r, hindex, -, -, rfl⟩ := readType_eq_ok_iff.mp htype
  have hform : BodyForm.ofKind? type.kind = some .slots := by
    have hcomposite : type.kind = .composite := by simpa [RuntimeType.isInstantiable] using hkind
    rw [hcomposite, BodyForm.ofKind?]
  exact readFormed_fails hkeeps hfails hform (within_of_advances hs (advances_of_number hindex))

theorem readList_fails (hs : s.Within limit bound) :
    FailsWith (d.readList item declared) s (Decoding.GivesUp bound) := by
  unfold readList
  split
  · exact blames (.throw (WireError.mismatched _))
  · next element _ =>
    refine .bind (blames (Decode.read_fails (Read.length_fails 1))) fun count u hcount =>
      .guard (.inl (WireError.malformed _).blamesInput) fun _ => ?_
    obtain ⟨r, hlength, rfl⟩ := Decode.read_eq_ok_iff.mp hcount
    have hu := within_of_advances hs ((Read.takes_length 1).advances hlength)
    rw [Step.times_eq_each]
    exact .bind (each_fails hkeeps hfails _ hu) fun _ _ _ => blames (.pure _)

end

/-- Reading a value fails with an error that blames the input, or where the graph is full. -/
theorem readValue_fails {room : Nat} (hs : s.Within d.settings.maxListLength bound) :
    FailsWith (d.readValue room declared) s (Decoding.GivesUp bound) := by
  induction room generalizing declared s with
  | zero => exact blames (.throw (WireError.malformed _).blamesInput)
  | succ room ih =>
    have hkeeps : ∀ declared s v t, d.readValue room declared s = .ok v t →
        s.Sound d.settings.maxListLength → s.Keeps d.settings.maxListLength v t :=
      fun _ _ _ _ => readValue_keeps
    have hfails : ∀ declared s, s.Within d.settings.maxListLength bound →
        FailsWith (d.readValue room declared) s (Decoding.GivesUp bound) := fun _ _ => ih
    refine .bind (blames Decode.tag_fails) fun tag u htag => ?_
    obtain ⟨code, r, hbyte, -, rfl⟩ := Decode.tag_eq_ok_iff.mp htag
    have hu := within_of_advances hs (Read.takes_byte.advances hbyte)
    cases tag with
    | null => exact blames (.pure _)
    | primitive kind =>
      exact blames (.bind (Decode.read_fails (Primitive.read_fails kind)) fun _ => .pure _)
    | list => exact readList_fails hkeeps hfails hu
    | constant => exact readConstant_fails hkeeps hfails hu
    | object => exact numbering_fails (readObject_fails hkeeps hfails hu)
    | inlineObject => exact readObject_fails hkeeps hfails hu
    | backReference => exact blames (.bind Decode.referent_fails fun _ => .pure _)

/-- A payload is refused with an error that blames it, unless it holds more objects than handles can
name. -/
theorem readRoot_fails (payload : List UInt8) (codecs : CodecCache) :
    FailsWith d.readRoot ⟨Progress.start payload, codecs⟩ (Decoding.GivesUp payload.length) := by
  have hstart : Decoding.Within d.settings.maxListLength payload.length
      ⟨Progress.start payload, codecs⟩ :=
    ⟨sound_start _ _ _, by simp [Decoding.extent, Progress.start, ObjectGraph.empty,
      ObjectGraph.size, Reader.ofBytes, Reader.remaining]⟩
  refine .bind (readValue_fails hstart) fun root t _ => blames ?_
  exact .bind .get fun _ => .guard (fun _ => (WireError.malformed _).blamesInput) (.pure _)

end Decoder

end ObjectEnvelope
