import ObjectEnvelope.Proofs.Payload.Codecs
import ObjectEnvelope.Proofs.Runs

/-!
# Steps of a decoding

When each step of a decoding succeeds, and what it leaves behind: one lemma for each function, from
the steps on the state up to `readValue_eq_ok_iff`, so that no later proof opens the decoder.
-/

namespace ObjectEnvelope

open Step (bind_eq_ok_iff)

theorem CodecCache.requestForm_eq_ok_iff {type : RuntimeType} {declared : ValueType}
    {form : BodyForm} {s t : CodecCache} :
    requestForm type declared s = .ok form t ↔
      type.bodyForm declared = .ok form ∧ t = s.requested type declared := by
  simp only [requestForm, bind_eq_ok_iff, Step.ofExcept_eq_ok_iff, Step.modify_eq_ok_iff,
    Step.pure_eq_ok_iff]
  constructor
  · rintro ⟨_, _, ⟨hform, rfl⟩, _, _, rfl, rfl, rfl⟩
    exact ⟨hform, rfl⟩
  · rintro ⟨hform, rfl⟩
    exact ⟨form, s, ⟨hform, rfl⟩, ⟨⟩, _, rfl, rfl, rfl⟩

namespace Decode

variable {s t : Decoding}

theorem read_eq_ok_iff {α : Type} {step : Read α} {a : α} :
    read step s = .ok a t ↔ ∃ r, step s.reader = .ok a r ∧ t = { s with reader := r } := by
  rw [read, Step.on_eq_ok_iff]
  exact exists_congr fun r => and_congr_right fun _ => eq_comm

theorem form_eq_ok_iff {type : RuntimeType} {form : BodyForm} :
    Decode.form type s = .ok form t ↔
      BodyForm.ofKind? type.kind = some form ∧
        t = { s with codecs := s.codecs.requested type .any } := by
  rw [Decode.form, Step.on_eq_ok_iff]
  constructor
  · rintro ⟨codecs, hform, rfl⟩
    obtain ⟨hbody, rfl⟩ := CodecCache.requestForm_eq_ok_iff.mp hform
    exact ⟨(RuntimeType.bodyForm_eq_ok_iff.mp hbody).2, rfl⟩
  · rintro ⟨hform, rfl⟩
    refine ⟨_, CodecCache.requestForm_eq_ok_iff.mpr ⟨?_, rfl⟩, rfl⟩
    exact RuntimeType.bodyForm_eq_ok_iff.mpr ⟨rfl, hform⟩

theorem instantiate_eq_ok_iff {type : RuntimeType} {values : List Value} {h : Handle} :
    instantiate type values s = .ok h t ↔
      ∃ graph, s.graph.instantiate type values = .ok (h, graph) ∧ t = { s with graph } := by
  simp only [instantiate, bind_eq_ok_iff, Step.get_eq_ok_iff, Step.ofExcept_eq_ok_iff,
    Step.set_eq_ok_iff, Step.pure_eq_ok_iff]
  constructor
  · rintro ⟨_, _, ⟨rfl, rfl⟩, ⟨_, graph⟩, _, ⟨hnew, rfl⟩, _, _, rfl, rfl, rfl⟩
    exact ⟨graph, hnew, rfl⟩
  · rintro ⟨graph, hnew, rfl⟩
    exact ⟨s, s, ⟨rfl, rfl⟩, (h, graph), s, ⟨hnew, rfl⟩, ⟨⟩, _, rfl, rfl, rfl⟩

theorem number_eq_ok_iff {h : Handle} {x : Unit} :
    number h s = .ok x t ↔ t = { s with numbered := s.numbered.push h } := by
  rw [number, Step.modify_eq_ok_iff]
  exact eq_comm

theorem referent_eq_ok_iff {h : Handle} :
    referent s = .ok h t ↔
      ∃ id r, Read.number 4 s.reader = .ok id r ∧ s.numbered[id]? = some h ∧
        t = { s with reader := r } := by
  simp only [referent, bind_eq_ok_iff, read_eq_ok_iff, Step.get_eq_ok_iff]
  constructor
  · rintro ⟨id, _, ⟨r, hid, rfl⟩, _, _, ⟨rfl, rfl⟩, hh⟩
    refine ⟨id, r, hid, ?_⟩
    cases hget : s.numbered[id]? with
    | none => exact absurd (by simpa only [hget] using hh) Step.throw_ne_ok
    | some h' =>
      simp only [hget, Step.pure_eq_ok_iff] at hh
      obtain ⟨rfl, rfl⟩ := hh
      exact ⟨rfl, rfl⟩
  · rintro ⟨id, r, hid, hget, rfl⟩
    refine ⟨id, _, ⟨r, hid, rfl⟩, _, _, ⟨rfl, rfl⟩, ?_⟩
    simp only [hget]
    exact Step.pure_eq_ok_iff.mpr ⟨rfl, rfl⟩

theorem tag_eq_ok_iff {found : Tag} :
    Decode.tag s = .ok found t ↔
      ∃ code r, Read.byte s.reader = .ok code r ∧ Tag.ofCode? code = some found ∧
        t = { s with reader := r } := by
  simp only [Decode.tag, bind_eq_ok_iff, read_eq_ok_iff, Step.get_eq_ok_iff]
  constructor
  · rintro ⟨_, _, ⟨rfl, rfl⟩, code, _, ⟨r, hcode, rfl⟩, htag⟩
    refine ⟨code, r, hcode, ?_⟩
    cases hfound : Tag.ofCode? code with
    | none => exact absurd (by simpa only [hfound] using htag) Step.throw_ne_ok
    | some found' =>
      simp only [hfound, Step.pure_eq_ok_iff] at htag
      obtain ⟨rfl, rfl⟩ := htag
      exact ⟨rfl, rfl⟩
  · rintro ⟨code, r, hcode, hfound, rfl⟩
    refine ⟨_, _, ⟨rfl, rfl⟩, code, _, ⟨r, hcode, rfl⟩, ?_⟩
    simp only [hfound]
    exact Step.pure_eq_ok_iff.mpr ⟨rfl, rfl⟩

end Decode

namespace Decoder

variable {d : Decoder} {s t : Decoding} {declared : ValueType} {type : RuntimeType} {v : Value}
  {slot item : ValueType → Decode Value}

theorem readType_eq_ok_iff :
    d.readType declared s = .ok type t ↔
      ∃ index r, Read.number 4 s.reader = .ok index r ∧ d.types[index]? = some type ∧
        type.accepts declared = true ∧ t = { s with reader := r } := by
  simp only [readType, bind_eq_ok_iff, Decode.read_eq_ok_iff]
  constructor
  · rintro ⟨index, _, ⟨r, hindex, rfl⟩, htype⟩
    refine ⟨index, r, hindex, ?_⟩
    cases hget : d.types[index]? with
    | none => exact absurd (by simpa only [hget] using htype) Step.throw_ne_ok
    | some type' =>
      simp only [hget] at htype
      by_cases haccepts : type'.accepts declared = true
      · rw [if_pos haccepts, Step.pure_eq_ok_iff] at htype
        obtain ⟨rfl, rfl⟩ := htype
        exact ⟨rfl, haccepts, rfl⟩
      · rw [if_neg haccepts] at htype
        exact absurd htype Step.throw_ne_ok
  · rintro ⟨index, r, hindex, hget, haccepts, rfl⟩
    refine ⟨index, _, ⟨r, hindex, rfl⟩, ?_⟩
    simp only [hget, haccepts, if_true]
    exact Step.pure_eq_ok_iff.mpr ⟨rfl, rfl⟩

theorem ofOrdinal_eq_ok_iff {ordinal : Nat} {c : Constant} :
    Constant.ofOrdinal type ordinal = .ok c ↔
      type.kind = .enumeration ∧ c.type = type ∧ c.ordinal = ordinal := by
  unfold Constant.ofOrdinal
  split
  · next hkind =>
    split
    · next hlt =>
      constructor
      · rintro ⟨rfl⟩
        exact ⟨hkind, rfl, rfl⟩
      · rintro ⟨-, rfl, rfl⟩
        rfl
    · next hge =>
      simp only [reduceCtorEq, false_iff, not_and]
      rintro - rfl rfl
      exact absurd c.inRange hge
  · next hkind => simp [hkind]

theorem readOrdinal_eq_ok_iff :
    readOrdinal type s = .ok v t ↔
      ∃ ordinal r c, Read.number 4 s.reader = .ok ordinal r ∧ type.kind = .enumeration ∧
        c.type = type ∧ c.ordinal = ordinal ∧ v = .constant c ∧ t = { s with reader := r } := by
  simp only [readOrdinal, bind_eq_ok_iff, Decode.read_eq_ok_iff]
  constructor
  · rintro ⟨ordinal, _, ⟨r, hordinal, rfl⟩, hv⟩
    cases hc : Constant.ofOrdinal type ordinal with
    | error e => exact absurd (by simpa only [hc] using hv) Step.throw_ne_ok
    | ok c =>
      simp only [hc, Step.pure_eq_ok_iff] at hv
      obtain ⟨rfl, rfl⟩ := hv
      obtain ⟨hkind, htype, hord⟩ := ofOrdinal_eq_ok_iff.mp hc
      exact ⟨ordinal, r, c, hordinal, hkind, htype, hord, rfl, rfl⟩
  · rintro ⟨ordinal, r, c, hordinal, hkind, htype, hord, rfl, rfl⟩
    refine ⟨ordinal, _, ⟨r, hordinal, rfl⟩, ?_⟩
    simp only [ofOrdinal_eq_ok_iff.mpr ⟨hkind, htype, hord⟩]
    exact Step.pure_eq_ok_iff.mpr ⟨rfl, rfl⟩

theorem readSlots_eq_ok_iff :
    readSlots slot type s = .ok v t ↔
      ∃ r values u h, Read.number 4 s.reader = .ok type.slots.length r ∧
        Step.each slot (type.slots.map (·.type)) { s with reader := r } = .ok values u ∧
        Decode.instantiate type values u = .ok h t ∧ v = .object h := by
  simp only [readSlots, bind_eq_ok_iff, Decode.read_eq_ok_iff, Step.guard_eq_ok_iff,
    Step.pure_eq_ok_iff, Step.each_map, ne_eq, Classical.not_not]
  constructor
  · rintro ⟨_, _, ⟨r, hcount, rfl⟩, rfl, values, u, hvalues, h, _, hnew, rfl, rfl⟩
    exact ⟨r, values, u, h, hcount, hvalues, hnew, rfl⟩
  · rintro ⟨r, values, u, h, hcount, hvalues, hnew, rfl⟩
    exact ⟨_, _, ⟨r, hcount, rfl⟩, rfl, values, u, hvalues, h, t, hnew, rfl, rfl⟩

/-- A constant is a type of its kind, then its ordinal. -/
theorem readConstant_eq_ok_iff :
    d.readConstant slot declared s = .ok v t ↔
      ∃ type u, d.readType declared s = .ok type u ∧ type.kind = .enumeration ∧
        readOrdinal type { u with codecs := u.codecs.requested type .any } = .ok v t := by
  rw [readConstant_eq]
  simp only [bind_eq_ok_iff, Decode.form_eq_ok_iff, Step.guard_eq_ok_iff, ne_eq,
    Classical.not_not]
  constructor
  · rintro ⟨type, u, htype, hkind, form, _, ⟨hform, rfl⟩, hbody⟩
    rw [hkind, BodyForm.ofKind?, Option.some_inj] at hform
    subst hform
    exact ⟨type, u, htype, hkind, hbody⟩
  · rintro ⟨type, u, htype, hkind, hbody⟩
    exact ⟨type, u, htype, hkind, .ordinal, _, ⟨by rw [hkind, BodyForm.ofKind?], rfl⟩, hbody⟩

/-- An object is a type with instances, then the values of its slots. -/
theorem readObject_eq_ok_iff :
    d.readObject slot declared s = .ok v t ↔
      ∃ type u, d.readType declared s = .ok type u ∧ type.kind = .composite ∧
        readSlots slot type { u with codecs := u.codecs.requested type .any } = .ok v t := by
  rw [readObject_eq]
  simp only [bind_eq_ok_iff, Decode.form_eq_ok_iff, Step.guard_eq_ok_iff,
    RuntimeType.isInstantiable, Bool.not_eq_true', Bool.not_eq_false, beq_iff_eq]
  constructor
  · rintro ⟨type, u, htype, hkind, form, _, ⟨hform, rfl⟩, hbody⟩
    rw [hkind, BodyForm.ofKind?, Option.some_inj] at hform
    subst hform
    exact ⟨type, u, htype, hkind, hbody⟩
  · rintro ⟨type, u, htype, hkind, hbody⟩
    exact ⟨type, u, htype, hkind, .slots, _, ⟨by rw [hkind, BodyForm.ofKind?], rfl⟩, hbody⟩

theorem readList_eq_ok_iff :
    d.readList item declared s = .ok v t ↔
      ∃ element count r items, declared.element? = some element ∧
        Read.length 1 s.reader = .ok count r ∧ count ≤ d.settings.maxListLength ∧
        Step.each item (List.replicate count element) { s with reader := r } = .ok items t ∧
        v = .list items := by
  unfold readList
  cases declared.element? with
  | none => simp
  | some element =>
    simp only [bind_eq_ok_iff, Decode.read_eq_ok_iff, Step.guard_eq_ok_iff, Step.pure_eq_ok_iff,
      Step.times_eq_each, Nat.not_lt, Option.some_inj]
    constructor
    · rintro ⟨count, _, ⟨r, hcount, rfl⟩, hle, items, _, hitems, rfl, rfl⟩
      exact ⟨element, count, r, items, rfl, hcount, hle, hitems, rfl⟩
    · rintro ⟨_, count, r, items, rfl, hcount, hle, hitems, rfl⟩
      exact ⟨count, _, ⟨r, hcount, rfl⟩, hle, items, _, hitems, rfl, rfl⟩

theorem numbering_readObject_eq_ok_iff :
    numbering (d.readObject slot declared) s = .ok v t ↔
      ∃ h u, d.readObject slot declared s = .ok (.object h) u ∧ v = .object h ∧
        t = { u with numbered := u.numbered.push h } := by
  simp only [numbering, bind_eq_ok_iff]
  constructor
  · rintro ⟨w, u, hw, hnumber⟩
    obtain ⟨_, _, -, -, hslots⟩ := readObject_eq_ok_iff.mp hw
    obtain ⟨_, _, _, h, -, -, -, rfl⟩ := readSlots_eq_ok_iff.mp hslots
    simp only [bind_eq_ok_iff, Decode.number_eq_ok_iff, Step.pure_eq_ok_iff] at hnumber
    obtain ⟨_, _, rfl, rfl, rfl⟩ := hnumber
    exact ⟨h, u, hw, rfl, rfl⟩
  · rintro ⟨h, u, hw, rfl, rfl⟩
    refine ⟨.object h, u, hw, ?_⟩
    simp only [bind_eq_ok_iff, Decode.number_eq_ok_iff, Step.pure_eq_ok_iff]
    exact ⟨⟨⟩, _, rfl, trivial, rfl⟩

/-- A value is a tag and what the tag announces. -/
theorem readValue_succ_eq_ok_iff {room : Nat} :
    d.readValue (room + 1) declared s = .ok v t ↔
      ∃ tag u, Decode.tag s = .ok tag u ∧
        match tag with
        | .null => v = .null ∧ t = u
        | .primitive kind => ∃ p, Decode.read (Primitive.read kind) u = .ok p t ∧ v = .primitive p
        | .list => d.readList (d.readValue room) declared u = .ok v t
        | .constant => d.readConstant (d.readValue room) declared u = .ok v t
        | .object => numbering (d.readObject (d.readValue room) declared) u = .ok v t
        | .inlineObject => d.readObject (d.readValue room) declared u = .ok v t
        | .backReference => ∃ h, Decode.referent u = .ok h t ∧ v = .object h := by
  rw [readValue, bind_eq_ok_iff]
  refine exists_congr fun tag => exists_congr fun u => and_congr_right fun _ => ?_
  cases tag with
  | null =>
    rw [Step.pure_eq_ok_iff]
    exact and_congr eq_comm eq_comm
  | primitive kind =>
    simp only [bind_eq_ok_iff, Step.pure_eq_ok_iff]
    constructor
    · rintro ⟨p, _, hp, rfl, rfl⟩
      exact ⟨p, hp, rfl⟩
    · rintro ⟨p, hp, rfl⟩
      exact ⟨p, t, hp, rfl, rfl⟩
  | backReference =>
    simp only [bind_eq_ok_iff, Step.pure_eq_ok_iff]
    constructor
    · rintro ⟨h, _, hh, rfl, rfl⟩
      exact ⟨h, hh, rfl⟩
    · rintro ⟨h, hh, rfl⟩
      exact ⟨h, t, hh, rfl, rfl⟩
  | _ => rfl

theorem readRoot_eq_ok_iff :
    d.readRoot s = .ok v t ↔
      d.readValue (d.settings.roomAt 0) .any s = .ok v t ∧ t.reader.rest = [] := by
  simp only [readRoot, bind_eq_ok_iff, Step.get_eq_ok_iff, Step.guard_eq_ok_iff,
    Step.pure_eq_ok_iff, Reader.isExhausted, Bool.not_eq_true', Bool.not_eq_false,
    List.isEmpty_iff]
  constructor
  · rintro ⟨_, u, hv, _, _, ⟨rfl, rfl⟩, hrest, rfl, rfl⟩
    exact ⟨hv, hrest⟩
  · rintro ⟨hv, hrest⟩
    exact ⟨v, t, hv, t, t, ⟨rfl, rfl⟩, hrest, rfl, rfl⟩

end Decoder

end ObjectEnvelope
