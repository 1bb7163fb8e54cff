import ObjectEnvelope.Payload.Encoder
import ObjectEnvelope.Proofs.Bytes.Writing
import ObjectEnvelope.Proofs.Payload.DecoderSteps

/-!
# Steps of an encoding

When each step of an encoding succeeds, what it writes and what it leaves behind: one lemma for each
function, and for `writeValue` one for each constructor, so that no later proof opens it. The values
of slots and the items of lists are written by the same run over typed values, `Encoder.writeEach`.
-/

namespace ObjectEnvelope

open Step (bind_eq_ok_iff)

namespace Encode

variable {s t : Encoding} {type : RuntimeType} {bytes : List UInt8}

theorem form_eq_ok_iff {declared : ValueType} {form : BodyForm} :
    Encode.form type declared s = .ok form t ↔
      type.accepts declared = true ∧ BodyForm.ofKind? type.kind = some form ∧
        t = { s with codecs := s.codecs.requested type declared } := by
  rw [Encode.form, Step.on_eq_ok_iff]
  constructor
  · rintro ⟨codecs, hform, rfl⟩
    obtain ⟨hbody, rfl⟩ := CodecCache.requestForm_eq_ok_iff.mp hform
    obtain ⟨haccepts, hkind⟩ := RuntimeType.bodyForm_eq_ok_iff.mp hbody
    exact ⟨haccepts, hkind, rfl⟩
  · rintro ⟨haccepts, hkind, rfl⟩
    refine ⟨_, CodecCache.requestForm_eq_ok_iff.mpr ⟨?_, rfl⟩, rfl⟩
    exact RuntimeType.bodyForm_eq_ok_iff.mpr ⟨haccepts, hkind⟩

theorem describe_eq_ok_iff {locals : LocalTypes} {x : Unit} :
    describe locals type s = .ok x t ↔
      ∃ schema, s.schema.describe locals type = .ok schema ∧ t = { s with schema } := by
  simp only [describe, bind_eq_ok_iff, Step.get_eq_ok_iff, Step.ofExcept_eq_ok_iff,
    Step.set_eq_ok_iff]
  constructor
  · rintro ⟨_, _, ⟨rfl, rfl⟩, schema, _, ⟨hschema, rfl⟩, rfl⟩
    exact ⟨schema, hschema, rfl⟩
  · rintro ⟨schema, hschema, rfl⟩
    exact ⟨s, s, ⟨rfl, rfl⟩, schema, s, ⟨hschema, rfl⟩, rfl⟩

theorem number_eq_ok_iff {h : Handle} {x : Unit} :
    number h s = .ok x t ↔
      s.numbered.size < Encoding.capacity ∧ t = { s with numbered := s.numbered.push h } := by
  simp only [number, bind_eq_ok_iff, Step.get_eq_ok_iff, Step.guard_eq_ok_iff, Step.set_eq_ok_iff,
    Nat.not_le]
  constructor
  · rintro ⟨_, _, ⟨rfl, rfl⟩, hsize, rfl⟩
    exact ⟨hsize, rfl⟩
  · rintro ⟨hsize, rfl⟩
    exact ⟨s, s, ⟨rfl, rfl⟩, hsize, rfl⟩

theorem typeIndex_eq_ok_iff :
    typeIndex type s = .ok bytes t ↔
      ∃ index, s.schema.index? type.name = some index ∧ bytes = LittleEndian.ofNat 4 index ∧
        t = s := by
  simp only [typeIndex, bind_eq_ok_iff, Step.get_eq_ok_iff]
  constructor
  · rintro ⟨_, _, ⟨rfl, rfl⟩, hbytes⟩
    cases hindex : s.schema.index? type.name with
    | none => exact absurd (by simpa only [hindex] using hbytes) Step.throw_ne_ok
    | some index =>
      simp only [hindex, Step.pure_eq_ok_iff] at hbytes
      obtain ⟨rfl, rfl⟩ := hbytes
      exact ⟨index, rfl, rfl, rfl⟩
  · rintro ⟨index, hindex, rfl, rfl⟩
    refine ⟨t, t, ⟨rfl, rfl⟩, ?_⟩
    simp only [hindex]
    exact Step.pure_eq_ok_iff.mpr ⟨rfl, rfl⟩

theorem all_eq_ok_iff {α : Type} {item : α → Encode (List UInt8)} {items : List α} :
    Encode.all item items s = .ok bytes t ↔
      ∃ chunks, Step.each item items s = .ok chunks t ∧ bytes = chunks.flatten := by
  simp only [Encode.all, bind_eq_ok_iff, Step.pure_eq_ok_iff]
  constructor
  · rintro ⟨chunks, _, hchunks, rfl, rfl⟩
    exact ⟨chunks, hchunks, rfl⟩
  · rintro ⟨chunks, hchunks, rfl⟩
    exact ⟨chunks, t, hchunks, rfl, rfl⟩

end Encode

namespace Encoder

variable {e : Encoder} {s t : Encoding} {declared : ValueType} {type : RuntimeType}
  {bytes : List UInt8} {slot : ValueType → Value → Encode (List UInt8)} {path : List Handle}
  {room : Nat} {h : Handle}

/-- Typed values, one after the other. -/
def writeEach (e : Encoder) (room : Nat) (path : List Handle) :
    List (ValueType × Value) → Encode (List (List UInt8)) :=
  Step.each fun p => e.writeValue room path p.1 p.2

/-- The values of the slots of an object, each with the type that its slot declares. -/
def typedFields (o : Instance) : List (ValueType × Value) :=
  (o.type.slots.zip o.fields).map fun p => (p.1.type, p.2)

/-- The items of a list, each with the type that the list declares for them. -/
def typedItems (element : ValueType) (items : List Value) : List (ValueType × Value) :=
  items.map fun v => (element, v)

theorem map_snd_typedFields {o : Instance} (hlength : o.fields.length = o.type.slots.length) :
    (typedFields o).map (·.2) = o.fields := by
  rw [typedFields, List.map_map]
  exact List.map_snd_zip (Nat.le_of_eq hlength)

theorem map_fst_typedFields {o : Instance} (hlength : o.fields.length = o.type.slots.length) :
    (typedFields o).map (·.1) = o.type.slots.map (·.type) := by
  have hmap : ((o.type.slots.zip o.fields).map (·.1)).map (·.type) = o.type.slots.map (·.type) := by
    rw [List.map_fst_zip (Nat.le_of_eq hlength.symm)]
  rw [typedFields, List.map_map, ← hmap, List.map_map]
  rfl

theorem map_snd_typedItems (element : ValueType) (items : List Value) :
    (typedItems element items).map (·.2) = items := by
  rw [typedItems, List.map_map]
  exact List.map_id items

theorem map_fst_typedItems (element : ValueType) (items : List Value) :
    (typedItems element items).map (·.1) = List.replicate items.length element := by
  rw [typedItems, List.map_map]
  exact List.map_const'

theorem writeBody_slots_eq_ok_iff {o : Instance} (hget : e.graph.get? h = some o) :
    e.writeBody slot o.type .slots (.object h) s = .ok bytes t ↔
      ∃ index chunks, s.schema.index? o.type.name = some index ∧
        o.type.slots.length < 2 ^ 32 ∧
        Step.each (fun p => slot p.1 p.2) (typedFields o) s = .ok chunks t ∧
        bytes = LittleEndian.ofNat 4 index ++ LittleEndian.ofNat 4 o.type.slots.length ++
          chunks.flatten := by
  simp only [writeBody, hget, bind_eq_ok_iff, Encode.typeIndex_eq_ok_iff, Step.ofExcept_eq_ok_iff,
    Write.length_eq_ok_iff, Encode.all_eq_ok_iff, Step.pure_eq_ok_iff, typedFields, Step.each_map]
  constructor
  · rintro ⟨_, _, ⟨index, hindex, rfl, rfl⟩, _, _, ⟨⟨hcount, rfl⟩, rfl⟩, _, _,
      ⟨chunks, hchunks, rfl⟩, rfl, rfl⟩
    exact ⟨index, chunks, hindex, hcount, hchunks, rfl⟩
  · rintro ⟨index, chunks, hindex, hcount, hchunks, rfl⟩
    exact ⟨_, s, ⟨index, hindex, rfl, rfl⟩, _, s, ⟨⟨hcount, rfl⟩, rfl⟩, _, t,
      ⟨chunks, hchunks, rfl⟩, rfl, rfl⟩

theorem writeBody_ordinal_eq_ok_iff {c : Constant} :
    e.writeBody slot type .ordinal (.constant c) s = .ok bytes t ↔
      ∃ index, s.schema.index? type.name = some index ∧
        bytes = LittleEndian.ofNat 4 index ++ LittleEndian.ofNat 4 c.ordinal ∧ t = s := by
  simp only [writeBody, bind_eq_ok_iff, Encode.typeIndex_eq_ok_iff, Step.pure_eq_ok_iff]
  constructor
  · rintro ⟨_, _, ⟨index, hindex, rfl, rfl⟩, rfl, rfl⟩
    exact ⟨index, hindex, rfl, rfl⟩
  · rintro ⟨index, hindex, rfl, rfl⟩
    exact ⟨_, t, ⟨index, hindex, rfl, rfl⟩, rfl, rfl⟩

/-- The state in which the body of a value of the type is written: its codec was requested and it is
described in the schema. -/
def announced (s : Encoding) (type : RuntimeType) (declared : ValueType) (schema : SchemaTable) :
    Encoding :=
  { s with schema, codecs := s.codecs.requested type declared }

theorem writeConstant_eq_ok_iff {c : Constant} (hkind : c.type.kind = .enumeration) :
    e.writeConstant declared c s = .ok bytes t ↔
      ∃ schema index, c.type.accepts declared = true ∧
        s.schema.describe e.locals c.type = .ok schema ∧
        schema.index? c.type.name = some index ∧ t = announced s c.type declared schema ∧
        bytes = Tag.constant.code :: (LittleEndian.ofNat 4 index ++
          LittleEndian.ofNat 4 c.ordinal) := by
  rw [writeConstant_eq]
  simp only [bind_eq_ok_iff, Encode.form_eq_ok_iff, Encode.describe_eq_ok_iff,
    Step.pure_eq_ok_iff, hkind, BodyForm.ofKind?, Option.some_inj]
  constructor
  · rintro ⟨_, _, ⟨haccepts, rfl, rfl⟩, _, _, ⟨schema, hschema, rfl⟩, _, _, hbody, rfl, rfl⟩
    obtain ⟨index, hindex, rfl, rfl⟩ := writeBody_ordinal_eq_ok_iff.mp hbody
    exact ⟨schema, index, haccepts, hschema, hindex, rfl, rfl⟩
  · rintro ⟨schema, index, haccepts, hschema, hindex, rfl, rfl⟩
    exact ⟨_, _, ⟨haccepts, rfl, rfl⟩, ⟨⟩, _, ⟨schema, hschema, rfl⟩, _, _,
      writeBody_ordinal_eq_ok_iff.mpr ⟨index, hindex, rfl, rfl⟩, rfl, rfl⟩

/-- An object whose fields were written gets the next number, unless its type is an inline one. -/
def Completes (e : Encoder) (o : Instance) (h : Handle) (u t : Encoding) : Prop :=
  if e.settings.isInline o.type.name then t = u
  else u.numbered.size < Encoding.capacity ∧ t = { u with numbered := u.numbered.push h }

theorem completes_of_inline {o : Instance} {u : Encoding}
    (hinline : e.settings.isInline o.type.name = true) : e.Completes o h u t ↔ t = u := by
  rw [Completes, if_pos hinline]

theorem completes_of_not_inline {o : Instance} {u : Encoding}
    (hinline : ¬ e.settings.isInline o.type.name = true) :
    e.Completes o h u t ↔
      u.numbered.size < Encoding.capacity ∧ t = { u with numbered := u.numbered.push h } := by
  rw [Completes, if_neg hinline]

/-- A new object is written unless it stands inside itself, and is complete behind its fields. -/
theorem writeNew_eq_ok_iff {o : Instance} (hget : e.graph.get? h = some o) :
    e.writeNew slot path .slots o.type h s = .ok bytes t ↔
      h ∉ path ∧ ∃ index chunks u, s.schema.index? o.type.name = some index ∧
        o.type.slots.length < 2 ^ 32 ∧
        Step.each (fun p => slot p.1 p.2) (typedFields o) s = .ok chunks u ∧
        bytes = (if e.settings.isInline o.type.name then Tag.inlineObject else Tag.object).code ::
          (LittleEndian.ofNat 4 index ++ LittleEndian.ofNat 4 o.type.slots.length ++
            chunks.flatten) ∧
        e.Completes o h u t := by
  simp only [writeNew, Step.guard_eq_ok_iff, bind_eq_ok_iff, writeBody_slots_eq_ok_iff hget]
  refine and_congr_right fun _ => ?_
  by_cases hinline : e.settings.isInline o.type.name = true
  · simp only [completes_of_inline hinline, hinline, if_true, Step.pure_eq_ok_iff]
    constructor
    · rintro ⟨_, u, ⟨index, chunks, hindex, hcount, hchunks, rfl⟩, rfl, rfl⟩
      exact ⟨index, chunks, u, hindex, hcount, hchunks, rfl, rfl⟩
    · rintro ⟨index, chunks, u, hindex, hcount, hchunks, rfl, rfl⟩
      exact ⟨_, t, ⟨index, chunks, hindex, hcount, hchunks, rfl⟩, rfl, rfl⟩
  · simp only [completes_of_not_inline hinline, hinline, Bool.false_eq_true, if_false,
      bind_eq_ok_iff, Encode.number_eq_ok_iff, Step.pure_eq_ok_iff]
    constructor
    · rintro ⟨_, u, ⟨index, chunks, hindex, hcount, hchunks, rfl⟩, _, _, ⟨hsize, rfl⟩, rfl, rfl⟩
      exact ⟨index, chunks, u, hindex, hcount, hchunks, rfl, hsize, rfl⟩
    · rintro ⟨index, chunks, u, hindex, hcount, hchunks, rfl, hsize, rfl⟩
      exact ⟨_, u, ⟨index, chunks, hindex, hcount, hchunks, rfl⟩, ⟨⟩, _, ⟨hsize, rfl⟩, rfl, rfl⟩

/-- An object is announced, and then referred back to or written anew. -/
theorem writeObject_eq_ok_iff {o : Instance} (hget : e.graph.get? h = some o)
    (hkind : o.type.kind = .composite) :
    e.writeObject slot path declared h s = .ok bytes t ↔
      ∃ schema, o.type.accepts declared = true ∧
        s.schema.describe e.locals o.type = .ok schema ∧
        match s.numbered.idxOf? h with
        | some id => t = announced s o.type declared schema ∧
            bytes = Tag.backReference.code :: LittleEndian.ofNat 4 id
        | none => e.writeNew slot path .slots o.type h (announced s o.type declared schema) =
            .ok bytes t := by
  rw [writeObject_eq _ _ _ _ hget]
  simp only [bind_eq_ok_iff, Encode.form_eq_ok_iff, Encode.describe_eq_ok_iff,
    Step.get_eq_ok_iff, hkind, BodyForm.ofKind?, Option.some_inj]
  constructor
  · rintro ⟨_, _, ⟨haccepts, rfl, rfl⟩, _, _, ⟨schema, hschema, rfl⟩, _, _, ⟨rfl, rfl⟩, hwrite⟩
    refine ⟨schema, haccepts, hschema, ?_⟩
    cases hid : s.numbered.idxOf? h with
    | none =>
      simp only [hid] at hwrite ⊢
      exact hwrite
    | some id =>
      simp only [hid, Step.pure_eq_ok_iff] at hwrite
      exact ⟨hwrite.2.symm, hwrite.1.symm⟩
  · rintro ⟨schema, haccepts, hschema, hwrite⟩
    refine ⟨.slots, _, ⟨haccepts, rfl, rfl⟩, ⟨⟩, _, ⟨schema, hschema, rfl⟩, _, _, ⟨rfl, rfl⟩, ?_⟩
    cases hid : s.numbered.idxOf? h with
    | none =>
      simp only [hid] at hwrite ⊢
      exact hwrite
    | some id =>
      simp only [hid] at hwrite ⊢
      exact Step.pure_eq_ok_iff.mpr ⟨hwrite.2.symm, hwrite.1.symm⟩

/-- Nothing is written for an object that is not in the graph. -/
theorem writeObject_ne_ok (hget : e.graph.get? h = none) :
    e.writeObject slot path declared h s ≠ .ok bytes t := by
  rw [writeObject_of_get?_eq_none _ _ _ _ hget]
  exact Step.throw_ne_ok

theorem writeNull_eq_ok_iff :
    e.writeValue (room + 1) path declared .null s = .ok bytes t ↔
      declared.canBeNull = true ∧ bytes = [Tag.null.code] ∧ t = s := by
  simp only [writeValue]
  by_cases hnull : declared.canBeNull = true
  · rw [if_pos hnull, Step.pure_eq_ok_iff]
    simp only [hnull, true_and]
    exact and_congr eq_comm eq_comm
  · simp [hnull]

theorem writePrimitive_eq_ok_iff {p : Primitive} :
    e.writeValue (room + 1) path declared (.primitive p) s = .ok bytes t ↔
      declared.admits p.kind = true ∧ ∃ body, p.encode = .ok body ∧
        bytes = (Tag.primitive p.kind).code :: body ∧ t = s := by
  simp only [writeValue, Step.guard_eq_ok_iff, bind_eq_ok_iff, Step.ofExcept_eq_ok_iff,
    Step.pure_eq_ok_iff, Bool.not_eq_true', Bool.not_eq_false]
  refine and_congr_right fun _ => ?_
  constructor
  · rintro ⟨body, _, ⟨hbody, rfl⟩, rfl, rfl⟩
    exact ⟨body, hbody, rfl, rfl⟩
  · rintro ⟨body, hbody, rfl, rfl⟩
    exact ⟨body, t, ⟨hbody, rfl⟩, rfl, rfl⟩

theorem writeList_eq_ok_iff {items : List Value} :
    e.writeValue (room + 1) path declared (.list items) s = .ok bytes t ↔
      ∃ element chunks, declared.element? = some element ∧ items.length < 2 ^ 32 ∧
        e.writeEach room path (typedItems element items) s = .ok chunks t ∧
        bytes = Tag.list.code :: (LittleEndian.ofNat 4 items.length ++ chunks.flatten) := by
  simp only [writeValue]
  cases declared.element? with
  | none => simp
  | some element =>
    simp only [bind_eq_ok_iff, Step.ofExcept_eq_ok_iff, Write.length_eq_ok_iff,
      Encode.all_eq_ok_iff, Step.pure_eq_ok_iff, Option.some_inj, writeEach, typedItems,
      Step.each_map]
    constructor
    · rintro ⟨_, _, ⟨⟨hcount, rfl⟩, rfl⟩, _, _, ⟨chunks, hchunks, rfl⟩, rfl, rfl⟩
      exact ⟨element, chunks, rfl, hcount, hchunks, rfl⟩
    · rintro ⟨_, chunks, rfl, hcount, hchunks, rfl⟩
      exact ⟨_, s, ⟨⟨hcount, rfl⟩, rfl⟩, _, t, ⟨chunks, hchunks, rfl⟩, rfl, rfl⟩

theorem writeRoot_eq_ok_iff {root : Value} {envelope : Envelope} :
    e.writeRoot root s = .ok envelope t ↔
      root ≠ .null ∧ e.writeValue (e.settings.roomAt 0) [] .any root s = .ok envelope.payload t ∧
        envelope.schema = t.schema.entries := by
  simp only [writeRoot, Step.guard_eq_ok_iff, bind_eq_ok_iff, Step.get_eq_ok_iff,
    Step.pure_eq_ok_iff]
  have hnull : root.isNull = true ↔ root = .null := by cases root <;> simp [Value.isNull]
  rw [not_congr hnull]
  refine and_congr_right fun _ => ?_
  constructor
  · rintro ⟨payload, _, hpayload, _, _, ⟨rfl, rfl⟩, rfl, rfl⟩
    exact ⟨hpayload, rfl⟩
  · rintro ⟨hpayload, hschema⟩
    refine ⟨envelope.payload, t, hpayload, t, t, ⟨rfl, rfl⟩, ?_, rfl⟩
    rw [← hschema]

end Encoder

end ObjectEnvelope
