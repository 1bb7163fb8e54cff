import ObjectEnvelope.Proofs.Bytes.ReadBack
import ObjectEnvelope.Proofs.Graph.Copies
import ObjectEnvelope.Proofs.Payload.DecoderSteps

/-!
# Restoring what was written

A step of a decoding restores something from its bytes when it reads a copy of it, whatever follows
them, and the graph goes on to mirror the one that was written: `Decode.Restores`. A decoding has
two ways out: a list can be longer than it takes, and the graph can be full (`Decode.Refusal`). The
lemmas follow the decoder, function by function, and say nothing about where the bytes come from.
-/

namespace ObjectEnvelope

open ObjectGraph (Linked)
open Step (Yields)

/-- The graph read so far mirrors the one that was written, and the objects have the same numbers.
-/
structure Decoding.Mirrors (g : ObjectGraph) (numbered origin : List Handle) (s : Decoding) :
    Prop where
  graph : g.Mirrors origin s.graph
  numbers : List.Forall₂ (Linked origin) numbered s.numbered.toList

namespace Decode

/-- How a decoding may refuse what was written: as a list that is too long, for one of the lengths
in `long`, or since there is no room for `count` objects. -/
inductive Refusal (limit : Nat) (long : Nat → Prop) (count : Nat) : WireError → Prop
  | long {length : Nat} (hlong : long length) (hlimit : limit < length) :
      Refusal limit long count (.invalidEnvelope (.listTooLong length limit))
  | full (hcount : ObjectGraph.capacity < count) :
      Refusal limit long count (.notSerializable .graphFull)

theorem Refusal.mono {limit : Nat} {long : Nat → Prop} {count count' : Nat} {e : WireError}
    (h : Refusal limit long count e) (hle : count ≤ count') : Refusal limit long count' e := by
  cases h with
  | long hlong hlimit => exact .long hlong hlimit
  | full hcount => exact .full (Nat.lt_of_lt_of_le hcount hle)

/-- From the bytes, whatever follows them, the step makes copies of the objects in `made` and
returns a result that is a copy along the links to them; afterwards the objects in `after` have
numbers. Otherwise it is refused. -/
def Restores {α : Type} (limit : Nat) (long : Nat → Prop) (g : ObjectGraph)
    (before after made : List Handle) (bytes : List UInt8)
    (copies : (Handle → Handle → Prop) → α → Prop) (step : Decode α) : Prop :=
  ∀ offset tail origin (s : Decoding), s.reader = ⟨offset, bytes ++ tail⟩ →
    s.Mirrors g before origin →
    Yields step s
      (fun a t => t.reader = ⟨offset + bytes.length, tail⟩ ∧ t.Mirrors g after (origin ++ made) ∧
        copies (Linked (origin ++ made)) a)
      (Refusal limit long (origin.length + made.length))

variable {α β : Type} {limit : Nat} {long : Nat → Prop} {g : ObjectGraph}
  {before between after made : List Handle} {bytes rest : List UInt8}
  {copies : (Handle → Handle → Prop) → β → Prop}

theorem restores_pure {numbered : List Handle} {b : β} (hcopies : ∀ link, copies link b) :
    Restores limit long g numbered numbered [] [] copies (pure b) := by
  intro offset tail origin s hreader hmirrors
  refine Step.yields_pure ⟨hreader, ?_, hcopies _⟩
  rw [List.append_nil]
  exact hmirrors

/-! ## Reading ahead of a step -/

/-- A step that does no more than read its bytes goes ahead of a step. -/
theorem Restores.ahead {first : List UInt8} {step : Decode α} {a : α} {next : α → Decode β}
    (hstep : ∀ offset tail (s : Decoding), s.reader = ⟨offset, first ++ (rest ++ tail)⟩ →
      step s = .ok a { s with reader := ⟨offset + first.length, rest ++ tail⟩ })
    (hnext : Restores limit long g before after made rest copies (next a)) :
    Restores limit long g before after made (first ++ rest) copies (step >>= next) := by
  intro offset tail origin s hreader hmirrors
  rw [List.append_assoc] at hreader
  refine (Step.yields_of_ok (hstep offset tail s hreader)).bind ?_
  rintro _ _ ⟨rfl, rfl⟩
  rw [List.length_append, ← Nat.add_assoc]
  exact hnext _ tail origin _ rfl ⟨hmirrors.graph, hmirrors.numbers⟩

theorem Restores.read {step : Read α} {a : α} {next : α → Decode β}
    (hstep : Read.Returns step bytes a)
    (hnext : Restores limit long g before after made rest copies (next a)) :
    Restores limit long g before after made (bytes ++ rest) copies (Decode.read step >>= next) := by
  refine .ahead (fun offset tail s hreader => ?_) hnext
  refine Decode.read_eq_ok_iff.mpr ⟨_, ?_, rfl⟩
  rw [hreader]
  exact hstep offset (rest ++ tail)

theorem Restores.tag (tag : Tag) {next : Tag → Decode β}
    (hnext : Restores limit long g before after made bytes copies (next tag)) :
    Restores limit long g before after made (tag.code :: bytes) copies (Decode.tag >>= next) := by
  show Restores limit long g before after made ([tag.code] ++ bytes) copies (Decode.tag >>= next)
  refine .ahead (fun offset tail s hreader => ?_) hnext
  refine Decode.tag_eq_ok_iff.mpr ⟨tag.code, _, ?_, Tag.ofCode?_code tag, rfl⟩
  rw [hreader]
  exact Read.returns_byte tag.code offset (bytes ++ tail)

/-- A length, which looks ahead at the items that it counts. -/
theorem Restores.length {n : Nat} {next : Nat → Decode β} (h : n < 2 ^ 32)
    (hrest : n ≤ rest.length)
    (hnext : Restores limit long g before after made rest copies (next n)) :
    Restores limit long g before after made (LittleEndian.ofNat 4 n ++ rest) copies
      (Decode.read (Read.length 1) >>= next) := by
  refine .ahead (fun offset tail s hreader => ?_) hnext
  refine Decode.read_eq_ok_iff.mpr ⟨_, ?_, rfl⟩
  rw [hreader, LittleEndian.length_ofNat]
  refine Read.length_eq_ok h ?_
  rw [Nat.max_self, Nat.mul_one, List.length_append]
  omega

theorem Restores.type {d : Decoder} {index : Nat} {type : RuntimeType} {declared : ValueType}
    {next : RuntimeType → Decode β} (hindex : index < 2 ^ 32)
    (htype : d.types[index]? = some type) (haccepts : type.accepts declared = true)
    (hnext : Restores limit long g before after made bytes copies (next type)) :
    Restores limit long g before after made (LittleEndian.ofNat 4 index ++ bytes) copies
      (d.readType declared >>= next) := by
  refine .ahead (fun offset tail s hreader => ?_) hnext
  refine Decoder.readType_eq_ok_iff.mpr ⟨index, _, ?_, htype, haccepts, rfl⟩
  rw [hreader]
  exact @Read.returns_number 4 index hindex offset (bytes ++ tail)

/-- The form of the bodies of a type is asked for, which changes the codecs alone. -/
theorem Restores.form {type : RuntimeType} {form : BodyForm} {next : BodyForm → Decode β}
    (hform : BodyForm.ofKind? type.kind = some form)
    (hnext : Restores limit long g before after made bytes copies (next form)) :
    Restores limit long g before after made bytes copies (Decode.form type >>= next) := by
  intro offset tail origin s hreader hmirrors
  refine (Step.yields_of_ok (Decode.form_eq_ok_iff.mpr ⟨hform, rfl⟩)).bind ?_
  rintro _ _ ⟨rfl, rfl⟩
  exact hnext offset tail origin _ hreader ⟨hmirrors.graph, hmirrors.numbers⟩

/-- A result that is worked out of a copy. -/
theorem Restores.map {step : Decode α} {copies' : (Handle → Handle → Prop) → α → Prop} (f : α → β)
    (hstep : Restores limit long g before after made bytes copies' step)
    (hf : ∀ link a, copies' link a → copies link (f a)) :
    Restores limit long g before after made bytes copies (do return f (← step)) := by
  intro offset tail origin s hreader hmirrors
  refine (hstep offset tail origin s hreader hmirrors).bind ?_
  rintro a t ⟨hreader', hmirrors', hcopies⟩
  exact Step.yields_pure ⟨hreader', hmirrors', hf _ a hcopies⟩

/-! ## Several steps -/

/-- Nothing is restored from no bytes. -/
theorem restores_each_nil {numbered : List Handle} {step : β → Decode Value} :
    Restores limit long g numbered numbered [] []
      (fun link => List.Forall₂ (Value.Copies link) []) (Step.each step []) :=
  restores_pure fun _ => .nil

/-- A value is restored, and the others after it. -/
theorem Restores.each_cons {step : β → Decode Value} {b : β} {others : List β} {v : Value}
    {values : List Value} {made' : List Handle}
    (hstep : Restores limit long g before between made bytes (fun link => v.Copies link) (step b))
    (hothers : Restores limit long g between after made' rest
      (fun link => List.Forall₂ (Value.Copies link) values) (Step.each step others)) :
    Restores limit long g before after (made ++ made') (bytes ++ rest)
      (fun link => List.Forall₂ (Value.Copies link) (v :: values))
      (Step.each step (b :: others)) := by
  intro offset tail origin s hreader hmirrors
  rw [List.append_assoc] at hreader
  have hcount : (origin ++ made).length + made'.length =
      origin.length + (made ++ made').length := by
    simp only [List.length_append]
    omega
  have hfirst := (hstep offset (rest ++ tail) origin s hreader hmirrors).mono
    (fun _ _ hok => hok) fun e he => he.mono (show _ ≤ origin.length + (made ++ made').length by
      rw [← hcount, List.length_append]
      omega)
  rw [Step.each]
  refine hfirst.bind ?_
  rintro w u ⟨hreader', hmirrors', hcopies⟩
  have hnext := hothers _ tail (origin ++ made) u hreader' hmirrors'
  rw [hcount] at hnext
  refine hnext.bind ?_
  rintro ws t ⟨hreader'', hmirrors'', hcopies'⟩
  rw [List.append_assoc] at hmirrors'' hcopies'
  refine Step.yields_pure ⟨?_, hmirrors'', .cons (hcopies.mono fun h k hk => ?_) hcopies'⟩
  · rw [hreader'', List.length_append, Nat.add_assoc]
  · rw [← List.append_assoc]
    exact hk.append made'

/-- An object of whose kind there can be one is added, unless there is no room for it. -/
theorem yields_instantiate {type : RuntimeType} {values : List Value} {s : Decoding}
    (htype : type.isInstantiable = true) (hlength : values.length = type.slots.length)
    (hslots : ∀ p ∈ type.slots.zip values, s.graph.FitsSlot p.1 p.2) :
    Yields (instantiate type values) s
      (fun h t => h = ⟨s.graph.size⟩ ∧
        t = { s with graph := ⟨s.graph.objects.push ⟨type, values⟩⟩ })
      (fun e => e = .notSerializable .graphFull ∧ ObjectGraph.capacity ≤ s.graph.size) := by
  rcases Nat.lt_or_ge s.graph.size ObjectGraph.capacity with hroom | hfull
  · refine Step.yields_of_ok (instantiate_eq_ok_iff.mpr ⟨_, ?_, rfl⟩)
    exact ObjectGraph.instantiate_eq_ok_iff.mpr ⟨htype, hlength, hslots, hroom, rfl, rfl⟩
  · refine Step.yields_get.bind ?_
    rintro _ _ ⟨rfl, rfl⟩
    have herror := ObjectGraph.instantiate_eq_error_of_full htype hlength hslots hfull
    exact .inr ⟨_, s, Step.bind_eq_error_iff.mpr
      (.inl (Step.ofExcept_eq_error_iff.mpr ⟨herror, rfl⟩)), rfl, hfull⟩

end Decode

namespace Decoder

open Decode (Restores)

variable {d : Decoder} {long : Nat → Prop} {g : ObjectGraph} {before after made : List Handle}
  {bytes : List UInt8} {declared : ValueType} {slot : ValueType → Decode Value}
  {type : RuntimeType} {index limit : Nat}

/-! ## Functions of the decoder -/

/-- A list is restored when its items are, or else refused for its length. -/
theorem restores_readList {element : ValueType} {items : List Value}
    (helement : declared.element? = some element) (hlength : items.length < 2 ^ 32)
    (hlong : long items.length) (hbytes : items.length ≤ bytes.length)
    (hitems : Restores d.settings.maxListLength long g before after made bytes
      (fun link => List.Forall₂ (Value.Copies link) items)
      (Step.each slot (List.replicate items.length element))) :
    Restores d.settings.maxListLength long g before after made
      (LittleEndian.ofNat 4 items.length ++ bytes)
      (fun link => (Value.list items).Copies link) (d.readList slot declared) := by
  unfold readList
  rw [helement]
  refine .length hlength hbytes ?_
  by_cases hlimit : d.settings.maxListLength < items.length
  · rw [if_pos hlimit]
    exact fun _ _ _ _ _ _ => Step.yields_throw (.long hlong hlimit)
  · rw [if_neg hlimit, Step.times_eq_each]
    exact hitems.map Value.list fun _ _ => .list

theorem restores_readOrdinal {c : Constant} (htwin : c.type.Twin type)
    (hkind : type.kind = .enumeration) {numbered : List Handle} :
    Restores limit long g numbered numbered [] (LittleEndian.ofNat 4 c.ordinal)
      (fun link => (Value.constant c).Copies link) (readOrdinal type) := by
  have hordinal : c.ordinal < 256 ^ 4 := by
    have hlt := c.inRange
    have hle := c.type.length_constants_le
    unfold maxSlots at hle
    omega
  have hrange : c.ordinal < type.constants.length := htwin.constants ▸ c.inRange
  have hconstant : Constant.ofOrdinal type c.ordinal = .ok ⟨type, c.ordinal, hrange⟩ :=
    ofOrdinal_eq_ok_iff.mpr ⟨hkind, rfl, rfl⟩
  rw [← List.append_nil (LittleEndian.ofNat 4 c.ordinal)]
  refine .read (Read.returns_number hordinal) ?_
  rw [hconstant]
  exact Decode.restores_pure fun _ => .constant htwin rfl

theorem restores_readConstant {c : Constant} (hindex : index < 2 ^ 32)
    (htype : d.types[index]? = some type) (htwin : c.type.Twin type)
    (haccepts : c.type.accepts declared = true) {numbered : List Handle} :
    Restores limit long g numbered numbered []
      (LittleEndian.ofNat 4 index ++ LittleEndian.ofNat 4 c.ordinal)
      (fun link => (Value.constant c).Copies link) (d.readConstant slot declared) := by
  have hkind : type.kind = .enumeration := htwin.kind ▸ c.kind_type
  have hform : BodyForm.ofKind? type.kind = some .ordinal := by rw [hkind]; rfl
  rw [readConstant_eq]
  refine .type hindex htype (htwin.accepts declared ▸ haccepts) ?_
  rw [if_neg (not_not_intro hkind)]
  exact .form hform (restores_readOrdinal htwin hkind)

/-- The fields are restored, and the object that they make is the copy. -/
theorem restores_readSlots {h : Handle} {o : Instance} (hget : g.get? h = some o)
    (hobject : g.FitsObject o) (htwin : o.type.Twin type)
    (hfields : Restores limit long g before after made bytes
      (fun link => List.Forall₂ (Value.Copies link) o.fields)
      (Step.each slot (type.slots.map (·.type)))) :
    Restores limit long g before after (made ++ [h])
      (LittleEndian.ofNat 4 o.type.slots.length ++ bytes)
      (fun link => (Value.object h).Copies link) (readSlots slot type) := by
  have hcount : o.type.slots.length < 256 ^ 4 := by
    have hle := o.type.length_slots_le
    unfold maxSlots at hle
    omega
  have hinstantiable : type.isInstantiable = true := by
    rw [RuntimeType.isInstantiable, ← htwin.kind, hobject.composite]
    rfl
  unfold readSlots
  refine .read (Read.returns_number hcount) ?_
  rw [if_neg (not_not_intro (congrArg List.length htwin.slots)), ← Step.each_map]
  intro offset tail origin s hreader hmirrors
  have hmade : origin.length + (made ++ [h]).length = origin.length + made.length + 1 := by
    rw [List.length_append, ← Nat.add_assoc]
    rfl
  rw [hmade]
  refine ((hfields offset tail origin s hreader hmirrors).mono (fun _ _ hok => hok)
    fun e he => he.mono (Nat.le_succ _)).bind ?_
  rintro ws u ⟨hreader', hmirrors', hcopies⟩
  have hlength : ws.length = type.slots.length := by
    rw [← hcopies.length_eq, hobject.length_fields, htwin.slots]
  have hnew := (Decode.yields_instantiate hinstantiable hlength
    (hobject.copies htwin hcopies hmirrors'.graph.exists_twin)).mono (fun _ _ hok => hok)
    fun e (he : _ ∧ ObjectGraph.capacity ≤ u.graph.size) => show Decode.Refusal limit long
      (origin.length + made.length + 1) e by
        rw [hmirrors'.graph.size, List.length_append] at he
        rw [he.1]
        exact .full (Nat.lt_succ_of_le he.2)
  refine hnew.bind ?_
  rintro _ _ ⟨rfl, rfl⟩
  have hcopy : o.Copies (Linked (origin ++ made)) ⟨type, ws⟩ := ⟨htwin, hcopies⟩
  obtain ⟨hgraph, hlinked⟩ := hmirrors'.graph.push hget hcopy
  rw [List.append_assoc] at hgraph hlinked
  refine Step.yields_pure ⟨hreader', ⟨hgraph, ?_⟩, .object hlinked⟩
  rw [← List.append_assoc]
  exact hmirrors'.numbers.imp fun h k hk => hk.append [_]

theorem restores_readObject {h : Handle} {o : Instance} (hindex : index < 2 ^ 32)
    (htype : d.types[index]? = some type) (htwin : o.type.Twin type)
    (haccepts : o.type.accepts declared = true) (hget : g.get? h = some o)
    (hobject : g.FitsObject o)
    (hfields : Restores limit long g before after made bytes
      (fun link => List.Forall₂ (Value.Copies link) o.fields)
      (Step.each slot (type.slots.map (·.type)))) :
    Restores limit long g before after (made ++ [h])
      (LittleEndian.ofNat 4 index ++ (LittleEndian.ofNat 4 o.type.slots.length ++ bytes))
      (fun link => (Value.object h).Copies link) (d.readObject slot declared) := by
  have hkind : type.kind = .composite := htwin.kind ▸ hobject.composite
  have hform : BodyForm.ofKind? type.kind = some .slots := by rw [hkind]; rfl
  rw [readObject_eq]
  refine .type hindex htype (htwin.accepts declared ▸ haccepts) ?_
  rw [if_neg (by simp [RuntimeType.isInstantiable, hkind])]
  exact .form hform (restores_readSlots hget hobject htwin hfields)

/-- An object gets the next number, as its original got it. -/
theorem restores_numbering {h : Handle} {step : Decode Value}
    (hstep : Restores limit long g before after made bytes
      (fun link => (Value.object h).Copies link) step) :
    Restores limit long g before (after ++ [h]) made bytes
      (fun link => (Value.object h).Copies link) (numbering step) := by
  intro offset tail origin s hreader hmirrors
  refine (hstep offset tail origin s hreader hmirrors).bind ?_
  rintro w t ⟨hreader', hmirrors', hcopies⟩
  cases hcopies with
  | @object _ k hlink =>
    have hnumber : Decode.number k t = .ok ⟨⟩ { t with numbered := t.numbered.push k } :=
      Decode.number_eq_ok_iff.mpr rfl
    refine (Step.yields_of_ok hnumber).bind ?_
    rintro _ _ ⟨-, rfl⟩
    refine Step.yields_pure ⟨hreader', ⟨hmirrors'.graph, ?_⟩, .object hlink⟩
    rw [Array.toList_push]
    exact List.rel_append hmirrors'.numbers (.cons hlink .nil)

/-- What has a number is found by it. -/
theorem restores_referent {h : Handle} {id : Nat} {numbered : List Handle}
    (hid : numbered[id]? = some h) (hlt : id < 2 ^ 32) :
    Restores limit long g numbered numbered [] (LittleEndian.ofNat 4 id)
      (fun link => (Value.object h).Copies link) (do return .object (← Decode.referent)) := by
  intro offset tail origin s hreader hmirrors
  have hnumber := @Read.returns_number 4 id hlt offset tail
  obtain ⟨hid', rfl⟩ := List.getElem?_eq_some_iff.mp hid
  have hlt' := hmirrors.numbers.length_eq ▸ hid'
  have hlinked := hmirrors.numbers.get hid' hlt'
  have hreferent : Decode.referent s = .ok s.numbered.toList[id]
      { s with reader := ⟨offset + (LittleEndian.ofNat 4 id).length, tail⟩ } := by
    refine Decode.referent_eq_ok_iff.mpr ⟨id, _, ?_, ?_, rfl⟩
    · rw [hreader]
      exact hnumber
    · rw [← Array.getElem?_toList]
      exact List.getElem?_eq_getElem hlt'
  refine (Step.yields_of_ok hreferent).bind ?_
  rintro _ _ ⟨rfl, rfl⟩
  rw [List.append_nil]
  exact Step.yields_pure ⟨rfl, ⟨hmirrors.graph, hmirrors.numbers⟩, .object hlinked⟩

end Decoder

end ObjectEnvelope
