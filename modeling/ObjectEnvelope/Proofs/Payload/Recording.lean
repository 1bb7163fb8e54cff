import ObjectEnvelope.Payload.Decoder
import ObjectEnvelope.Proofs.Runs

/-!
# Recorded decodings

A decoding that records which objects become complete and where back-references are met. It does
line by line what the decoder does, and notes an event here and there; without the events it is the
decoder (`Decoder.recordRoot_erases`). Every run has a history in this way, also one that fails.
-/

namespace ObjectEnvelope

/-- What happens in a decoding. -/
inductive Event
  /-- The body of an object, not an inline one, is complete. -/
  | body (h : Handle)
  /-- The body of an inline object is complete. -/
  | inlineBody (h : Handle)
  /-- The decoding stands behind the tag of a back-reference. -/
  | reference (s : Decoding)

namespace Event

/-- The object whose body became complete, unless it is an inline object. -/
def body? : Event → Option Handle
  | body h => some h
  | inlineBody _ => none
  | reference _ => none

/-- The object that became complete. -/
def object? : Event → Option Handle
  | body h => some h
  | inlineBody h => some h
  | reference _ => none

/-- The objects whose bodies became complete, without inline objects, in that order. -/
def bodies (log : List Event) : List Handle :=
  log.filterMap body?

/-- The objects that became complete, in that order. -/
def objects (log : List Event) : List Handle :=
  log.filterMap object?

@[simp] theorem bodies_append (log rest : List Event) :
    bodies (log ++ rest) = bodies log ++ bodies rest :=
  List.filterMap_append

@[simp] theorem objects_append (log rest : List Event) :
    objects (log ++ rest) = objects log ++ objects rest :=
  List.filterMap_append

@[simp] theorem bodies_singleton (event : Event) : bodies [event] = event.body?.toList := by
  cases event <;> rfl

@[simp] theorem objects_singleton (event : Event) : objects [event] = event.object?.toList := by
  cases event <;> rfl

theorem mem_objects_of_mem_bodies {log : List Event} {h : Handle} (hh : h ∈ bodies log) :
    h ∈ objects log := by
  obtain ⟨event, hevent, hbody⟩ := List.mem_filterMap.mp hh
  refine List.mem_filterMap.mpr ⟨event, hevent, ?_⟩
  cases event with
  | body k => exact hbody
  | inlineBody k => cases hbody
  | reference s => cases hbody

end Event

/-- A decoding and what has happened in it, in order. -/
structure Recording where
  decoding : Decoding
  log : List Event

/-- A step of a decoding that may record events. -/
abbrev Record := Step Recording

/-- The result of a decoding without the record. -/
def Recording.forget {α : Type} :
    EStateM.Result WireError Recording α → EStateM.Result WireError Decoding α
  | .ok a r => .ok a r.decoding
  | .error e r => .error e r.decoding

namespace Record

open Recording (forget)

variable {α β : Type}

/-- A step in which nothing happens that is recorded. -/
def silently (step : Decode α) : Record α :=
  Step.on Recording.decoding (fun r decoding => { r with decoding }) step

/-- Records an event. -/
def note (event : Event) : Record PUnit :=
  modify fun r => { r with log := r.log ++ [event] }

/-- Without the record, the step is a step of the decoder. -/
def Erases (step : Record α) (plain : Decode α) : Prop :=
  ∀ r, forget (step r) = plain r.decoding

theorem Erases.pure (a : α) : Erases (pure a) (pure a) :=
  fun _ => rfl

theorem Erases.throw (e : WireError) : Erases (throw e : Record α) (throw e) :=
  fun _ => rfl

theorem Erases.bind {step : Record α} {plain : Decode α} {next : α → Record β}
    {plainNext : α → Decode β} (h : Erases step plain)
    (hnext : ∀ a, Erases (next a) (plainNext a)) :
    Erases (step >>= next) (plain >>= plainNext) := by
  intro r
  show forget (EStateM.bind step next r) = EStateM.bind plain plainNext r.decoding
  unfold EStateM.bind
  rw [← h r]
  cases step r with
  | ok a t => exact hnext a t
  | error e t => rfl

theorem erases_silently (step : Decode α) : Erases (silently step) step := by
  intro r
  unfold silently Step.on
  cases step r.decoding <;> rfl

/-- An event that is recorded before a step. -/
theorem Erases.note_bind {event : Event} {step : Record α} {plain : Decode α}
    (h : Erases step plain) : Erases (note event >>= fun _ => step) plain :=
  fun r => h { r with log := r.log ++ [event] }

/-- A step that begins by looking at the state. -/
theorem Erases.get_bind {next : Recording → Record α} {plain : Decode α}
    (h : ∀ r, Erases (next r) plain) : Erases (get >>= next) plain :=
  fun r => h r r

theorem Erases.guard {c : Prop} [Decidable c] {e : WireError} {next : PUnit → Record α}
    {plain : PUnit → Decode α} (h : Erases (next ⟨⟩) (plain ⟨⟩)) :
    Erases (if c then (MonadExcept.throw e : Record PUnit) >>= next else next ⟨⟩)
      (if c then (MonadExcept.throw e : Decode PUnit) >>= plain else plain ⟨⟩) := by
  by_cases hc : c
  · rw [if_pos hc, if_pos hc]
    exact fun _ => rfl
  · rw [if_neg hc, if_neg hc]
    exact h

theorem Erases.each {step : α → Record β} {plain : α → Decode β}
    (h : ∀ a, Erases (step a) (plain a)) (items : List α) :
    Erases (Step.each step items) (Step.each plain items) := by
  induction items with
  | nil => exact .pure _
  | cons a rest ih => exact (h a).bind fun b => ih.bind fun bs => .pure _

theorem Erases.times {step : Record α} {plain : Decode α} (h : Erases step plain) (count : Nat) :
    Erases (Step.times step count) (Step.times plain count) := by
  rw [Step.times_eq_each (fun _ : Unit => step) (), Step.times_eq_each (fun _ : Unit => plain) ()]
  exact .each (fun _ => h) _

/-- Numbers an object whose body is complete. -/
def number (h : Handle) : Record PUnit := do
  silently (Decode.number h)
  note (.body h)

/-- Leaves an object whose body is complete without a number. -/
def complete (h : Handle) : Record PUnit :=
  note (.inlineBody h)

/-- Goes on with the handle of the object that was read. -/
def finishing (finish : Handle → Record PUnit) (step : Record Value) : Record Value := do
  let value ← step
  if let .object h := value then
    finish h
  return value

theorem Erases.numbering {step : Record Value} {plain : Decode Value} (h : Erases step plain) :
    Erases (finishing number step) (Decoder.numbering plain) := by
  refine h.bind fun v => ?_
  cases v with
  | object k => exact (erases_silently (Decode.number k)).bind fun _ => .note_bind (.pure _)
  | _ => exact .pure _

theorem Erases.completing {step : Record Value} {plain : Decode Value} (h : Erases step plain) :
    Erases (finishing complete step) plain := by
  intro r
  rw [← h r]
  show forget (EStateM.bind step _ r) = _
  unfold EStateM.bind
  cases step r with
  | ok v t => cases v <;> rfl
  | error e t => rfl

end Record

namespace Decoder

open Record (Erases silently note erases_silently)

/-! ## The decoder, recorded -/

/-- The values of the slots of a type, after their number. -/
def recordSlots (slot : ValueType → Record Value) (type : RuntimeType) : Record Value := do
  let count ← silently (Decode.read (Read.number 4))
  if count ≠ type.slots.length then
    throw (.invalidEnvelope (.slotCount type.name type.slots.length count))
  let values ← Step.each (fun f => slot f.type) type.slots
  return .object (← silently (Decode.instantiate type values))

/-- The body of a value of a type. -/
def recordBody (slot : ValueType → Record Value) (type : RuntimeType) : BodyForm → Record Value
  | .slots => recordSlots slot type
  | .ordinal => silently (readOrdinal type)

/-- A constant, after its tag. -/
def recordConstant (d : Decoder) (slot : ValueType → Record Value) (declared : ValueType) :
    Record Value := do
  let type ← silently (d.readType declared)
  if type.kind ≠ .enumeration then
    throw (.invalidEnvelope (.constantOfKind type.kind type.name))
  let codec ← silently (Decode.codec type)
  recordBody slot codec.type codec.form

/-- An object, after its tag. -/
def recordObject (d : Decoder) (slot : ValueType → Record Value) (declared : ValueType) :
    Record Value := do
  let type ← silently (d.readType declared)
  if !type.isInstantiable then
    throw (.invalidEnvelope (.objectOfKind type.kind type.name))
  let codec ← silently (Decode.codec type)
  recordBody slot codec.type codec.form

/-- A list, after its tag. -/
def recordList (d : Decoder) (item : ValueType → Record Value) (declared : ValueType) :
    Record Value :=
  match declared.element? with
  | none => throw (.schemaMismatch (.unfit declared "list"))
  | some element => do
    let count ← silently (Decode.read (Read.length 1))
    if d.settings.maxListLength < count then
      throw (.invalidEnvelope (.listTooLong count d.settings.maxListLength))
    return .list (← Step.times (item element) count)

/-- A back-reference, after its tag. -/
def recordReference : Record Value := do
  note (.reference (← get).decoding)
  return .object (← silently Decode.referent)

/-- The next value where `declared` stands. -/
def recordValue (d : Decoder) : (room : Nat) → ValueType → Record Value
  | 0, _ => throw (.invalidEnvelope (.nestsTooDeep d.settings.maxDepth))
  | room + 1, declared => do
    match ← silently Decode.tag with
    | .null => return .null
    | .primitive kind => return .primitive (← silently (Decode.read (Primitive.read kind)))
    | .list => d.recordList (recordValue d room) declared
    | .constant => d.recordConstant (recordValue d room) declared
    | .object => Record.finishing Record.number (d.recordObject (recordValue d room) declared)
    | .inlineObject =>
      Record.finishing Record.complete (d.recordObject (recordValue d room) declared)
    | .backReference => recordReference

/-- The root value, which must end with the payload. -/
def recordRoot (d : Decoder) : Record Value := do
  let root ← d.recordValue (d.settings.roomAt 0) .any
  let r ← get
  if !r.decoding.reader.isExhausted then
    throw (.invalidEnvelope (.trailingPayload r.decoding.reader.remaining))
  return root

/-! ## It is the decoder -/

variable {d : Decoder} {slot : ValueType → Record Value} {plain : ValueType → Decode Value}

theorem recordBody_erases (h : ∀ declared, Erases (slot declared) (plain declared))
    (type : RuntimeType) (form : BodyForm) :
    Erases (recordBody slot type form) (readBody plain type form) := by
  cases form with
  | ordinal => exact erases_silently _
  | slots =>
    refine (erases_silently _).bind fun count => .guard ?_
    refine (Erases.each (fun f : Field => h f.type) type.slots).bind fun values => ?_
    exact (erases_silently _).bind fun k => .pure _

theorem recordConstant_erases (h : ∀ declared, Erases (slot declared) (plain declared))
    (declared : ValueType) :
    Erases (d.recordConstant slot declared) (d.readConstant plain declared) := by
  refine (erases_silently _).bind fun type => .guard ?_
  exact (erases_silently _).bind fun codec => recordBody_erases h codec.type codec.form

theorem recordObject_erases (h : ∀ declared, Erases (slot declared) (plain declared))
    (declared : ValueType) :
    Erases (d.recordObject slot declared) (d.readObject plain declared) := by
  refine (erases_silently _).bind fun type => .guard ?_
  exact (erases_silently _).bind fun codec => recordBody_erases h codec.type codec.form

theorem recordList_erases (h : ∀ declared, Erases (slot declared) (plain declared))
    (declared : ValueType) :
    Erases (d.recordList slot declared) (d.readList plain declared) := by
  unfold recordList readList
  cases declared.element? with
  | none => exact .throw _
  | some element =>
    refine (erases_silently _).bind fun count => .guard ?_
    exact ((h element).times count).bind fun items => .pure _

theorem recordValue_erases (room : Nat) (declared : ValueType) :
    Erases (d.recordValue room declared) (d.readValue room declared) := by
  induction room generalizing declared with
  | zero => exact .throw _
  | succ room ih =>
    refine (erases_silently _).bind fun tag => ?_
    cases tag with
    | null => exact .pure _
    | primitive kind => exact (erases_silently _).bind fun p => .pure _
    | list => exact recordList_erases ih declared
    | constant => exact recordConstant_erases ih declared
    | object => exact (recordObject_erases ih declared).numbering
    | inlineObject => exact (recordObject_erases ih declared).completing
    | backReference =>
      exact .get_bind fun r => .note_bind ((erases_silently _).bind fun h => .pure _)

/-- **Recording changes nothing.** Without the events, a recorded decoding has the outcome and the
state of the decoding. -/
theorem recordRoot_erases (d : Decoder) : Erases d.recordRoot d.readRoot := by
  refine (recordValue_erases _ _).bind fun root r => ?_
  show Recording.forget ((if _ then _ else _ : Record Value) r) =
    (if _ then _ else _ : Decode Value) _
  split
  · rfl
  · rfl

end Decoder

end ObjectEnvelope
