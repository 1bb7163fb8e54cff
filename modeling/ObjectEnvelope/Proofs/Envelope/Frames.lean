import ObjectEnvelope.Envelope.Framing
import ObjectEnvelope.Proofs.Bytes.ReadBack

/-!
# Frames

A frame is read back to its envelope (`Envelope.ofBytes_of_toBytes`), part by part. Only one thing
that is written is not read: a value type with more list wrappers than `maxListDepth`.
-/

namespace ObjectEnvelope

open Read (ReturnsUnless)

/-- The refusal of value types with too many list wrappers, when there are such. -/
def TooDeep (deep : Prop) (e : WireError) : Prop :=
  e = .invalidEnvelope .valueTypeTooDeep ∧ deep

variable {bytes : List UInt8}

theorem PrimitiveKind.returns_read (kind : PrimitiveKind) :
    Read.Returns PrimitiveKind.read [kind.code] kind := by
  refine (Read.returns_byte kind.code).working ?_
  rw [PrimitiveKind.ofCode?_code]
  exact .pure kind

/-- A value type is read back when it has fewer list wrappers than there is room for. -/
theorem ValueType.returns_read {type : ValueType} {room : Nat} (h : type.write = .ok bytes) :
    ReturnsUnless (TooDeep (room ≤ type.listDepth)) (ValueType.read room) bytes type := by
  induction room generalizing type bytes with
  | zero =>
    exact fun offset tail => .inr ⟨_, _, rfl, rfl, Nat.zero_le _⟩
  | succ room ih =>
    cases type with
    | primitive kind =>
      cases h
      have hkind : ReturnsUnless (TooDeep (room + 1 ≤ 0))
          (do return primitive (← PrimitiveKind.read)) [kind.code] (primitive kind) :=
        kind.returns_read.unless.working (.pure _)
      exact (Read.returns_byte 0).unless.bind hkind
    | reference name =>
      simp only [ValueType.write, Outcome.bind_eq_ok_iff, Outcome.pure_eq_ok_iff] at h
      obtain ⟨body, hbody, rfl⟩ := h
      have hname : ReturnsUnless (TooDeep (room + 1 ≤ 0)) (do return reference (← Read.text))
          body (reference name) := (Read.returns_text hbody).unless.working (.pure _)
      exact (Read.returns_byte 1).unless.bind hname
    | list element =>
      simp only [ValueType.write, Outcome.bind_eq_ok_iff, Outcome.pure_eq_ok_iff] at h
      obtain ⟨body, hbody, rfl⟩ := h
      have helement : ReturnsUnless (TooDeep (room + 1 ≤ element.listDepth + 1))
          (do return list (← ValueType.read room)) body (list element) := by
        refine ((ih hbody).mono fun e he => ?_).working (.pure _)
        exact ⟨he.1, Nat.succ_le_succ he.2⟩
      exact (Read.returns_byte 2).unless.bind helement
    | any =>
      cases h
      exact (Read.returns_byte 3).unless.working (.pure _)

theorem ValueType.length_pos_of_write {type : ValueType} (h : type.write = .ok bytes) :
    0 < bytes.length := by
  cases type with
  | primitive kind =>
    cases h
    simp
  | any =>
    cases h
    simp
  | _ =>
    simp only [ValueType.write, Outcome.bind_eq_ok_iff, Outcome.pure_eq_ok_iff] at h
    obtain ⟨body, -, rfl⟩ := h
    simp

theorem Field.declare_self (f : Field) : Field.declare f.name f.type f.nullable = .ok f := by
  rw [Field.declare, dif_pos f.canBeNull_of_nullable]

/-- A field is read back when its type is. -/
theorem Field.returns_read {f : Field} (owner : String) (h : f.write = .ok bytes) :
    SchemaEntry.minFieldSize ≤ bytes.length ∧
      ReturnsUnless (TooDeep (maxListDepth < f.type.listDepth)) (Field.read owner) bytes f := by
  simp only [Field.write, Outcome.bind_eq_ok_iff, Outcome.pure_eq_ok_iff] at h
  obtain ⟨name, hname, type, htype, rfl⟩ := h
  rw [List.append_assoc]
  constructor
  · have hnamesize := Write.le_length_of_text hname
    have htypesize := ValueType.length_pos_of_write htype
    simp only [List.length_append, SchemaEntry.minFieldSize, Write.flag, List.length_singleton]
    omega
  · refine (Read.returns_text hname).unless.bind ((ValueType.returns_read htype).bind ?_)
    refine (Read.returns_flag _ f.nullable).unless.working ?_
    rw [Field.declare_self]
    exact .pure f

namespace SchemaEntry

theorem returns_readKind (name : String) (kind : TypeKind) :
    Read.Returns (readKind name) [kind.code] kind := by
  refine (Read.returns_byte kind.code).working ?_
  rw [TypeKind.ofCode?_code]
  exact .pure kind

theorem returns_readParent (name : String) {parent : Option String}
    (h : writeParent parent = .ok bytes) : Read.Returns (readParent name) bytes parent := by
  cases parent with
  | none =>
    cases h
    exact (Read.returns_flag _ false).working (.pure none)
  | some parent =>
    simp only [writeParent, Outcome.bind_eq_ok_iff, Outcome.pure_eq_ok_iff] at h
    obtain ⟨body, hbody, rfl⟩ := h
    exact (Read.returns_flag _ true).bind ((Read.returns_text hbody).map some)

theorem length_pos_of_writeParent {parent : Option String} (h : writeParent parent = .ok bytes) :
    0 < bytes.length := by
  cases parent with
  | none =>
    cases h
    simp [Write.flag]
  | some parent =>
    simp only [writeParent, Outcome.bind_eq_ok_iff, Outcome.pure_eq_ok_iff] at h
    obtain ⟨body, -, rfl⟩ := h
    simp [Write.flag]

/-- An entry is read back when the types of its fields are. -/
theorem returns_read {entry : SchemaEntry} (h : entry.write = .ok bytes) :
    minSize ≤ bytes.length ∧
      ReturnsUnless (TooDeep (∃ f ∈ entry.fields, maxListDepth < f.type.listDepth))
        SchemaEntry.read bytes entry := by
  simp only [SchemaEntry.write, Outcome.bind_eq_ok_iff, Outcome.pure_eq_ok_iff] at h
  obtain ⟨name, hname, parent, hparent, interfaces, hinterfaces, fields, hfields, rfl⟩ := h
  constructor
  · have hnamesize := Write.le_length_of_text hname
    have hparentsize := length_pos_of_writeParent hparent
    have hinterfacessize := Write.le_length_of_counted hinterfaces
    have hfieldssize := Write.le_length_of_counted hfields
    simp only [List.length_append, minSize, List.length_singleton]
    omega
  · simp only [List.append_assoc]
    refine (Read.returns_text hname).unless.bind
      ((returns_readKind entry.name entry.kind).unless.bind
        ((returns_readParent entry.name hparent).unless.bind ?_))
    refine .counted (by decide) (fun a _ bs hbs => ?_) hinterfaces ?_
    · exact ⟨Write.le_length_of_text hbs, (Read.returns_text hbs).unless⟩
    · rw [← List.append_nil fields]
      refine .counted (by decide) (fun f hf bs hbs => ?_) hfields (.pure entry)
      obtain ⟨hsize, hread⟩ := Field.returns_read entry.name hbs
      exact ⟨hsize, hread.mono fun e he => ⟨he.1, f, hf, he.2⟩⟩

end SchemaEntry

namespace Envelope

/-- A field of an entry has a type with more list wrappers than are read. -/
def NestsTooDeep (schema : List SchemaEntry) : Prop :=
  ∃ entry ∈ schema, ∃ f ∈ entry.fields, maxListDepth < f.type.listDepth

/-- The refusal of a name that was read before, when there is such a name. -/
def Repeated (repeated : Prop) (e : WireError) : Prop :=
  (∃ name, e = .invalidEnvelope (.describedTwice name)) ∧ repeated

/-- Entries are read back one after the other, unless one of them is called as another or as one of
those read before. -/
theorem returns_readEntries {entries : List SchemaEntry} {seen : List String}
    (h : Write.all SchemaEntry.write entries = .ok bytes) :
    ReturnsUnless (fun e => TooDeep (NestsTooDeep entries) e ∨
      Repeated (¬ ((entries.map (·.name)).Nodup ∧ ∀ entry ∈ entries, entry.name ∉ seen)) e)
      (readEntries entries.length seen) bytes entries := by
  induction entries generalizing bytes seen with
  | nil =>
    cases h
    exact .pure []
  | cons entry rest ih =>
    simp only [Write.all, Outcome.bind_eq_ok_iff, Outcome.pure_eq_ok_iff] at h
    obtain ⟨first, hfirst, others, hothers, rfl⟩ := h
    have hread := (SchemaEntry.returns_read hfirst).2
    refine (hread.mono fun e he => .inl ⟨he.1, entry, List.mem_cons_self, he.2⟩).bind ?_
    by_cases hentry : entry.name ∈ seen
    · rw [if_pos hentry]
      refine .throw (.inr ⟨⟨entry.name, rfl⟩, fun hfresh => ?_⟩)
      exact hfresh.2 entry List.mem_cons_self hentry
    · rw [if_neg hentry]
      refine ((ih hothers).mono fun e he => ?_).working (.pure _)
      rcases he with ⟨hdeep, entry', hmem, hfields⟩ | ⟨hname, hrepeated⟩
      · exact .inl ⟨hdeep, entry', List.mem_cons_of_mem _ hmem, hfields⟩
      · refine .inr ⟨hname, fun hfresh => hrepeated ?_⟩
        obtain ⟨hnames, hseen⟩ := hfresh
        rw [List.map_cons, List.nodup_cons] at hnames
        refine ⟨hnames.2, fun other hother hmem => ?_⟩
        rcases List.mem_cons.mp hmem with heq | hmem
        · exact hnames.1 (heq ▸ List.mem_map_of_mem hother)
        · exact hseen other (List.mem_cons_of_mem _ hother) hmem

/-- Why a schema that was written is not read. -/
def Unreadable (schema : List SchemaEntry) (e : WireError) : Prop :=
  TooDeep (NestsTooDeep schema) e ∨ Repeated (¬ (schema.map (·.name)).Nodup) e

/-- A schema is read back to its last byte. -/
theorem yields_readSchema {entries : List SchemaEntry}
    (h : Write.counted SchemaEntry.write entries = .ok bytes) :
    Step.Yields readSchema (Reader.ofBytes bytes) (fun found _ => found = entries)
      (Unreadable entries) := by
  obtain ⟨hlt, body, hbody, rfl⟩ := Write.counted_eq_ok_iff.mp h
  have hsize : entries.length * max SchemaEntry.minSize 1 ≤ body.length :=
    Write.le_length_of_all (fun a _ bs hbs => (SchemaEntry.returns_read hbs).1) hbody
  have hentries : ReturnsUnless (Unreadable entries) (readEntries entries.length []) body entries :=
    (returns_readEntries hbody).mono fun e he =>
      he.imp_right fun ⟨hname, hrepeated⟩ =>
        ⟨hname, fun hnames => hrepeated ⟨hnames, fun _ _ => List.not_mem_nil⟩⟩
  have hentries := hentries 4 []
  rw [List.append_nil] at hentries
  refine (Read.yields_length hlt hsize).bind ?_
  rintro _ _ ⟨rfl, rfl⟩
  rw [Nat.zero_add]
  refine hentries.bind ?_
  rintro found _ ⟨rfl, rfl⟩
  exact .inl ⟨found, _, rfl, rfl⟩

theorem returns_readMark (mark : UInt8) : Read.Returns (readMark mark) [mark] () := by
  refine (Read.returns_byte mark).working ?_
  rw [if_neg (not_not_intro rfl)]
  exact .pure ()

/-- The header with a minor version, which is read and not compared. -/
def headerOf (minor : Nat) : List UInt8 :=
  magic ++ LittleEndian.ofNat 2 majorVersion ++ LittleEndian.ofNat 2 minor

theorem returns_readHeader {minor : Nat} (hminor : minor < 256 ^ 2) :
    Read.Returns readHeader (headerOf minor) () := by
  have hmajor : majorVersion < 256 ^ 2 := by decide
  have hsame : Read.Returns (if majorVersion ≠ majorVersion then
      throw (.invalidEnvelope (.unsupportedVersion majorVersion minor)) else return ()) [] () := by
    rw [if_neg (not_not_intro rfl)]
    exact .pure ()
  rw [headerOf, List.append_assoc]
  refine (Read.returns_raw magic).bind ?_
  rw [if_neg (not_not_intro rfl)]
  exact (Read.returns_number hmajor).bind ((Read.returns_number hminor).working hsame)

/-- The sections of a frame are read back to its last byte. -/
theorem readSections_eq_ok {payload schema framedPayload framedSchema : List UInt8} (offset : Nat)
    (hpayload : Write.blob payload = .ok framedPayload)
    (hschema : Write.blob schema = .ok framedSchema) :
    readSections ⟨offset, [payloadMark] ++ (framedPayload ++ ([schemaMark] ++ framedSchema))⟩ =
      .ok (payload, schema)
        ⟨offset + 1 + framedPayload.length + 1 + framedSchema.length, []⟩ := by
  have hlast : ∀ offset, Read.blob ⟨offset, framedSchema⟩ =
      .ok schema ⟨offset + framedSchema.length, []⟩ := by
    intro offset
    have h := Read.returns_blob hschema offset []
    rwa [List.append_nil] at h
  refine Step.bind_eq_ok_iff.mpr ⟨(), _, returns_readMark payloadMark offset _, ?_⟩
  refine Step.bind_eq_ok_iff.mpr ⟨payload, _, Read.returns_blob hpayload _ _, ?_⟩
  refine Step.bind_eq_ok_iff.mpr ⟨(), _, returns_readMark schemaMark _ _, ?_⟩
  exact Step.bind_eq_ok_iff.mpr ⟨schema, _, hlast _, rfl⟩

/-- The frame without its header. -/
def sections (e : Envelope) : Except WireError (List UInt8) := do
  let schema ← Write.counted SchemaEntry.write e.schema
  let payload ← Write.blob e.payload
  let schema ← Write.blob schema
  return [payloadMark] ++ payload ++ [schemaMark] ++ schema

theorem toBytes_eq_ok_iff {e : Envelope} :
    e.toBytes = .ok bytes ↔
      ∃ body, e.sections = .ok body ∧ bytes = headerOf minorVersion ++ body := by
  simp only [toBytes, sections, Outcome.bind_eq_ok_iff, Outcome.pure_eq_ok_iff]
  constructor
  · rintro ⟨schema, hschema, payload, hpayload, framed, hframed, rfl⟩
    refine ⟨_, ⟨schema, hschema, payload, hpayload, framed, hframed, rfl⟩, ?_⟩
    simp only [List.append_assoc]
    rfl
  · rintro ⟨_, ⟨schema, hschema, payload, hpayload, framed, hframed, rfl⟩, rfl⟩
    refine ⟨schema, hschema, payload, hpayload, framed, hframed, ?_⟩
    simp only [List.append_assoc]
    rfl

/-- The header and the sections of a frame of any minor version are read to its last byte. -/
theorem exists_read_of_sections {e : Envelope} {body : List UInt8} {minor : Nat}
    (hminor : minor < 256 ^ 2) (h : e.sections = .ok body) :
    ∃ schema after, Write.counted SchemaEntry.write e.schema = .ok schema ∧
      (do readHeader; readSections) (Reader.ofBytes (headerOf minor ++ body)) =
        .ok (e.payload, schema) after ∧ after.rest = [] := by
  simp only [sections, Outcome.bind_eq_ok_iff, Outcome.pure_eq_ok_iff] at h
  obtain ⟨schema, hschema, payload, hpayload, framed, hframed, rfl⟩ := h
  have hread := readSections_eq_ok (0 + (headerOf minor).length) hpayload hframed
  refine ⟨schema, _, hschema, Step.bind_eq_ok_iff.mpr ⟨(), _, ?_, hread⟩, rfl⟩
  rw [← returns_readHeader hminor 0]
  simp only [List.append_assoc, Reader.ofBytes]

/-- A frame of any minor version is read back to its envelope, unless its schema is unreadable. -/
theorem ofBytes_of_sections {e : Envelope} {body : List UInt8} {minor : Nat}
    (hminor : minor < 256 ^ 2) (h : e.sections = .ok body) :
    ofBytes (headerOf minor ++ body) = .ok e ∨
      ∃ f, ofBytes (headerOf minor ++ body) = .error f ∧ Unreadable e.schema f := by
  obtain ⟨schema, after, hschema, hread, -⟩ := exists_read_of_sections hminor h
  have hlength : ¬ (headerOf minor ++ body).length < headerLength := by
    have hheader : (headerOf minor).length = headerLength := rfl
    rw [List.length_append]
    omega
  have hopen : ofBytes (headerOf minor ++ body) =
      (Step.outcome readSchema (Reader.ofBytes schema)).map
        fun entries => ⟨e.payload, entries⟩ := by
    rw [ofBytes, if_neg hlength, Step.outcome_eq_ok_iff.mpr ⟨after, hread⟩]
    show (Step.outcome readSchema (Reader.ofBytes schema) >>= fun entries =>
      pure (⟨e.payload, entries⟩ : Envelope)) = _
    cases Step.outcome readSchema (Reader.ofBytes schema) <;> rfl
  rw [hopen]
  rcases yields_readSchema hschema with ⟨found, r, hrun, rfl⟩ | ⟨f, r, hrun, hf⟩
  · refine .inl ?_
    rw [Step.outcome_eq_ok_iff.mpr ⟨r, hrun⟩]
    rfl
  · refine .inr ⟨f, ?_, hf⟩
    rw [Step.outcome, hrun]
    rfl

/-- **Frames are read back.** The frame of an envelope whose entries have different names is read
back to the envelope, unless a value type in it nests too deep. -/
theorem ofBytes_of_toBytes {e : Envelope} (hnames : (e.schema.map (·.name)).Nodup)
    (h : e.toBytes = .ok bytes) :
    ofBytes bytes = .ok e ∨ ∃ f, ofBytes bytes = .error f ∧ TooDeep (NestsTooDeep e.schema) f := by
  obtain ⟨body, hbody, rfl⟩ := toBytes_eq_ok_iff.mp h
  have hminor : minorVersion < 256 ^ 2 := by decide
  rcases ofBytes_of_sections hminor hbody with hok | ⟨f, hrun, hdeep | ⟨-, hrepeated⟩⟩
  · exact .inl hok
  · exact .inr ⟨f, hrun, hdeep⟩
  · exact absurd hnames hrepeated

end Envelope

end ObjectEnvelope
