import ObjectEnvelope.Proofs.Bytes.Canonical
import ObjectEnvelope.Proofs.Envelope.Frames

/-!
# Canonical frames

A frame is accepted exactly when it is what is written for an envelope with a readable schema, under
any minor version (`Envelope.ofBytes_eq_ok_iff`). Every parser takes what the writer of the same
name writes, so nothing in a frame can be spelled in two ways.
-/

namespace ObjectEnvelope

open Read (Takes Writes takes_byte takes_flag takes_text takes_number takes_raw takes_blob
  takes_length)

variable {bytes : List UInt8}

theorem PrimitiveKind.takes_read :
    Takes PrimitiveKind.read fun kind bytes => bytes = [kind.code] := by
  refine .bind takes_byte fun code front hfront => ?_
  subst hfront
  split
  · next kind hkind =>
    refine .pure ?_
    rw [List.append_nil, PrimitiveKind.code_of_ofCode? hkind]
  · exact .throw _

/-- A value type that is read has fewer list wrappers than there was room for. -/
theorem ValueType.takes_read (room : Nat) :
    Takes (ValueType.read room) (Writes ValueType.write (·.listDepth < room)) := by
  induction room with
  | zero => exact .throw _
  | succ room ih =>
    refine .bind takes_byte fun form front hfront => ?_
    subst hfront
    by_cases hprimitive : form = 0
    · subst hprimitive
      refine .map PrimitiveKind.takes_read fun kind back hback => ?_
      subst hback
      exact ⟨rfl, Nat.succ_pos room⟩
    · rw [if_neg hprimitive]
      by_cases hreference : form = 1
      · subst hreference
        refine .map takes_text fun name back hback => ⟨?_, Nat.succ_pos room⟩
        rw [ValueType.write, hback]
        rfl
      · rw [if_neg hreference]
        by_cases hlist : form = 2
        · subst hlist
          refine .map ih fun element back hback => ⟨?_, Nat.succ_lt_succ hback.2⟩
          rw [ValueType.write, hback.1]
          rfl
        · rw [if_neg hlist]
          by_cases hany : form = 3
          · subst hany
            exact .pure ⟨rfl, Nat.succ_pos room⟩
          · rw [if_neg hany]
            exact .throw _

theorem Field.takes_read (owner : String) :
    Takes (Field.read owner) (Writes Field.write (·.type.listDepth ≤ maxListDepth)) := by
  refine .bind takes_text fun name front hname =>
    .bind (ValueType.takes_read _) fun type middle htype =>
      .bind (takes_flag _) fun nullable back hback => ?_
  refine .ofExcept fun f hf => ?_
  unfold Field.declare at hf
  split at hf
  · cases hf
    refine ⟨?_, Nat.le_of_lt_succ htype.2⟩
    simp only [Field.write, Outcome.bind_eq_ok_iff, Outcome.pure_eq_ok_iff]
    refine ⟨front, hname, middle, htype.1, ?_⟩
    rw [hback, List.append_nil, List.append_assoc]
  · cases hf

namespace SchemaEntry

/-- The fields have types of at most `maxListDepth` list wrappers. -/
def Shallow (entry : SchemaEntry) : Prop :=
  ∀ f ∈ entry.fields, f.type.listDepth ≤ maxListDepth

theorem takes_readKind (name : String) :
    Takes (readKind name) fun kind bytes => bytes = [kind.code] := by
  refine .bind takes_byte fun code front hfront => ?_
  subst hfront
  split
  · next kind hkind =>
    refine .pure ?_
    rw [List.append_nil, TypeKind.code_of_ofCode? hkind]
  · exact .throw _

theorem takes_readParent (name : String) :
    Takes (readParent name) fun parent bytes => writeParent parent = .ok bytes := by
  refine .bind (takes_flag _) fun present front hfront => ?_
  subst hfront
  cases present with
  | true =>
    refine .map takes_text fun parent back hback => ?_
    rw [writeParent, hback]
    rfl
  | false => exact .pure rfl

theorem takes_read : Takes SchemaEntry.read (Writes SchemaEntry.write Shallow) := by
  refine .bind takes_text fun name first hname =>
    .bind (takes_readKind name) fun kind second hkind =>
      .bind (takes_readParent name) fun parent third hparent => ?_
  have hinterface : Takes Read.text (Writes Write.text fun _ => True) :=
    takes_text.mono fun _ _ h => ⟨h, trivial⟩
  refine .counted hinterface fun interfaces fourth hinterfaces _ => ?_
  refine .counted (Field.takes_read name) fun fields fifth hfields hshallow => .pure ?_
  refine ⟨?_, hshallow⟩
  simp only [SchemaEntry.write, Outcome.bind_eq_ok_iff, Outcome.pure_eq_ok_iff]
  refine ⟨first, hname, third, hparent, fourth, hinterfaces, fifth, hfields, ?_⟩
  simp only [hkind, List.append_assoc, List.append_nil]

end SchemaEntry

namespace Envelope

/-! ## Schemas -/

/-- A schema that is read: its names differ, and none of its value types nests too deep. -/
structure Readable (schema : List SchemaEntry) : Prop where
  names : (schema.map (·.name)).Nodup
  shallow : ∀ entry ∈ schema, entry.Shallow

theorem Readable.not_unreadable {schema : List SchemaEntry} (h : Readable schema) (f : WireError) :
    ¬ Unreadable schema f := by
  rintro (⟨-, entry, hentry, g, hg, hdeep⟩ | ⟨-, hrepeated⟩)
  · exact absurd (h.shallow entry hentry g hg) (Nat.not_le_of_lt hdeep)
  · exact hrepeated h.names

theorem Unreadable.kind_eq {schema : List SchemaEntry} {f : WireError} (h : Unreadable schema f) :
    f.kind = .invalidEnvelope := by
  rcases h with ⟨rfl, -⟩ | ⟨⟨name, rfl⟩, -⟩ <;> rfl

theorem takes_readEntries (count : Nat) (seen : List String) :
    Takes (readEntries count seen) fun entries bytes =>
      entries.length = count ∧ Write.all SchemaEntry.write entries = .ok bytes ∧
        Readable entries ∧ ∀ entry ∈ entries, entry.name ∉ seen := by
  induction count generalizing seen with
  | zero => exact .pure ⟨rfl, rfl, ⟨.nil, nofun⟩, nofun⟩
  | succ count ih =>
    refine .bind SchemaEntry.takes_read fun entry front hentry => .guard fun hfresh => ?_
    refine .map (ih (entry.name :: seen)) ?_
    rintro rest back ⟨rfl, hrest, hreadable, hseen⟩
    refine ⟨rfl, ?_, ⟨?_, ?_⟩, ?_⟩
    · simp only [Write.all, Outcome.bind_eq_ok_iff, Outcome.pure_eq_ok_iff]
      exact ⟨front, hentry.1, back, hrest, rfl⟩
    · rw [List.map_cons, List.nodup_cons]
      refine ⟨fun hmem => ?_, hreadable.names⟩
      obtain ⟨other, hother, hname⟩ := List.mem_map.mp hmem
      exact hseen other hother (hname ▸ List.mem_cons_self)
    · exact List.forall_mem_cons.mpr ⟨hentry.2, hreadable.shallow⟩
    · refine List.forall_mem_cons.mpr ⟨hfresh, fun other hother hmem => ?_⟩
      exact hseen other hother (List.mem_cons_of_mem _ hmem)

/-- A schema that is read is what is written for its entries. -/
theorem counted_of_readSchema {entries : List SchemaEntry}
    (h : Step.outcome readSchema (Reader.ofBytes bytes) = .ok entries) :
    Write.counted SchemaEntry.write entries = .ok bytes ∧ Readable entries := by
  obtain ⟨after, h⟩ := Step.outcome_eq_ok_iff.mp h
  obtain ⟨count, between, hcount, h⟩ := Step.bind_eq_ok_iff.mp h
  obtain ⟨found, last, hfound, h⟩ := Step.bind_eq_ok_iff.mp h
  obtain ⟨_, _, hget, h⟩ := Step.bind_eq_ok_iff.mp h
  obtain ⟨rfl, rfl⟩ := Step.get_eq_ok_iff.mp hget
  obtain ⟨hend, h⟩ := Step.guard_eq_ok_iff.mp h
  obtain ⟨rfl, -⟩ := Step.pure_eq_ok_iff.mp h
  obtain ⟨front, hfront, -, hlength⟩ := takes_length _ _ _ _ hcount
  obtain ⟨body, hbody, -, rfl, hentries, hreadable, -⟩ := takes_readEntries _ _ _ _ _ hfound
  refine ⟨?_, hreadable⟩
  have hbytes : bytes = front ++ body := by
    have hrest : last.rest = [] := by simpa [Reader.isExhausted] using hend
    rw [hrest, List.append_nil] at hbody
    rw [← hbody, ← hfront]
    rfl
  obtain ⟨hlt, rfl⟩ := Write.length_eq_ok_iff.mp hlength
  exact Write.counted_eq_ok_iff.mpr ⟨hlt, body, hentries, hbytes⟩

/-! ## Sections and frames -/

theorem takes_readMark (mark : UInt8) : Takes (readMark mark) fun _ bytes => bytes = [mark] := by
  refine .bind takes_byte fun found front hfront => ?_
  subst hfront
  split
  · exact .throw _
  · next hsame =>
    refine .pure ?_
    rw [List.append_nil, Decidable.not_not.mp hsame]

theorem takes_readHeader :
    Takes readHeader fun _ bytes => ∃ minor < 256 ^ 2, bytes = headerOf minor := by
  refine .bind (takes_raw _) fun found first ⟨hfirst, _⟩ => .guard fun hmagic => ?_
  refine .bind (takes_number 2) fun major second ⟨_, hsecond⟩ =>
    .bind (takes_number 2) fun minor third ⟨hminor, hthird⟩ => ?_
  split
  · exact .throw _
  · next hmajor =>
    refine .pure ⟨minor, hminor, ?_⟩
    rw [hfirst, hsecond, hthird, Decidable.not_not.mp hmagic, Decidable.not_not.mp hmajor,
      List.append_nil, headerOf, List.append_assoc]

/-- Behind the header stand the sections of the frame, and nothing after them. -/
theorem eq_of_readSections {r after : Reader} {payload schema : List UInt8}
    (h : readSections r = .ok (payload, schema) after) :
    ∃ framedPayload framedSchema, Write.blob payload = .ok framedPayload ∧
      Write.blob schema = .ok framedSchema ∧
      r.rest = [payloadMark] ++ framedPayload ++ [schemaMark] ++ framedSchema ∧
      after.rest = [] := by
  obtain ⟨_, r₁, hmark, h⟩ := Step.bind_eq_ok_iff.mp h
  obtain ⟨_, r₂, hpayload, h⟩ := Step.bind_eq_ok_iff.mp h
  obtain ⟨_, r₃, hmark', h⟩ := Step.bind_eq_ok_iff.mp h
  obtain ⟨_, r₄, hschema, h⟩ := Step.bind_eq_ok_iff.mp h
  obtain ⟨_, _, hget, h⟩ := Step.bind_eq_ok_iff.mp h
  obtain ⟨rfl, rfl⟩ := Step.get_eq_ok_iff.mp hget
  obtain ⟨hend, h⟩ := Step.guard_eq_ok_iff.mp h
  obtain ⟨heq, rfl⟩ := Step.pure_eq_ok_iff.mp h
  cases heq
  obtain ⟨_, hrest, -, rfl⟩ := takes_readMark _ _ _ _ hmark
  obtain ⟨framedPayload, hrest₁, -, hframed⟩ := takes_blob _ _ _ hpayload
  obtain ⟨_, hrest₂, -, rfl⟩ := takes_readMark _ _ _ _ hmark'
  obtain ⟨framedSchema, hrest₃, -, hframed'⟩ := takes_blob _ _ _ hschema
  have hrest₄ : r₄.rest = [] := by simpa [Reader.isExhausted] using hend
  refine ⟨framedPayload, framedSchema, hframed, hframed', ?_, hrest₄⟩
  rw [hrest, hrest₁, hrest₂, hrest₃, hrest₄]
  simp only [List.append_assoc, List.append_nil]

/-- A frame that is accepted is that of its envelope, but for the minor version. -/
theorem eq_of_ofBytes {e : Envelope} (h : ofBytes bytes = .ok e) :
    Readable e.schema ∧
      ∃ minor < 256 ^ 2, ∃ body, e.sections = .ok body ∧ bytes = headerOf minor ++ body := by
  unfold ofBytes at h
  obtain ⟨-, h⟩ := Outcome.guard_eq_ok_iff.mp h
  obtain ⟨⟨payload, schema⟩, hparts, h⟩ := Outcome.bind_eq_ok_iff.mp h
  obtain ⟨entries, hentries, h⟩ := Outcome.bind_eq_ok_iff.mp h
  cases h
  obtain ⟨after, hparts⟩ := Step.outcome_eq_ok_iff.mp hparts
  obtain ⟨_, behind, hheader, hsections⟩ := Step.bind_eq_ok_iff.mp hparts
  obtain ⟨_, hfront, -, minor, hminor, rfl⟩ := takes_readHeader _ _ _ hheader
  obtain ⟨framedPayload, framedSchema, hpayload, hschema, hbody, -⟩ := eq_of_readSections hsections
  obtain ⟨hwritten, hreadable⟩ := counted_of_readSchema hentries
  refine ⟨hreadable, minor, hminor, behind.rest, ?_, hfront⟩
  simp only [sections, Outcome.bind_eq_ok_iff, Outcome.pure_eq_ok_iff]
  exact ⟨schema, hwritten, framedPayload, hpayload, framedSchema, hschema, hbody.symm⟩

/-- The length of a payload in a frame stands in four bytes. -/
theorem length_payload_lt {e : Envelope} (h : ofBytes bytes = .ok e) :
    e.payload.length < 2 ^ 32 := by
  obtain ⟨-, minor, -, body, hbody, -⟩ := eq_of_ofBytes h
  unfold sections at hbody
  obtain ⟨schema, -, hbody⟩ := Outcome.bind_eq_ok_iff.mp hbody
  obtain ⟨payload, hpayload, -⟩ := Outcome.bind_eq_ok_iff.mp hbody
  exact (Write.blob_eq_ok_iff.mp hpayload).1

theorem ofBytes_of_readable {e : Envelope} {body : List UInt8} {minor : Nat}
    (hreadable : Readable e.schema) (hminor : minor < 256 ^ 2) (h : e.sections = .ok body) :
    ofBytes (headerOf minor ++ body) = .ok e := by
  rcases ofBytes_of_sections hminor h with hok | ⟨f, -, hf⟩
  · exact hok
  · exact absurd hf (hreadable.not_unreadable f)

/-- **Accepted frames.** Exactly the frames that are written for envelopes with a readable schema
are accepted, under any minor version. -/
theorem ofBytes_eq_ok_iff {e : Envelope} :
    ofBytes bytes = .ok e ↔ Readable e.schema ∧
      ∃ minor < 256 ^ 2, ∃ body, e.sections = .ok body ∧ bytes = headerOf minor ++ body := by
  constructor
  · exact eq_of_ofBytes
  · rintro ⟨hreadable, minor, hminor, body, hbody, rfl⟩
    exact ofBytes_of_readable hreadable hminor hbody

/-- **Which frames are read back.** What is written for an envelope is read back to the envelope
exactly when its schema is readable, and otherwise refused as no envelope. -/
theorem ofBytes_toBytes_iff {e : Envelope} (h : e.toBytes = .ok bytes) :
    (ofBytes bytes = .ok e ↔ Readable e.schema) ∧
      (¬ Readable e.schema → ∃ f, ofBytes bytes = .error f ∧ f.kind = .invalidEnvelope) := by
  obtain ⟨body, hbody, rfl⟩ := toBytes_eq_ok_iff.mp h
  have hminor : minorVersion < 256 ^ 2 := by decide
  constructor
  · constructor
    · exact fun hread => (eq_of_ofBytes hread).1
    · exact fun hreadable => ofBytes_of_readable hreadable hminor hbody
  · intro hnot
    rcases ofBytes_of_sections hminor hbody with hread | ⟨f, hread, hf⟩
    · exact absurd (eq_of_ofBytes hread).1 hnot
    · exact ⟨f, hread, hf.kind_eq⟩

/-- An envelope with the entry of a type that has a supertype and an interface. -/
def pointEnvelope : Envelope where
  payload := [0]
  schema := [⟨"Point", .composite, some "Shape", ["Named"],
    [.mandatory "x" (.primitive (.scalar .f64)), .mandatory "tags" (.list (.primitive .string))]⟩]

theorem readable_pointEnvelope : Readable pointEnvelope.schema :=
  ⟨by decide, by unfold SchemaEntry.Shallow; decide⟩

theorem ofBytes_toBytes_iff_pointEnvelope : ∃ bytes, pointEnvelope.toBytes = .ok bytes ∧
    ofBytes bytes = .ok pointEnvelope := by
  obtain ⟨bytes, hbytes⟩ : ∃ bytes, pointEnvelope.toBytes = .ok bytes := ⟨_, rfl⟩
  exact ⟨bytes, hbytes, (ofBytes_toBytes_iff hbytes).1.mpr readable_pointEnvelope⟩

/-! ## One spelling -/

theorem set_headerOf (minor : Nat) (body : List UInt8) :
    ((headerOf minor ++ body).set 6 0).set 7 0 = headerOf minorVersion ++ body :=
  rfl

/-- The minor version stands in the seventh and the eighth byte. -/
theorem getElem?_headerOf (minor : Nat) (body : List UInt8) :
    (headerOf minor ++ body)[6]? = some (UInt8.ofNat minor) ∧
      (headerOf minor ++ body)[7]? = some (UInt8.ofNat (minor / 256)) :=
  ⟨rfl, rfl⟩

theorem headerOf_eq {minor other : Nat} (hlow : UInt8.ofNat minor = UInt8.ofNat other)
    (hhigh : UInt8.ofNat (minor / 256) = UInt8.ofNat (other / 256)) :
    headerOf minor = headerOf other := by
  simp only [headerOf, LittleEndian.ofNat, hlow, hhigh]

/-- **Frames have one spelling.** An accepted frame is what is written for its envelope, with the
minor version set to zero. Two accepted frames of one envelope agree but for the minor version, and
the schema of an accepted frame is readable and without nullable fields of a primitive type that
cannot be without a value. -/
theorem toBytes_of_ofBytes {e : Envelope} (h : ofBytes bytes = .ok e) :
    e.toBytes = .ok ((bytes.set 6 0).set 7 0) ∧
      (∀ other, ofBytes other = .ok e → other[6]? = bytes[6]? → other[7]? = bytes[7]? →
        other = bytes) ∧
      Readable e.schema ∧
      ∀ entry ∈ e.schema, ∀ f ∈ entry.fields, ∀ kind, f.type = .primitive kind →
        f.nullable = true → kind.isReference = true := by
  obtain ⟨hreadable, minor, hminor, body, hbody, rfl⟩ := eq_of_ofBytes h
  refine ⟨?_, fun other hother hlow hhigh => ?_, hreadable, fun entry _ f _ kind htype hnull => ?_⟩
  · rw [set_headerOf]
    exact toBytes_eq_ok_iff.mpr ⟨body, hbody, rfl⟩
  · obtain ⟨-, minor', -, body', hbody', rfl⟩ := eq_of_ofBytes hother
    obtain rfl : body' = body := by
      rw [hbody] at hbody'
      exact (Except.ok.inj hbody').symm
    rw [(getElem?_headerOf minor' _).1, (getElem?_headerOf minor _).1, Option.some_inj] at hlow
    rw [(getElem?_headerOf minor' _).2, (getElem?_headerOf minor _).2, Option.some_inj] at hhigh
    rw [headerOf_eq hlow hhigh]
  · have hcan := f.canBeNull_of_nullable hnull
    rwa [htype] at hcan

/-- A frame of a later minor version is not the one that is written, but for that version. -/
theorem toBytes_of_ofBytes_pointEnvelope : ∃ body, pointEnvelope.sections = .ok body ∧
    ofBytes (headerOf 7 ++ body) = .ok pointEnvelope ∧
    pointEnvelope.toBytes = .ok (((headerOf 7 ++ body).set 6 0).set 7 0) := by
  obtain ⟨body, hbody⟩ : ∃ body, pointEnvelope.sections = .ok body := ⟨_, rfl⟩
  have hminor : 7 < 256 ^ 2 := by decide
  have hread := ofBytes_of_readable readable_pointEnvelope hminor hbody
  exact ⟨body, hbody, hread, (toBytes_of_ofBytes hread).1⟩

end Envelope

end ObjectEnvelope
