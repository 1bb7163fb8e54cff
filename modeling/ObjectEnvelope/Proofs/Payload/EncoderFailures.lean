import ObjectEnvelope.Proofs.Graph.Updates
import ObjectEnvelope.Proofs.Payload.EncoderSteps

/-!
# How an encoding fails

An encoding of a graph that was built fails in one way only, as a value that has no encoding. The
other failure in the code, a missing value where the declared type needs one, cannot be reached:
fields fit their slots, and the items of a list that may hold anything may be missing.
-/

namespace ObjectEnvelope

open Step (FailsOnly)

/-- The failure says that a value has no encoding. -/
def WireError.Unserializable (e : WireError) : Prop :=
  e.kind = .notSerializable

theorem WireError.unserializable (fault : EncodingFault) :
    (WireError.notSerializable fault).Unserializable := rfl

theorem RuntimeType.bodyForm_fails {type : RuntimeType} {declared : ValueType} {e : WireError}
    (h : type.bodyForm declared = .error e) : e.Unserializable := by
  unfold bodyForm at h
  split at h
  · split at h
    · cases h
    · cases h
      rfl
  · cases h
    rfl

theorem Write.length_fails {n : Nat} {e : WireError} (h : Write.length n = .error e) :
    e.Unserializable := by
  unfold Write.length at h
  split at h
  · cases h
  · cases h
    rfl

theorem Write.blob_fails {bytes : List UInt8} {e : WireError} (h : Write.blob bytes = .error e) :
    e.Unserializable := by
  rcases Outcome.bind_eq_error_iff.mp h with h | ⟨_, _, h⟩
  · exact Write.length_fails h
  · cases h

theorem Primitive.encode_fails {p : Primitive} {e : WireError} (h : p.encode = .error e) :
    e.Unserializable := by
  cases p with
  | text content => exact Write.blob_fails h
  | bytes content => exact Write.blob_fails h
  | _ => cases h

theorem SchemaTable.add_fails {table : SchemaTable} {d : Descriptor} {e : WireError}
    (h : table.add d = .error e) : e.Unserializable := by
  unfold SchemaTable.add at h
  split at h
  · split at h
    · cases h
    · cases h
      rfl
  · split at h
    · cases h
      rfl
    · cases h

theorem SchemaTable.addAll_fails {table : SchemaTable} {ds : List Descriptor} {e : WireError}
    (h : table.addAll ds = .error e) : e.Unserializable := by
  induction ds generalizing table with
  | nil => cases h
  | cons d rest ih =>
    rcases Outcome.bind_eq_error_iff.mp h with h | ⟨between, -, h⟩
    · exact add_fails h
    · exact ih h

theorem SchemaTable.describe_fails {table : SchemaTable} {locals : LocalTypes} {t : RuntimeType}
    {e : WireError} (h : table.describe locals t = .error e) : e.Unserializable := by
  unfold SchemaTable.describe at h
  split at h
  · cases h
  · exact addAll_fails h

namespace Encode

theorem form_fails (t : RuntimeType) (declared : ValueType) :
    FailsOnly WireError.Unserializable (Encode.form t declared) :=
  .on (.bind (.ofExcept fun _ => RuntimeType.bodyForm_fails) fun _ =>
    .bind (.modify _) fun _ => .pure _)

theorem describe_fails (locals : LocalTypes) (t : RuntimeType) :
    FailsOnly WireError.Unserializable (Encode.describe locals t) :=
  .bind .get fun _ => .bind (.ofExcept fun _ => SchemaTable.describe_fails) fun _ => .set _

theorem number_fails (h : Handle) : FailsOnly WireError.Unserializable (Encode.number h) :=
  .bind .get fun _ => .guard (fun _ => WireError.unserializable _) (.set _)

theorem typeIndex_fails (t : RuntimeType) :
    FailsOnly WireError.Unserializable (Encode.typeIndex t) := by
  refine .bind .get fun s => ?_
  split
  · exact .pure _
  · exact .throw (WireError.unserializable _)

theorem all_fails {α : Type} {item : α → Encode (List UInt8)} {items : List α}
    (hitem : ∀ a ∈ items, FailsOnly WireError.Unserializable (item a)) :
    FailsOnly WireError.Unserializable (Encode.all item items) :=
  .bind (.each hitem) fun _ => .pure _

end Encode

namespace Encoder

variable {e : Encoder} {slot : ValueType → Value → Encode (List UInt8)}

theorem writeBody_fails {type : RuntimeType} {form : BodyForm} {v : Value}
    (hslot : ∀ h o, v = .object h → e.graph.get? h = some o →
      ∀ p ∈ type.slots.zip o.fields, FailsOnly WireError.Unserializable (slot p.1.type p.2)) :
    FailsOnly WireError.Unserializable (e.writeBody slot type form v) := by
  unfold writeBody
  split
  · next h =>
    split
    · exact .throw (WireError.unserializable _)
    · next o hget =>
      exact .bind (Encode.typeIndex_fails type) fun _ =>
        .bind (.ofExcept fun _ => Write.length_fails) fun _ =>
        .bind (Encode.all_fails (hslot h o rfl hget)) fun _ => .pure _
  · exact .throw (WireError.unserializable _)
  · exact .bind (Encode.typeIndex_fails type) fun _ => .pure _
  · exact .throw (WireError.unserializable _)

theorem writeConstant_fails (declared : ValueType) (c : Constant) :
    FailsOnly WireError.Unserializable (e.writeConstant declared c) := by
  rw [writeConstant_eq]
  exact .bind (Encode.form_fails _ _) fun _ => .bind (Encode.describe_fails _ _) fun _ =>
    .bind (writeBody_fails nofun) fun _ => .pure _

theorem writeNew_fails {path : List Handle} {form : BodyForm} {o : Instance} {h : Handle}
    (hget : e.graph.get? h = some o)
    (hslot : ∀ p ∈ o.type.slots.zip o.fields,
      FailsOnly WireError.Unserializable (slot p.1.type p.2)) :
    FailsOnly WireError.Unserializable (e.writeNew slot path form o.type h) := by
  unfold writeNew
  refine .guard (fun _ => WireError.unserializable _) (.bind (writeBody_fails ?_) fun _ => ?_)
  · rintro _ o' ⟨rfl⟩ hget'
    rw [hget] at hget'
    cases hget'
    exact hslot
  · split
    · exact .pure _
    · exact .bind (Encode.number_fails h) fun _ => .pure _

theorem writeObject_fails {path : List Handle} {declared : ValueType} {h : Handle}
    (hslot : ∀ o, e.graph.get? h = some o →
      ∀ p ∈ o.type.slots.zip o.fields, FailsOnly WireError.Unserializable (slot p.1.type p.2)) :
    FailsOnly WireError.Unserializable (e.writeObject slot path declared h) := by
  cases hget : e.graph.get? h with
  | none =>
    rw [writeObject_of_get?_eq_none _ _ _ _ hget]
    exact .throw (WireError.unserializable _)
  | some o =>
    rw [writeObject_eq _ _ _ _ hget]
    refine .bind (Encode.form_fails _ _) fun form => .bind (Encode.describe_fails _ _) fun _ =>
      .bind .get fun s => ?_
    split
    · exact .pure _
    · exact writeNew_fails hget (hslot o hget)

/-- A value that fits, or that stands where anything may stand, fails as one without encoding. -/
theorem writeValue_fails (hgraph : e.graph.WellFormed) {room : Nat} {path : List Handle}
    {declared : ValueType} {v : Value} (hfits : declared = .any ∨ e.graph.Fits declared v) :
    FailsOnly WireError.Unserializable (e.writeValue room path declared v) := by
  induction room generalizing path declared v with
  | zero => exact .throw (WireError.unserializable _)
  | succ room ih =>
    rw [writeValue.eq_def]
    cases v with
    | null =>
      have hnull : declared.canBeNull = true := by
        rcases hfits with rfl | hfits
        · rfl
        · cases hfits with
          | null hnull => exact hnull
      simp only [hnull, if_true]
      exact .pure _
    | primitive p =>
      exact .guard (fun _ => WireError.unserializable _)
        (.bind (.ofExcept fun _ => Primitive.encode_fails) fun _ => .pure _)
    | list items =>
      simp only
      split
      · exact .throw (WireError.unserializable _)
      · next element helement =>
        refine .bind (.ofExcept fun _ => Write.length_fails) fun _ =>
          .bind (Encode.all_fails fun v hv => ih ?_) fun _ => .pure _
        -- an item of a list stands where anything may stand if the list does
        rcases hfits with rfl | hfits
        · cases helement
          exact .inl rfl
        · cases hfits with
          | list hitems =>
            cases helement
            exact .inr (hitems v hv)
          | anyList =>
            cases helement
            exact .inl rfl
    | constant c => exact writeConstant_fails declared c
    | object h =>
      exact writeObject_fails fun o hget p hp => ih (.inr ((hgraph.object h o hget).fits p hp).1)

/-- An encoding of a well-formed graph fails in one way only. -/
theorem writeRoot_fails (hgraph : e.graph.WellFormed) (root : Value) :
    FailsOnly WireError.Unserializable (e.writeRoot root) := by
  unfold writeRoot
  exact .guard (fun _ => WireError.unserializable _)
    (.bind (writeValue_fails hgraph (.inl rfl)) fun _ => .bind .get fun _ => .pure _)

end Encoder

end ObjectEnvelope
