import ObjectEnvelope.Proofs.Payload.Codecs
import ObjectEnvelope.Proofs.TwoRuns

/-!
# What is written does not show the codecs

Two encodings that have written the same go on to write the same, and fail with the same error,
whatever codecs they have. A codec is asked for by its type, and the one that is provided has that
type and the form of its kind (`CodecCache.on_provide_bind`); so a codec that was made earlier, for
whatever call, is as good as a new one.
-/

namespace ObjectEnvelope

open Step (Blind)

/-- The encodings have numbered and described the same. Their codecs may be any. -/
structure Encoding.Abreast (s t : Encoding) : Prop where
  numbered : s.numbered = t.numbered
  schema : s.schema = t.schema

namespace Encode

theorem form_blind (t : RuntimeType) (declared : ValueType) :
    Blind Encoding.Abreast (Encode.form t declared) := by
  have hrequest : Blind (fun _ _ => True) (CodecCache.requestForm t declared) :=
    .bind (.ofExcept _) fun _ => .bind (.modify fun _ _ _ => trivial) fun _ => .pure _
  exact hrequest.on (fun _ _ _ => trivial) fun _ _ _ _ h _ => ⟨h.numbered, h.schema⟩

theorem describe_blind (locals : LocalTypes) (type : RuntimeType) :
    Blind Encoding.Abreast (Encode.describe locals type) := by
  intro s t h
  have hrun : ∀ s : Encoding, Encode.describe locals type s =
      (Step.ofExcept (s.schema.describe locals type) >>= fun schema => set { s with schema }) s :=
    fun _ => rfl
  rw [hrun s, hrun t, h.schema]
  cases t.schema.describe locals type with
  | ok schema => exact .inl ⟨⟨⟩, _, _, rfl, rfl, h.numbered, rfl⟩
  | error e => exact .inr ⟨e, _, _, rfl, rfl⟩

theorem number_blind (k : Handle) : Blind Encoding.Abreast (Encode.number k) := by
  intro s t h
  have hrun : ∀ s : Encoding, Encode.number k s =
      (if Encoding.capacity ≤ s.numbered.size then
        .error (.notSerializable .tooManyObjects) s
      else .ok ⟨⟩ { s with numbered := s.numbered.push k }) := by
    intro s
    unfold Encode.number
    show (if _ then _ else _ : Encode PUnit) s = _
    split <;> rfl
  rw [hrun s, hrun t, h.numbered]
  split
  · exact .inr ⟨_, _, _, rfl, rfl⟩
  · exact .inl ⟨⟨⟩, _, _, rfl, rfl, rfl, h.schema⟩

theorem typeIndex_blind (t : RuntimeType) : Blind Encoding.Abreast (Encode.typeIndex t) := by
  refine .get_bind (fun s t h => by rw [h.schema]) fun s => ?_
  split
  · exact .pure _
  · exact .throw _

theorem all_blind {α : Type} {item : α → Encode (List UInt8)} {items : List α}
    (hitem : ∀ a ∈ items, Blind Encoding.Abreast (item a)) :
    Blind Encoding.Abreast (Encode.all item items) :=
  .bind (.each hitem) fun _ => .pure _

end Encode

namespace Encoder

variable {e : Encoder} {slot : ValueType → Value → Encode (List UInt8)}

theorem writeBody_blind (hslot : ∀ declared v, Blind Encoding.Abreast (slot declared v))
    (type : RuntimeType) (form : BodyForm) (v : Value) :
    Blind Encoding.Abreast (e.writeBody slot type form v) := by
  unfold writeBody
  split
  · split
    · exact .throw _
    · exact .bind (Encode.typeIndex_blind type) fun _ => .bind (.ofExcept _) fun _ =>
        .bind (Encode.all_blind fun p _ => hslot p.1.type p.2) fun _ => .pure _
  · exact .throw _
  · exact .bind (Encode.typeIndex_blind type) fun _ => .pure _
  · exact .throw _

theorem writeConstant_blind (declared : ValueType) (c : Constant) :
    Blind Encoding.Abreast (e.writeConstant declared c) := by
  rw [writeConstant_eq]
  exact .bind (Encode.form_blind _ _) fun _ => .bind (Encode.describe_blind _ _) fun _ =>
    .bind (writeBody_blind (fun _ _ => .pure _) _ _ _) fun _ => .pure _

theorem writeNew_blind (hslot : ∀ declared v, Blind Encoding.Abreast (slot declared v))
    (path : List Handle) (form : BodyForm) (type : RuntimeType) (h : Handle) :
    Blind Encoding.Abreast (e.writeNew slot path form type h) := by
  unfold writeNew
  refine .guard (.bind (writeBody_blind hslot _ _ _) fun body => ?_)
  split
  · exact .pure _
  · exact .bind (Encode.number_blind h) fun _ => .pure _

theorem writeObject_blind (hslot : ∀ declared v, Blind Encoding.Abreast (slot declared v))
    (path : List Handle) (declared : ValueType) (h : Handle) :
    Blind Encoding.Abreast (e.writeObject slot path declared h) := by
  cases hget : e.graph.get? h with
  | none =>
    rw [writeObject_of_get?_eq_none _ _ _ _ hget]
    exact .throw _
  | some o =>
    rw [writeObject_eq _ _ _ _ hget]
    refine .bind (Encode.form_blind _ _) fun form => .bind (Encode.describe_blind _ _) fun _ =>
      .get_bind (fun s t h => by rw [h.numbered]) fun s => ?_
    split
    · exact .pure _
    · exact writeNew_blind hslot path form o.type h

theorem writeValue_blind (room : Nat) (path : List Handle) (declared : ValueType) (v : Value) :
    Blind Encoding.Abreast (e.writeValue room path declared v) := by
  induction room generalizing path declared v with
  | zero => exact .throw _
  | succ room ih =>
    rw [writeValue.eq_def]
    cases v with
    | null =>
      simp only
      split
      · exact .pure _
      · exact .throw _
    | primitive p => exact .guard (.bind (.ofExcept _) fun _ => .pure _)
    | list items =>
      simp only
      split
      · exact .throw _
      · exact .bind (.ofExcept _) fun _ => .bind (Encode.all_blind fun v _ => ih path _ v)
          fun _ => .pure _
    | constant c => exact writeConstant_blind declared c
    | object h => exact writeObject_blind (ih (h :: path)) path declared h

/-- The envelope of a root does not show the codecs. -/
theorem writeRoot_blind (root : Value) : Blind Encoding.Abreast (e.writeRoot root) := by
  unfold writeRoot
  exact .guard (.bind (writeValue_blind _ _ _ _) fun _ =>
    .get_bind (fun s t h => by rw [h.schema]) fun _ => .pure _)

end Encoder

end ObjectEnvelope
