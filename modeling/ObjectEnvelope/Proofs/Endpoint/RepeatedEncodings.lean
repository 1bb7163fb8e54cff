import ObjectEnvelope.Proofs.Endpoint.EncodedGraphs
import ObjectEnvelope.Proofs.Endpoint.Histories
import ObjectEnvelope.Proofs.Payload.CodecBlindness

/-!
# Repeated encodings

An encoding depends on the registered types and on nothing else that an endpoint holds
(`Endpoint.encode_blind`). Uses of the endpoint leave the registered types as they are
(`Endpoint.LeadsTo.locals_eq`), so what they add, and what failed calls leave behind, does not show
in later encodings (`Endpoint.encode_again`).
-/

namespace ObjectEnvelope

namespace Endpoint

variable {settings : Settings} {g : ObjectGraph} {root : Value} {s t : Endpoint}

/-- The endpoints that uses lead to, failed ones included. -/
inductive LeadsTo (s : Endpoint) : Endpoint → Prop
  | refl : LeadsTo s s
  | use {α : Type} {step : Step Endpoint α} {between : Endpoint} (hstep : IsUse step)
      (h : LeadsTo s between) : LeadsTo s (step.after between)

/-- A use leaves the registered types as they are. -/
theorem IsUse.preserves_locals {α : Type} {step : Step Endpoint α} (h : IsUse step)
    (locals : LocalTypes) : step.Preserves fun s => s.locals = locals := by
  refine h.preserves (fun _ _ h => h) (fun isLocal d => ?_) fun settings schema => ?_
  · exact .on_any fun _ _ h => h
  · exact .bind .get fun _ => .on_any fun _ _ h => h

theorem LeadsTo.locals_eq (h : s.LeadsTo t) : t.locals = s.locals := by
  induction h with
  | refl => rfl
  | use hstep _ ih => exact (hstep.preserves_locals s.locals).after ih

/-- The outcome of an encoding does not show the synthesized types and the codecs. -/
theorem encode_blind : (encode settings g root).Blind fun s t => s.locals = t.locals := by
  refine .get_bind (fun s t h => by rw [h]) fun s => ?_
  exact (Encoder.writeRoot_blind root).on (fun _ _ _ => ⟨rfl, rfl⟩) fun _ _ _ _ h _ => h

/-- An encoding leaves the types as they are, when it fails too. -/
theorem encode_leaves_types :
    ((encode settings g root).after s).locals = s.locals ∧
      ((encode settings g root).after s).synthesis = s.synthesis := by
  have hleaves : (encode settings g root).Preserves fun t =>
      t.locals = s.locals ∧ t.synthesis = s.synthesis :=
    preserves_encoding (fun _ _ h => h) settings g _
  exact hleaves.after ⟨rfl, rfl⟩

/-- **Encodings carry nothing over.** After any uses of an endpoint, successful or failed, an
encoding has the outcome that it would have had before them, the same envelope or the same error;
and an encoding itself changes neither the registered nor the synthesized types. -/
theorem encode_again :
    (∀ t, s.LeadsTo t →
      (encode settings g root).outcome t = (encode settings g root).outcome s) ∧
      ((encode settings g root).after s).locals = s.locals ∧
      ((encode settings g root).after s).synthesis = s.synthesis :=
  ⟨fun _ h => encode_blind.outcome_eq h.locals_eq, encode_leaves_types⟩

/-- Another type of the cells, with the same digest. -/
def cellTwin : RuntimeType := { cellType with id := ⟨.known, 0, 1⟩ }

/-- An endpoint that has a codec of the other type where the one of the cells would be kept, and
that two calls have failed on. -/
def cellUser : Endpoint :=
  (decodeBytes .standard [] .any).after
    ((encode .standard cells .null).after ((codec cellTwin .any).after (.empty 0)))

/-- The cells are encoded as at the start, though a codec of another type is in the way. -/
theorem encode_again_cells :
    (Endpoint.empty 0).LeadsTo cellUser ∧
      (cellUser.codecs.entries.lookup (cellType.codecKey .any)).map (·.type) = some cellTwin ∧
      (encode .standard cells cellsRoot).outcome cellUser =
        (encode .standard cells cellsRoot).outcome (.empty 0) := by
  have huse : (Endpoint.empty 0).LeadsTo cellUser :=
    .use (.decodeBytes _ _ _) (.use (.encode _ _ _) (.use (.codec _ _) .refl))
  exact ⟨huse, by decide +kernel, encode_again.1 cellUser huse⟩

end Endpoint

end ObjectEnvelope
