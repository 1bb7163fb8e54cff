import ObjectEnvelope.Envelope.Framing
import ObjectEnvelope.Envelope.Resolution
import ObjectEnvelope.Proofs.Bytes.Failures
import ObjectEnvelope.Proofs.Types.Caches

/-!
# How frames and schemas are refused

Whatever is wrong with a frame or with the schema in it, the failure blames the input: bytes that
are malformed, a field that cannot be nullable, a field declared twice, or a type that cannot be
made.
-/

namespace ObjectEnvelope

open Step (FailsOnly)

/-! ## Frames -/

theorem PrimitiveKind.read_fails : FailsOnly WireError.Malformed PrimitiveKind.read := by
  refine .bind Read.byte_fails fun code => ?_
  split
  · exact .pure _
  · exact .throw (WireError.malformed _)

theorem ValueType.read_fails (room : Nat) :
    FailsOnly WireError.Malformed (ValueType.read room) := by
  induction room with
  | zero => exact .throw (WireError.malformed _)
  | succ room ih =>
    refine .bind Read.byte_fails fun form => ?_
    split
    · exact .bind PrimitiveKind.read_fails fun _ => .pure _
    · split
      · exact .bind Read.text_fails fun _ => .pure _
      · split
        · exact .bind ih fun _ => .pure _
        · split
          · exact .pure _
          · exact .throw (WireError.malformed _)

theorem Field.declare_fails {name : String} {type : ValueType} {nullable : Bool} {e : WireError}
    (h : Field.declare name type nullable = .error e) : e.BlamesInput := by
  unfold Field.declare at h
  split at h
  · cases h
  · cases h
    intro hkind
    cases hkind

/-- A reading step that finds nothing but malformed bytes. -/
theorem Read.blames {α : Type} {step : Read α} (h : FailsOnly WireError.Malformed step) :
    FailsOnly WireError.BlamesInput step :=
  h.mono fun _ => WireError.Malformed.blamesInput

theorem Field.read_fails (owner : String) : FailsOnly WireError.BlamesInput (Field.read owner) :=
  .bind (Read.blames Read.text_fails) fun _ =>
    .bind (Read.blames (ValueType.read_fails _)) fun _ =>
    .bind (Read.blames (Read.flag_fails _)) fun _ => .ofExcept fun _ => Field.declare_fails

namespace SchemaEntry

theorem readKind_fails (name : String) : FailsOnly WireError.Malformed (readKind name) := by
  refine .bind Read.byte_fails fun code => ?_
  split
  · exact .pure _
  · exact .throw (WireError.malformed _)

theorem readParent_fails (name : String) : FailsOnly WireError.Malformed (readParent name) := by
  refine .bind (Read.flag_fails _) fun found => ?_
  split
  · exact .bind Read.text_fails fun _ => .pure _
  · exact .pure _

theorem read_fails : FailsOnly WireError.BlamesInput SchemaEntry.read :=
  .bind (Read.blames Read.text_fails) fun name =>
    .bind (Read.blames (readKind_fails name)) fun _ =>
    .bind (Read.blames (readParent_fails name)) fun _ =>
    .bind (Read.blames (Read.length_fails _)) fun count =>
    .bind (.times (Read.blames Read.text_fails) count) fun _ =>
    .bind (Read.blames (Read.length_fails _)) fun count =>
    .bind (.times (Field.read_fails name) count) fun _ => .pure _

end SchemaEntry

namespace Envelope

theorem readMark_fails (mark : UInt8) : FailsOnly WireError.Malformed (readMark mark) :=
  .bind Read.byte_fails fun _ => .guard (fun _ => WireError.malformed _) (.pure _)

theorem readHeader_fails : FailsOnly WireError.Malformed readHeader :=
  .bind (Read.raw_fails _) fun _ => .guard (fun _ => WireError.malformed _) <|
    .bind (Read.number_fails 2) fun _ => .bind (Read.number_fails 2) fun _ =>
    .guard (fun _ => WireError.malformed _) (.pure _)

theorem readSections_fails : FailsOnly WireError.Malformed readSections :=
  .bind (readMark_fails _) fun _ => .bind Read.blob_fails fun _ =>
    .bind (readMark_fails _) fun _ => .bind Read.blob_fails fun _ => .bind .get fun _ =>
    .guard (fun _ => WireError.malformed _) (.pure _)

theorem readEntries_fails (count : Nat) (seen : List String) :
    FailsOnly WireError.BlamesInput (readEntries count seen) := by
  induction count generalizing seen with
  | zero => exact .pure _
  | succ count ih =>
    exact .bind SchemaEntry.read_fails fun entry =>
      .guard (fun _ => (WireError.malformed _).blamesInput) (.bind (ih _) fun _ => .pure _)

theorem readSchema_fails : FailsOnly WireError.BlamesInput readSchema :=
  .bind (Read.blames (Read.length_fails _)) fun count => .bind (readEntries_fails count []) fun _ =>
    .bind .get fun _ => .guard (fun _ => (WireError.malformed _).blamesInput) (.pure _)

/-- Bytes that are no frame are to blame themselves. -/
theorem ofBytes_fails {bytes : List UInt8} {e : WireError} (h : ofBytes bytes = .error e) :
    e.BlamesInput := by
  unfold ofBytes at h
  rcases Outcome.guard_eq_error_iff.mp h with ⟨-, rfl⟩ | ⟨-, h⟩
  · exact (WireError.malformed _).blamesInput
  · rcases Outcome.bind_eq_error_iff.mp h with h | ⟨sections, -, h⟩
    · exact (Read.blames (.bind readHeader_fails fun _ => readSections_fails)).outcome h
    · rcases Outcome.bind_eq_error_iff.mp h with h | ⟨entries, -, h⟩
      · exact readSchema_fails.outcome h
      · exact absurd h Outcome.pure_ne_error

end Envelope

/-! ## Schemas -/

theorem WireError.Unmade.blamesInput {e : WireError} (h : e.Unmade) : e.BlamesInput := by
  unfold Unmade at h
  rw [BlamesInput, h]
  decide

theorem Descriptor.declare_fails {declaration : Declaration} {parent : Option Descriptor}
    {e : WireError} (h : declare declaration parent = .error e) : e.BlamesInput := by
  unfold declare at h
  split at h
  · cases h
    nofun
  · cases h

namespace Resolver

variable (r : Resolver)

theorem parent_fails {s : Resolution} {name child : String} {e : WireError}
    (h : r.parent s name child = .error e) : e.BlamesInput := by
  unfold parent at h
  dsimp only at h
  split at h
  · cases h
  · cases h
    nofun

theorem describe_fails {s : Resolution} {entry : SchemaEntry} {e : WireError}
    (h : r.describe s entry = .error e) : e.BlamesInput := by
  rcases Outcome.bind_eq_error_iff.mp h with h | ⟨parent, -, h⟩
  · cases hparent : entry.parent? with
    | none =>
      rw [hparent] at h
      cases h
    | some name =>
      rw [hparent] at h
      rcases Outcome.bind_eq_error_iff.mp h with h | ⟨_, -, h⟩
      · exact r.parent_fails h
      · cases h
  · exact Descriptor.declare_fails h

theorem typeOf_fails (d : Descriptor) : FailsOnly WireError.BlamesInput (r.typeOf d) := by
  unfold typeOf
  split
  · exact .pure _
  · exact .on ((SynthesisCache.synthesize_fails _ d).mono fun _ => WireError.Unmade.blamesInput)

theorem build_fails (p : PlacedEntry) : FailsOnly WireError.BlamesInput (r.build p) :=
  .bind .get fun _ => .bind (.ofExcept fun _ => r.describe_fails) fun d =>
    .bind (r.typeOf_fails d) fun _ => .bind (.modify _) fun _ => .pure _

theorem settle_fails {deeper : PlacedEntry → Resolve RuntimeType} {path : List Nat}
    (hdeeper : ∀ need, FailsOnly WireError.BlamesInput (deeper need)) (p : PlacedEntry) :
    FailsOnly WireError.BlamesInput (r.settle deeper path p) := by
  refine .bind (.forM fun need _ => .bind .get fun s => ?_) fun _ => r.build_fails p
  split
  · exact .guard (fun _ => (WireError.unmade _).blamesInput) (hdeeper need).discard
  · exact .pure _

theorem visit_fails (root : String) (room : Nat) (path : List Nat) (p : PlacedEntry) :
    FailsOnly WireError.BlamesInput (r.visit root room path p) := by
  induction room generalizing path p with
  | zero => exact r.settle_fails (fun _ => .throw (WireError.unmade _).blamesInput) p
  | succ room ih => exact r.settle_fails (fun need => ih _ need) p

/-- A schema that cannot be resolved is to blame itself. -/
theorem resolveAll_fails : FailsOnly WireError.BlamesInput r.resolveAll := by
  refine .each fun p _ => .bind .get fun s => ?_
  split
  · exact .pure _
  · exact r.visit_fails _ _ _ p

end Resolver

end ObjectEnvelope
