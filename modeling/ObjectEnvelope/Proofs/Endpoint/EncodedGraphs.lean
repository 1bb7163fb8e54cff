import ObjectEnvelope.Proofs.Endpoint.Calls
import ObjectEnvelope.Proofs.Payload.EncoderFailures
import ObjectEnvelope.Proofs.Payload.Serializable

/-!
# Encoded graphs

Exactly the graphs that are `ObjectGraph.Serializable` can be encoded, and all others are refused in
one way.
-/

namespace ObjectEnvelope

namespace Encoder

variable {e : Encoder} {root : Value}

/-- At the root all the depth is left. -/
theorem zero_add_roomAt (settings : Settings) : 0 + settings.roomAt 0 = settings.maxDepth + 1 := by
  rw [Settings.roomAt]
  omega

/-- The root of a serializable graph can be written. -/
theorem exists_writeRoot (hgraph : e.graph.WellFormed) (hused : ToldApart (e.graph.Uses root))
    (hg : e.graph.Serializable e.settings e.locals root) (codecs : CodecCache) :
    ∃ envelope t, e.writeRoot root (Encoding.start codecs) = .ok envelope t := by
  have hgrounded := ObjectGraph.grounded_of_not_onCycle hg.present hg.acyclic
  obtain ⟨ds, after, hwalk⟩ : ∃ ds after, e.graph.Walk e.settings.isInline 0 [] [root] ds after :=
    hgrounded.exists_walk 0 []
  have hroot : ∀ p ∈ [(ValueType.any, root)], e.Fitting root [] p.1 p.2 := by
    rw [List.forall_mem_singleton]
    exact ⟨hgrounded.fits_any, .self root, by simp⟩
  obtain ⟨chunks, t, hrun, -⟩ := exists_writeEach hgraph hg hused hgrounded hwalk
    (hg.shallow ds after hwalk) rfl hroot (zero_add_roomAt e.settings) (ready_start e root codecs)
  obtain ⟨bytes, u, _, hwrite, -, -⟩ := Step.each_cons_eq_ok_iff.mp hrun
  exact ⟨⟨bytes, u.schema.entries⟩, u, writeRoot_eq_ok_iff.mpr ⟨hg.root_ne_null, hwrite, rfl⟩⟩

/-- A root that was written is that of a serializable graph. -/
theorem serializable_of_writeRoot (hgraph : e.graph.WellFormed)
    (hused : ToldApart (e.graph.Uses root)) {codecs : CodecCache} {envelope : Envelope}
    {t : Encoding} (h : e.writeRoot root (Encoding.start codecs) = .ok envelope t) :
    e.graph.Serializable e.settings e.locals root := by
  obtain ⟨hnull, hwrite, -⟩ := writeRoot_eq_ok_iff.mp h
  have hfollows := writeValue_follows hgraph (zero_add_roomAt e.settings) (.self root) hwrite
    (consistent_start e root codecs)
  exact hfollows.serializable hgraph hused hnull rfl

end Encoder

namespace Endpoint

/-- A serializable graph has an encoding. -/
theorem exists_encode {S : Settings} {g : ObjectGraph} {root : Value} {s : Endpoint}
    (hgraph : g.WellFormed) (hused : ToldApart (g.Uses root))
    (hg : g.Serializable S s.locals root) : ∃ envelope t, encode S g root s = .ok envelope t := by
  obtain ⟨envelope, after, hwrite⟩ := Encoder.exists_writeRoot
    (e := ⟨S, s.locals, g⟩) hgraph hused hg s.codecs
  exact ⟨envelope, _, encode_eq_ok_iff.mpr ⟨after, hwrite, rfl⟩⟩

/-- **Which graphs can be encoded.** A graph that was built, over types that their digests tell
apart, has an encoding exactly when it is serializable; otherwise the encoding fails, and says that
a value has none. -/
theorem encode_succeeds_iff {settings : Settings} {g : ObjectGraph} {root : Value} {s : Endpoint}
    (hg : g.Built) (hused : ToldApart (g.Uses root)) :
    ((∃ envelope t, encode settings g root s = .ok envelope t) ↔
        g.Serializable settings s.locals root) ∧
      (¬ g.Serializable settings s.locals root →
        ∃ e t, encode settings g root s = .error e t ∧ e.kind = .notSerializable) := by
  have hgraph := hg.wellFormed
  have hiff : (∃ envelope t, encode settings g root s = .ok envelope t) ↔
      g.Serializable settings s.locals root := by
    constructor
    · rintro ⟨envelope, t, hrun⟩
      obtain ⟨after, hwrite, -⟩ := encode_eq_ok_iff.mp hrun
      exact Encoder.serializable_of_writeRoot hgraph hused hwrite
    · exact exists_encode hgraph hused
  refine ⟨hiff, fun hnot => ?_⟩
  cases hrun : encode settings g root s with
  | ok envelope t => exact absurd (hiff.mp ⟨envelope, t, hrun⟩) hnot
  | error e t =>
    obtain ⟨after, hwrite, -⟩ := encode_eq_error_iff.mp hrun
    exact ⟨e, t, rfl, Encoder.writeRoot_fails hgraph root _ _ _ hwrite⟩

/-- The type with a slot for anything. -/
def cell : Descriptor :=
  ⟨Declaration.toLevel ⟨"Cell", .composite, [.anything "value"], []⟩ [], [],
    Declaration.sealed_toLevel (by decide) (by decide) trivial⟩

/-- The cell as a runtime type. -/
def cellType : RuntimeType :=
  .ofDescriptor ⟨.known, 0, 0⟩ cell.digest cell (by decide)

/-- A cell without a value, and one that refers to it. -/
def cells : ObjectGraph :=
  ⟨#[⟨cellType, [.null]⟩, ⟨cellType, [.list [.object ⟨0⟩]]⟩]⟩

/-- The second cell is met before the first, which is met again. -/
def cellsRoot : Value := .list [.object ⟨1⟩, .object ⟨0⟩]

theorem built_cells : cells.Built := by
  have hfirst : ObjectGraph.empty.instantiate cellType [.null] =
      .ok (⟨0⟩, ⟨#[⟨cellType, [.null]⟩]⟩) := rfl
  have hsecond : ObjectGraph.instantiate ⟨#[⟨cellType, [.null]⟩]⟩ cellType
      [.list [.object ⟨0⟩]] = .ok (⟨1⟩, cells) := rfl
  exact .instantiate (.instantiate .empty hfirst) hsecond

theorem mem_cells {h : Handle} {o : Instance} (hget : cells.get? h = some o) :
    o = ⟨cellType, [.null]⟩ ∨ o = ⟨cellType, [.list [.object ⟨0⟩]]⟩ := by
  simpa [cells] using Array.mem_of_getElem? hget

theorem uses_cells {t : RuntimeType} (h : cells.Uses cellsRoot t) : t = cellType := by
  cases h with
  | object _ hget => rcases mem_cells hget with rfl | rfl <;> rfl
  | @constant c hreach =>
    -- no constant is held by the root or by a field
    have hnone := hreach.closed (P := fun v => ¬ v.Holds (.constant c))
      (fun items hitems v hv hholds => hitems (.item hv hholds))
      (fun h o hget _ => by
        rcases mem_cells hget with rfl | rfl <;>
          simp [Value.holds_list_iff, Value.holds_object_iff, Value.holds_null_iff])
      (by simp [cellsRoot, Value.holds_list_iff, Value.holds_object_iff])
    exact absurd (.self _) hnone

/-- Two cells that share one of them are serializable. -/
theorem encode_succeeds_iff_cells :
    cells.Serializable .standard (.empty 0) cellsRoot := by
  have htold : ToldApart (cells.Uses cellsRoot) := by
    intro t u ht hu _
    rw [uses_cells ht, uses_cells hu]
    exact .refl _
  refine (encode_succeeds_iff (s := .empty 0) built_cells htold).1.mp ?_
  exact Step.exists_of_succeeds (by decide +kernel)

end Endpoint

end ObjectEnvelope
