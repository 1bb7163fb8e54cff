import ObjectEnvelope.Proofs.Endpoint.Calls
import ObjectEnvelope.Proofs.Payload.Retracing

/-!
# Decoded graphs are sound

`DecodedGraph.Sound` is what a receiver may rely on when a decoding succeeds, whoever made the
envelope: nothing is assumed of the bytes, the schema, the endpoint or the settings. Besides, a walk
over the graph retraces the decoding (`Endpoint.retraces_of_decode`).
-/

namespace ObjectEnvelope

/-- The value is the root or stands in a slot of an object. -/
inductive DecodedGraph.Stores (d : DecodedGraph) : Value → Prop
  | root : Stores d d.root
  | slot {h : Handle} {o : Instance} {v : Value} (hget : d.graph.get? h = some o)
      (hv : v ∈ o.fields) : Stores d v

/-- A graph without cycles and dangling handles, whose values are where they may be. -/
structure DecodedGraph.Sound (limit : Nat) (expected : ValueType) (d : DecodedGraph) : Prop where
  root_ne_null : d.root ≠ .null
  root_fits : d.graph.Fits expected d.root
  /-- Each object has a composite type and a value for each slot, which fits the slot. -/
  object : ∀ h o, d.graph.get? h = some o → d.graph.FitsObject o
  /-- An object names objects before it only. -/
  earlier : ∀ h o, d.graph.get? h = some o → ∀ v ∈ o.fields, ∀ k,
    v.Holds (.object k) → k.index < h.index
  acyclic : ∀ h, ¬ d.graph.OnCycle h
  /-- Every handle, at whatever depth inside lists, names an object. -/
  present : ∀ v, d.Stores v → ∀ h, v.Holds (.object h) → (d.graph.get? h).isSome
  constant : ∀ v, d.Stores v → ∀ c, v.Holds (.constant c) →
    c.type.kind = .enumeration ∧ c.ordinal < c.type.constants.length
  list : ∀ v, d.Stores v → ∀ items, v.Holds (.list items) → items.length ≤ limit

/-- A layered graph whose root names objects of it is sound, if the root is as expected. -/
theorem ObjectGraph.Layered.sound {limit : Nat} {g : ObjectGraph} (hg : g.Layered limit)
    {root : Value} (hroot : root.Bounded g.size limit) {expected : ValueType}
    (hnull : root ≠ .null) (hfits : g.Fits expected root) :
    DecodedGraph.Sound limit expected ⟨g, root⟩ := by
  have hstores : ∀ v, DecodedGraph.Stores ⟨g, root⟩ v → v.Bounded g.size limit := by
    intro v hv
    cases hv with
    | root => exact hroot
    | slot hget hmem =>
      exact (hg.bounded _ _ hget v hmem).mono (Nat.le_of_lt (get?_eq_some_lt hget))
  exact {
    root_ne_null := hnull
    root_fits := hfits
    object := hg.fits
    earlier := fun h o hget v hv k hk => (hg.bounded h o hget v hv).handle k hk
    acyclic := hg.not_onCycle
    present := fun v hv h hh => get?_isSome_iff.mpr ((hstores v hv).handle h hh)
    constant := fun v hv c hc => ⟨c.kind_type, c.inRange⟩
    list := fun v hv items hitems => (hstores v hv).list items hitems }

namespace Endpoint

/-- **Decoding is sound.** When a decoding succeeds, the payload was read to its last byte, and the
graph is sound: nothing in the bytes or in the schema can make it otherwise. -/
theorem decode_sound {settings : Settings} {envelope : Envelope} {expected : ValueType}
    {s t : Endpoint} {d : DecodedGraph} (h : decode settings envelope expected s = .ok d t) :
    (∃ types u after, resolve settings envelope.schema s = .ok types u ∧
      Decoder.readRoot ⟨settings, types⟩ ⟨Progress.start envelope.payload, u.codecs⟩ =
        .ok d.root after ∧
      after.graph = d.graph ∧ after.reader = ⟨envelope.payload.length, []⟩) ∧
    d.Sound settings.maxListLength expected := by
  obtain ⟨types, u, after, htypes, hread, hgraph, hcheck, -⟩ := decode_eq_ok_iff.mp h
  obtain ⟨hvalue, hrest⟩ := Decoder.readRoot_eq_ok_iff.mp hread
  obtain ⟨-, hnull, hfits⟩ := LocalTypes.checkRoot_eq_ok_iff.mp hcheck
  have hkeeps := Decoder.readValue_keeps hvalue (Decoder.sound_start _ _ _)
  have hreader : after.reader = ⟨envelope.payload.length, []⟩ :=
    hkeeps.advances.eq_of_exhausted hrest
  refine ⟨⟨types, u, after, htypes, hread, hgraph.symm, hreader⟩, ?_⟩
  obtain ⟨graph, root⟩ := d
  obtain rfl : graph = after.graph := hgraph
  exact hkeeps.sound.layered.sound hkeeps.bounded hnull hfits

/-- Decoding leaves the local types alone, and walks over what it decodes. -/
theorem retraces_of_decode {settings : Settings} {receiver u v : Endpoint} {envelope : Envelope}
    {types : List RuntimeType} {d : DecodedGraph}
    (hresolve : resolve settings envelope.schema receiver = .ok types u) {expected : ValueType}
    (hdecode : decode settings envelope expected receiver = .ok d v) :
    v.locals = receiver.locals ∧ Decoder.Retraces ⟨settings, types⟩ 0 .empty [d.root] d.graph := by
  obtain ⟨types', u', s, hresolve', hread, hgraph, -, rfl⟩ := decode_eq_ok_iff.mp hdecode
  cases hresolve.symm.trans hresolve'
  refine ⟨?_, hgraph ▸ Decoder.readRoot_retraces hread⟩
  obtain ⟨t, -, rfl⟩ := resolve_eq_ok_iff.mp hresolve
  rfl

/-- The entry of a type with a slot for anything and one for a list of anything. -/
def pairEntry : SchemaEntry where
  name := "Pair"
  kind := .composite
  parent? := none
  interfaces := []
  fields := [.anything "left", ⟨"right", .list .any, true, fun _ => rfl⟩]

/-- A pair of another pair and of a list that refers back to it. -/
def pairEnvelope : Envelope where
  payload :=
    [0x12, 0, 0, 0, 0, 2, 0, 0, 0] ++ [0x12, 0, 0, 0, 0, 2, 0, 0, 0, 0x00, 0x00] ++
      [0x10, 2, 0, 0, 0, 0x14, 0, 0, 0, 0, 0x03, 0x05]
  schema := [pairEntry]

/-- The endpoint without types decodes the pair, and the outcome is sound. -/
theorem decode_sound_pairEnvelope :
    ∃ d t, decode .standard pairEnvelope (.reference "Pair") (.empty 0) = .ok d t ∧
      d.Sound Settings.standard.maxListLength (.reference "Pair") := by
  obtain ⟨d, t, hrun⟩ := Step.exists_of_succeeds
    (show Step.succeeds (decode .standard pairEnvelope (.reference "Pair")) (.empty 0) = true by
      decide +kernel)
  exact ⟨d, t, hrun, (decode_sound hrun).2⟩

end Endpoint

end ObjectEnvelope
