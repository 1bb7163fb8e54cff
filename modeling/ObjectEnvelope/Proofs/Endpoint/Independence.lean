import Mathlib.Data.Set.Function
import ObjectEnvelope.Proofs.Endpoint.Histories
import ObjectEnvelope.Proofs.Endpoint.RoundTrips
import ObjectEnvelope.Proofs.Envelope.Agreeing
import ObjectEnvelope.Proofs.Payload.TwinDecodings

/-!
# What decoding does not depend on

Two receivers with the same limits decode an envelope alike, whatever types are registered with them
and whatever calls, failed ones included, they have served (`Endpoint.decode_independent`). A schema
entry may stand for a local type with one receiver, for a type left behind by an earlier call with
the other, or for a new type: it stands for the same structure in each case, or for none.
-/

namespace ObjectEnvelope

open Step (Together)

/-- The objects of the two graphs correspond one to one, and along that correspondence the objects
and the root of the second are copies of those of the first. -/
structure DecodedGraph.Corresponds (a b : DecodedGraph) (image : Handle → Handle) : Prop where
  bijective : Set.BijOn image {h | (a.graph.get? h).isSome} {k | (b.graph.get? k).isSome}
  root : a.root.Copies (fun h k => image h = k) b.root
  objects : ∀ h o, a.graph.get? h = some o →
    ∃ o', b.graph.get? (image h) = some o' ∧ o.Copies (fun h k => image h = k) o'

/-- Twins correspond handle by handle. -/
theorem ObjectGraph.Twins.corresponds {g copy : ObjectGraph} (h : g.Twins copy) {v w : Value}
    (hv : v.Twin w) : DecodedGraph.Corresponds ⟨g, v⟩ ⟨copy, w⟩ id := by
  have hsame : {h | (g.get? h).isSome} = {k | (copy.get? k).isSome} := by
    ext k
    rw [Set.mem_ofPred_eq, Set.mem_ofPred_eq, h.isSome]
  refine ⟨hsame ▸ Set.bijOn_id _, hv, fun k o hget => ?_⟩
  have hk := h k
  rw [hget] at hk
  generalize hget' : copy.get? k = found at hk
  cases hk with
  | some ho => exact ⟨_, hget', ho⟩

namespace Endpoint

variable {a b s : Endpoint} {ds : Set Descriptor} {schema : List SchemaEntry}
  {settings settings' : Settings}

/-- The descriptors that a resolution of the schema may compare: those of the types of the endpoint,
with their supertypes, and those that the schema describes. -/
def Involved (s : Endpoint) (schema : List SchemaEntry) : Set Descriptor :=
  {d | (∃ t, (t ∈ s.locals.types ∨ t ∈ s.synthesis.types) ∧ d ∈ t.descriptor.lineage) ∨
    ∃ entry ∈ schema, entry.Describes schema d}

/-- What is involved stands with its supertypes, and the types that a history leaves behind are
found by their own digests. So all that a resolution draws on is known. -/
theorem Served.faithful (h : s.Served) (hds : s.Involved schema ⊆ ds)
    (hclosed : SchemaEntry.Closed schema) (limit : Nat) :
    Resolver.Grounded ⟨schema, s.locals, limit⟩ ds ∧
      Resolver.Faithful ⟨schema, s.locals, limit⟩ ds ⟨s.synthesis, []⟩ := by
  have htypes : ∀ t, t ∈ s.locals.types ∨ t ∈ s.synthesis.types → t.descriptor.Known ds :=
    fun t ht => Descriptor.Covered.known fun e he => hds (.inl ⟨t, ht, he⟩)
  have hdescribed : ∀ entry ∈ schema, ∀ d, entry.Describes schema d → d.Known ds :=
    fun entry hentry d hd => Descriptor.Covered.known fun e he =>
      hds (.inr (hd.exists_of_mem_lineage hentry he))
  constructor
  · exact ⟨hclosed, fun t ht => ⟨h.keyed.locals.consistent.digest t ht, htypes t (.inl ht)⟩,
      hdescribed⟩
  · exact ⟨⟨h.keyed.synthesis.key,
      fun t ht => ⟨h.keyed.synthesis.digest t ht, htypes t (.inr ht)⟩⟩,
      fun _ _ _ hnone => nomatch hnone⟩

/-- The receivers find twins for all entries of the schema, or fail alike. -/
theorem Served.together_resolve (ha : a.Served) (hb : b.Served) (hds : CollisionFree ds)
    (hleft : a.Involved schema ⊆ ds) (hright : b.Involved schema ⊆ ds)
    (hclosed : SchemaEntry.Closed schema) (hdepth : settings.maxDepth = settings'.maxDepth) :
    Together (resolve settings schema) a (resolve settings' schema) b fun types _ types' _ =>
      List.Forall₂ RuntimeType.Twin types types' := by
  obtain ⟨hgrounded, hfaithful⟩ := ha.faithful hleft hclosed settings.maxDepth
  obtain ⟨hgrounded', hfaithful'⟩ := hb.faithful hright hclosed settings.maxDepth
  have hagree : Resolver.Agree ⟨schema, a.locals, settings.maxDepth⟩ b.locals ds
      ⟨a.synthesis, []⟩ ⟨b.synthesis, []⟩ := ⟨hfaithful, hfaithful', fun _ => rfl⟩
  refine .get_bind ?_
  rw [← hdepth]
  exact .on (Resolver.together_resolveAll hds hgrounded hgrounded' hagree)

/-- The check of a root where anything is expected looks at the graph alone. -/
theorem together_checkRoot {g copy : ObjectGraph} {v w : Value} (hgraph : g.Twins copy)
    (hv : v.Twin w) (locals locals' : LocalTypes) :
    Outcome.Together (locals.checkRoot g .any v) (locals'.checkRoot copy .any w)
      fun _ _ => True := by
  have hnull : v.isNull = w.isNull := by cases hv <;> rfl
  show Outcome.Together (if v.isNull then _ else _) (if w.isNull then _ else _) _
  rw [hnull]
  split
  · exact .error rfl
  · exact hgraph.checkValue .any hv

/-- Readings that are alike are alike from the start of one payload, whatever codecs are kept. -/
theorem together_decoding {α β : Type} {R : α → β → Prop} {step : Decode α} {step' : Decode β}
    (h : Decode.Alike R step step') (payload : List UInt8) (u v : Endpoint) :
    Together (decoding (Progress.start payload) step) u (decoding (Progress.start payload) step') v
      fun r _ r' _ => R r.1 r'.1 ∧ r.2.graph.Twins r'.2.graph := by
  have hstart : Decoding.Twins ⟨Progress.start payload, u.codecs⟩
      ⟨Progress.start payload, v.codecs⟩ := ⟨rfl, ObjectGraph.twins_empty, rfl⟩
  refine .on ((h _ _ hstart).bind fun a s b t hread => .get_bind (.pure ?_))
  exact ⟨hread.1, hread.2.graph⟩

/-- **Independence.** Decoding does not depend on the receiver's history or local types: of two
receivers with the same limits, both fail with errors of one kind, or both succeed with graphs that
correspond. The schema has each name once and an entry for every supertype, and no two of the
descriptors involved share a digest without being the same. -/
theorem decode_independent (ha : a.Served) (hb : b.Served)
    (hdepth : settings.maxDepth = settings'.maxDepth)
    (hlength : settings.maxListLength = settings'.maxListLength) {envelope : Envelope}
    (hclosed : SchemaEntry.Closed envelope.schema)
    (hds : CollisionFree (a.Involved envelope.schema ∪ b.Involved envelope.schema)) :
    Together (decode settings envelope .any) a (decode settings' envelope .any) b
      fun d _ d' _ => ∃ image, d.Corresponds d' image := by
  refine (ha.together_resolve hb hds Set.subset_union_left Set.subset_union_right hclosed
    hdepth).bind fun types u types' u' htypes => ?_
  have hdecoders : Decoder.Twins ⟨settings, types⟩ ⟨settings', types'⟩ := ⟨hdepth, hlength, htypes⟩
  refine (together_decoding hdecoders.readRoot envelope.payload u u').bind ?_
  rintro ⟨v, after⟩ s ⟨w, after'⟩ s' ⟨hroot, hgraph⟩
  refine .get_bind ?_
  refine (Together.ofExcept (together_checkRoot hgraph hroot s.locals s'.locals)).bind ?_
  exact fun _ _ _ _ _ => .pure ⟨id, hgraph.corresponds hroot⟩

/-- The type of the cells is all that is involved where it is the only type. -/
theorem alike_of_involved {d : Descriptor} {locals : LocalTypes}
    (hlocals : ∀ t ∈ locals.types, t = cellType) {home : Nat} {codecs : CodecCache}
    (hd : d ∈ Involved ⟨locals, .empty home, codecs⟩ cellsEnvelope.schema) : d.Alike cell := by
  have hcell : SchemaEntry.Describes cellsEnvelope.schema (.ofDescriptor cell) cell :=
    .top (.ofDescriptor cell) rfl rfl
  rcases hd with ⟨t, ht | ht, hd⟩ | ⟨entry, hentry, hd⟩
  · rw [hlocals t ht] at hd
    rw [List.mem_singleton.mp hd]
    exact .refl _
  · cases ht
  · rw [List.mem_singleton.mp hentry] at hd
    have hnames : (cellsEnvelope.schema.map (·.name)).Nodup := List.nodup_singleton _
    exact hd.alike hnames hcell

/-- A receiver without types, and one with which the type of the cells is registered, decode the two
cells to graphs that correspond. -/
theorem decode_independent_cells :
    ∃ d t d' t' image, decode .standard cellsEnvelope .any (.empty 1) = .ok d t ∧
      decode .standard cellsEnvelope .any ⟨cellLocals, .empty 0, .empty⟩ = .ok d' t' ∧
      d.Corresponds d' image := by
  have hserved : Served ⟨cellLocals, .empty 0, .empty⟩ := .call (.register cell) (.empty 0)
  have hclosed : SchemaEntry.Closed cellsEnvelope.schema := by
    refine ⟨List.nodup_singleton _, fun entry hentry name hname => ?_⟩
    rw [List.mem_singleton.mp hentry] at hname
    cases hname
  have halike : ∀ d ∈ (empty 1).Involved cellsEnvelope.schema ∪
      Involved ⟨cellLocals, .empty 0, .empty⟩ cellsEnvelope.schema, d.Alike cell := by
    rintro d (hd | hd)
    · exact alike_of_involved (fun t ht => absurd ht List.not_mem_nil) hd
    · exact alike_of_involved (fun t ht => List.mem_singleton.mp ht) hd
  have hcollision : CollisionFree ((empty 1).Involved cellsEnvelope.schema ∪
      Involved ⟨cellLocals, .empty 0, .empty⟩ cellsEnvelope.schema) :=
    fun d hd e he _ => ((halike d hd).trans (halike e he).symm).same
  obtain ⟨d, t, hrun⟩ := Step.exists_of_succeeds
    (show Step.succeeds (decode .standard cellsEnvelope .any) (.empty 1) = true by decide +kernel)
  rcases decode_independent (.empty 1) hserved rfl rfl hclosed hcollision with
    ⟨d, t, d', t', hrun, hrun', image, himage⟩ | ⟨e, t, _, _, herror, -⟩
  · exact ⟨d, t, d', t', image, hrun, hrun', himage⟩
  · rw [hrun] at herror
    cases herror

end Endpoint

end ObjectEnvelope
