import ObjectEnvelope.Proofs.Endpoint.Transfers

/-!
# Round trips

What one endpoint encodes, another decodes to a copy of it, be the types there registered or
synthesized.
-/

namespace ObjectEnvelope.Endpoint

/-- **The round trip between two endpoints.** When no type is an inline one, and digests do not
collide, whatever a sender encodes is decoded by every receiver that allows as deep a nesting, as
long lists and as long dependencies, and what it decodes is a copy of what the root leads to. -/
theorem exists_copy_of_encode {S R : Settings} {sender receiver t : Endpoint} {g : ObjectGraph}
    {root : Value} {envelope : Envelope} {ds : Set Descriptor} (hds : CollisionFree ds)
    (hsender : sender.locals.Reached ds) (hreceiver : receiver.locals.Reached ds)
    (hsynthesis : receiver.synthesis.Reached ds) (hg : g.Built)
    (htypes : ∀ type, g.Uses root type → type.HandedOut ds) (hinline : S.inlineTypes = [])
    (hrun : encode S g root sender = .ok envelope t) (hdepth : S.maxDepth ≤ R.maxDepth)
    (hshort : ∀ items, g.Reaches root (.list items) → items.length ≤ R.maxListLength)
    (hchains : SchemaEntry.WithinChains envelope.schema R.maxDepth) :
    ∃ d u image, decode R envelope .any receiver = .ok d u ∧
      g.IsCopy root d.graph d.root image := by
  obtain ⟨after, hwrite, -⟩ := encode_eq_ok_iff.mp hrun
  have hgraph := hg.wellFormed
  have hgenuine : ∀ type, g.Uses root type → type.Genuine ds :=
    fun type htype => (htypes type htype).genuine hds
  have hfollows := Encoder.follows_of_writeRoot (e := ⟨S, sender.locals, g⟩) hgraph hwrite
  have hschema : envelope.schema = after.schema.entries :=
    (Encoder.writeRoot_eq_ok_iff.mp hwrite).2.2
  have hsound := hfollows.consistent.schema
  have hknown := Encoder.known_of_sound hds hsound hsender hgenuine
  rw [hschema] at hchains
  obtain ⟨types, u, hresolve, hrebuilt⟩ :=
    exists_resolve hds hreceiver hsynthesis hsound hknown hchains
  have hreceives := Encoder.receives_of_rebuilt hds hfollows hgenuine hknown hshort rfl hrebuilt
  exact exists_copy_of_receives hgraph hinline hdepth hwrite (hschema ▸ hresolve) hreceives

/-- What is registered where cells are known. -/
def cellLocals : LocalTypes := ⟨0, [cellType]⟩

theorem reached_cellLocals {ds : Set Descriptor} (hcell : cell ∈ ds) : cellLocals.Reached ds := by
  have hregister : LocalTypes.register cell (.empty 0) = .ok cellType cellLocals := rfl
  rw [← Step.after_of_ok hregister]
  refine .register (.empty 0) fun d hd => ?_
  rw [Descriptor.lineage, show cell.ancestors = [] from rfl, List.mem_singleton] at hd
  exact hd ▸ hcell

/-- The two cells on the wire, the second before the first, which is referred back to. -/
def cellsEnvelope : Envelope where
  payload :=
    [0x10, 2, 0, 0, 0] ++ [0x12, 0, 0, 0, 0, 1, 0, 0, 0, 0x10, 1, 0, 0, 0] ++
      [0x12, 0, 0, 0, 0, 1, 0, 0, 0, 0x00] ++ [0x14, 0, 0, 0, 0]
  schema := [.ofDescriptor cell]

theorem encode_cells : ∃ t, encode .standard cells cellsRoot ⟨cellLocals, .empty 0, .empty⟩ =
    .ok cellsEnvelope t :=
  Step.exists_of_outcome (by decide +kernel)

theorem short_cells {items : List Value} (h : cells.Reaches cellsRoot (.list items)) :
    items.length ≤ 2 := by
  refine h.closed (P := fun v => ∀ items, v.Holds (.list items) → items.length ≤ 2)
    (fun items hitems v hv held hholds => hitems held (.item hv hholds))
    (fun h o hget _ v hv held hholds => ?_) ?_ items (.self _)
  · rcases mem_cells hget with rfl | rfl
    · simp_all [Value.holds_null_iff]
    · simp_all [Value.holds_list_iff, Value.holds_object_iff]
  · simp [cellsRoot, Value.holds_list_iff, Value.holds_object_iff]

/-- A cell depends on no other type. -/
theorem withinChains_cells (limit : Nat) : SchemaEntry.WithinChains cellsEnvelope.schema limit := by
  refine SchemaEntry.withinChains_of_not_depends (fun a b => ?_) limit
  rintro ⟨ha, -, hname⟩
  rw [List.mem_singleton.mp ha] at hname
  cases hname

/-- A receiver without types decodes a copy of the two cells. -/
theorem exists_copy_of_encode_cells :
    ∃ d u image, decode .standard cellsEnvelope .any (.empty 0) = .ok d u ∧
      cells.IsCopy cellsRoot d.graph d.root image := by
  obtain ⟨t, hrun⟩ := encode_cells
  have hlocals : cellLocals.Reached {cell} := reached_cellLocals (Set.mem_singleton cell)
  refine exists_copy_of_encode (collisionFree_singleton cell) hlocals (.empty 0) (.empty 0) built_cells
    (fun type htype => ?_) rfl hrun (Nat.le_refl _) (fun items hitems => ?_) (withinChains_cells _)
  · rw [uses_cells htype]
    exact .registered hlocals (List.mem_singleton_self _)
  · exact (short_cells hitems).trans (by decide)

end ObjectEnvelope.Endpoint
