import ObjectEnvelope.Proofs.Endpoint.DecodedGraphs
import ObjectEnvelope.Proofs.Endpoint.RoundTrips
import ObjectEnvelope.Proofs.Payload.References

/-!
# Inline types

Objects of inline types have no numbers, so a receiver makes one object of each occurrence, and
shares all others as they were shared before: what it decodes is a cover of what was encoded
(`exists_cover_of_encode`). As an object can be written more than once, there is no bound on how
many the receiver has to make. It refuses the payload when handles do not suffice to name them, and
then no graph that a receiver can hold is a cover. A tower of 34 inline cells needs that many
(`not_forall_exists_cover_of_encode`).
-/

namespace ObjectEnvelope

open ObjectGraph (Linked)

namespace Encoder

variable {e : Encoder} {root : Value} {s t : Encoding} {made : List Handle}

/-- An object whose type is not inline is made once. -/
theorem Makes.count_le_one {codecs : CodecCache}
    (h : e.Makes (Encoding.start codecs) [root] made t) (hnodup : t.numbered.toList.Nodup)
    {k : Handle} (hk : e.isNumbered k = true) : made.count k ≤ 1 := by
  have hnumbered : t.numbered.toList = made.filter e.isNumbered := h.numbered
  rw [← List.count_filter hk, ← hnumbered]
  exact List.nodup_iff_count_le_one.mp hnodup k

/-- Of the objects that were read, those of inline types have no number. -/
theorem Makes.not_mem_numbered {codecs : CodecCache} {after : Decoding}
    (h : e.Makes (Encoding.start codecs) [root] made t)
    (hmirrors : after.Mirrors e.graph t.numbered.toList made) {k : Handle} {o : Instance}
    (hget : after.graph.get? k = some o) (hinline : e.settings.isInline o.type.name = true) :
    k ∉ after.numbered := by
  intro hk
  obtain ⟨i, hi, hik⟩ := List.mem_iff_getElem.mp (Array.mem_toList_iff.mpr hk)
  have hi' := hmirrors.numbers.length_eq ▸ hi
  have hlinked := hmirrors.numbers.get hi' hi
  simp only [List.get_eq_getElem, hik] at hlinked
  -- what has the number was not inline when it was written, and its type has the same name
  obtain ⟨p, o', hp, hget', hcopies⟩ := hmirrors.graph.objects _ k hlinked
  obtain rfl := Option.some_inj.mp (hget.symm.trans hget')
  have hname : p.type.name = o.type.name := hcopies.type.alike.name
  have hnumbered : t.numbered.toList = made.filter e.isNumbered := h.numbered
  have hmem : t.numbered.toList[i] ∈ made.filter e.isNumbered :=
    hnumbered ▸ List.getElem_mem hi'
  have hisNumbered := (List.mem_filter.mp hmem).2
  rw [isNumbered_eq hp, hname, hinline] at hisNumbered
  cases hisNumbered

end Encoder

namespace Endpoint

/-- **Sharing is kept and inline objects are copied.** When digests do not collide, whatever a
sender encodes is decoded by every receiver that allows as deep a nesting, as long lists and as long
dependencies, and what it decodes is a cover of what the root leads to. The one exception is a
payload of so many inline objects that handles do not suffice to name those of any cover, which is
refused. -/
theorem exists_cover_of_encode {S R : Settings} {sender receiver t : Endpoint} {g : ObjectGraph}
    {root : Value} {envelope : Envelope} {ds : Set Descriptor} (hds : CollisionFree ds)
    (hsender : sender.locals.Reached ds) (hreceiver : receiver.locals.Reached ds)
    (hsynthesis : receiver.synthesis.Reached ds) (hg : g.Built)
    (htypes : ∀ type, g.Uses root type → type.HandedOut ds)
    (hrun : encode S g root sender = .ok envelope t) (hdepth : S.maxDepth ≤ R.maxDepth)
    (hshort : ∀ items, g.Reaches root (.list items) → items.length ≤ R.maxListLength)
    (hchains : SchemaEntry.WithinChains envelope.schema R.maxDepth) :
    (∃ d u origin, decode R envelope .any receiver = .ok d u ∧
      g.IsCover S.isInline root d.graph d.root origin) ∨
    ∃ u, decode R envelope .any receiver = .error (.notSerializable .graphFull) u ∧
      9 * ObjectGraph.capacity < envelope.payload.length ∧
      ∀ cover coverRoot origin, g.IsCover S.isInline root cover coverRoot origin →
        ObjectGraph.capacity < cover.size := by
  obtain ⟨after, hwrite, -⟩ := encode_eq_ok_iff.mp hrun
  have hgraph := hg.wellFormed
  have hgenuine : ∀ type, g.Uses root type → type.Genuine ds :=
    fun type htype => (htypes type htype).genuine hds
  have hfollows := Encoder.follows_of_writeRoot (e := ⟨S, sender.locals, g⟩) hgraph hwrite
  have hschema := Encoder.schema_of_writeRoot hwrite
  have hsound := hfollows.consistent.schema
  have hknown := Encoder.known_of_sound hds hsound hsender hgenuine
  rw [hschema] at hchains
  obtain ⟨types, u, hresolve, hrebuilt⟩ :=
    exists_resolve hds hreceiver hsynthesis hsound hknown hchains
  have hreceives := Encoder.receives_of_rebuilt hds hfollows hgenuine hknown hshort rfl hrebuilt
  obtain ⟨made, hmakes, hlength, hyields⟩ :=
    yields_decode hgraph hdepth hwrite (hschema ▸ hresolve) hreceives.toKnows
  have hshared : ∀ k o, g.get? k = some o → S.isInline o.type.name = false →
      made.count k ≤ 1 := by
    intro k o hget hinline
    refine hmakes.count_le_one hfollows.nodup.2 ?_
    rw [Encoder.isNumbered_eq hget, hinline]
    rfl
  rcases hyields with ⟨d, u', hok, s, hread, hsame, hmirrors, hcopies⟩ | ⟨f, u', hfails, hf⟩
  · refine .inl ⟨d, u', fun k => made.getD k.index k, hok, ?_⟩
    rw [hsame]
    refine hmirrors.graph.isCover hmakes.reaches_root hcopies hshared fun k o hget hinline => ?_
    exact Decoder.placesOf_of_readRoot hread (Option.isSome_iff_exists.mpr ⟨o, hget⟩)
      (hmakes.not_mem_numbered hmirrors hget hinline)
  · obtain ⟨rfl, hcapacity⟩ := hreceives.not_refusal hf
    refine .inr ⟨u', hfails, by omega, fun cover coverRoot origin hcover => ?_⟩
    exact Nat.lt_of_lt_of_le hcapacity (hcover.length_le_size
      (fun k => hfollows.nodup.1.not_onCycle) hmakes.reaches_root hshared (hmakes.places nofun))

/-- The default settings, but for cells that are written in place. -/
def inlineCells : Settings := { Settings.standard with inlineTypes := ["Cell"] }

/-- The two cells on the wire, the first of them twice. -/
def inlineCellsEnvelope : Envelope where
  payload :=
    [0x10, 2, 0, 0, 0] ++ [0x13, 0, 0, 0, 0, 1, 0, 0, 0, 0x10, 1, 0, 0, 0] ++
      [0x13, 0, 0, 0, 0, 1, 0, 0, 0, 0x00] ++ [0x13, 0, 0, 0, 0, 1, 0, 0, 0, 0x00]
  schema := [.ofDescriptor cell]

theorem encode_inlineCells : ∃ t,
    encode inlineCells cells cellsRoot ⟨cellLocals, .empty 0, .empty⟩ =
      .ok inlineCellsEnvelope t :=
  Step.exists_of_outcome (by decide +kernel)

/-- A receiver without types decodes three cells, two of them over the same one. -/
theorem exists_cover_of_encode_cells :
    ∃ d u origin, decode .standard inlineCellsEnvelope .any (.empty 0) = .ok d u ∧
      cells.IsCover inlineCells.isInline cellsRoot d.graph d.root origin := by
  obtain ⟨t, hrun⟩ := encode_inlineCells
  have hlocals : cellLocals.Reached {cell} := reached_cellLocals (Set.mem_singleton cell)
  have hreceiver : (Endpoint.empty 0).locals.Reached {cell} := .empty 0
  have hsynthesis : (Endpoint.empty 0).synthesis.Reached {cell} := .empty 0
  have hdepth : inlineCells.maxDepth ≤ Settings.standard.maxDepth := Nat.le_refl _
  have htypes : ∀ type, cells.Uses cellsRoot type → type.HandedOut {cell} := by
    intro type htype
    rw [uses_cells htype]
    exact .registered hlocals (List.mem_singleton_self _)
  have hshort : ∀ items, cells.Reaches cellsRoot (.list items) →
      items.length ≤ Settings.standard.maxListLength :=
    fun items hitems => (short_cells hitems).trans (by decide)
  rcases exists_cover_of_encode (collisionFree_singleton cell) hlocals hreceiver hsynthesis built_cells htypes hrun
    hdepth hshort (withinChains_cells _) with hok | ⟨u, -, hlarge⟩
  · exact hok
  · exact absurd hlarge.1 (by decide)

/-! ## A graph that only large graphs cover -/

/-- The cell that holds one list of another, twice. -/
def doubleCell (i : Nat) : Instance :=
  ⟨cellType, [.list [.object ⟨i⟩, .object ⟨i⟩]]⟩

/-- A cell without a value, and `n` more, each of which holds the one before it twice. -/
def tower : Nat → ObjectGraph
  | 0 => ⟨#[⟨cellType, [.null]⟩]⟩
  | n + 1 => ⟨(tower n).objects.push (doubleCell n)⟩

theorem size_tower (n : Nat) : (tower n).size = n + 1 := by
  induction n with
  | zero => rfl
  | succ n ih => exact (Array.size_push _).trans (congrArg Nat.succ ih)

theorem get?_tower_zero (n : Nat) : (tower n).get? ⟨0⟩ = some ⟨cellType, [.null]⟩ := by
  induction n with
  | zero => rfl
  | succ n ih =>
    rw [tower, ObjectGraph.get?_push, size_tower, if_neg (Nat.succ_ne_zero n).symm]
    exact ih

theorem get?_tower_succ {n i : Nat} (hi : i < n) :
    (tower n).get? ⟨i + 1⟩ = some (doubleCell i) := by
  induction n with
  | zero => cases hi
  | succ n ih =>
    rw [tower, ObjectGraph.get?_push, size_tower]
    rcases Nat.lt_succ_iff_lt_or_eq.mp hi with hlt | rfl
    · rw [if_neg (by simp only; omega)]
      exact ih hlt
    · exact if_pos rfl

theorem mem_tower {n : Nat} {h : Handle} {o : Instance} (hget : (tower n).get? h = some o) :
    o = ⟨cellType, [.null]⟩ ∨ ∃ i, o = doubleCell i := by
  have hlt := ObjectGraph.get?_eq_some_lt hget
  rw [size_tower] at hlt
  obtain ⟨_ | i⟩ := h
  · exact .inl (Option.some_inj.mp (hget.symm.trans (get?_tower_zero n)))
  · exact .inr ⟨i, Option.some_inj.mp (hget.symm.trans (get?_tower_succ (by simpa using hlt)))⟩

theorem built_tower {n : Nat} (hn : n < ObjectGraph.capacity) : (tower n).Built := by
  induction n with
  | zero =>
    have hnew : ObjectGraph.empty.instantiate cellType [.null] = .ok (⟨0⟩, tower 0) := rfl
    exact .instantiate .empty hnew
  | succ n ih =>
    have hslots : ∀ p ∈ cellType.slots.zip [Value.list [.object ⟨n⟩, .object ⟨n⟩]],
        (tower n).FitsSlot p.1 p.2 := by
      intro p hp
      rw [show cellType.slots = [.anything "value"] from rfl, List.zip_cons_cons, List.zip_nil_left,
        List.mem_singleton] at hp
      rw [hp]
      exact ⟨.anyList _, by simp⟩
    have hnew : (tower n).instantiate cellType [.list [.object ⟨n⟩, .object ⟨n⟩]] =
        .ok (⟨(tower n).size⟩, tower (n + 1)) :=
      ObjectGraph.instantiate_eq_ok_iff.mpr
        ⟨rfl, rfl, hslots, by rw [size_tower]; exact hn, rfl, rfl⟩
    exact .instantiate (ih (by omega)) hnew

/-- What is met in a tower: nothing, cells, and lists of two cells. -/
inductive InTower : Value → Prop
  | null : InTower .null
  | object (h : Handle) : InTower (.object h)
  | list (h : Handle) : InTower (.list [.object h, .object h])

theorem inTower_of_reaches {n : Nat} {h : Handle} {v : Value}
    (hreach : (tower n).Reaches (.object h) v) : InTower v := by
  refine hreach.closed (P := InTower) (fun items hitems v hv => ?_) (fun k o hget _ v hv => ?_)
    (.object h)
  · cases hitems with
    | list k =>
      obtain rfl : v = .object k := by simpa using hv
      exact .object k
  · rcases mem_tower hget with rfl | ⟨i, rfl⟩
    · rw [List.mem_singleton.mp hv]
      exact .null
    · rw [List.mem_singleton.mp hv]
      exact .list ⟨i⟩

theorem uses_tower {n : Nat} {h : Handle} {t : RuntimeType}
    (ht : (tower n).Uses (.object h) t) : t = cellType := by
  cases ht with
  | object _ hget =>
    rcases mem_tower hget with rfl | ⟨i, rfl⟩ <;> rfl
  | constant hreach => cases inTower_of_reaches hreach

/-- A walk into the cell with a number lies as deep as twice its number, and a value deeper. -/
theorem exists_walk_tower {inline : String → Bool} (hinline : inline "Cell" = true) {n i : Nat}
    (hi : i ≤ n) (depth : Nat) :
    ∃ ds, (tower n).Walk inline depth [] [.object ⟨i⟩] ds [] ∧
      ∀ d ∈ ds, d ≤ depth + 2 * i + 1 := by
  have hcell : ∀ (o : Instance) (h : Handle), o.type = cellType →
      ObjectGraph.completing inline o h [] = [] := by
    intro o h htype
    rw [ObjectGraph.completing, htype]
    exact if_pos hinline
  induction i generalizing depth with
  | zero =>
    refine ⟨depth :: [depth + 1] ++ [], .enter List.not_mem_nil (get?_tower_zero n)
      (.leaf .null .nil) ?_, by simp⟩
    rw [hcell _ _ rfl]
    exact .nil
  | succ i ih =>
    obtain ⟨ds, hwalk, hds⟩ := ih (by omega) (depth + 1 + 1)
    refine ⟨depth :: ((depth + 1) :: (ds ++ ds) ++ []) ++ [], .enter List.not_mem_nil
      (get?_tower_succ hi) (.list (hwalk.append hwalk) .nil) ?_, fun d hd => ?_⟩
    · rw [hcell _ _ rfl]
      exact .nil
    · simp only [List.append_nil, List.mem_cons, List.mem_append, or_self] at hd
      rcases hd with rfl | rfl | hd
      · omega
      · omega
      · have hle := hds d hd
        omega

/-- Cells are described by a single descriptor. -/
theorem eq_cell_of_collects {locals : LocalTypes} {n : Nat} {h : Handle} {d : Descriptor}
    (hd : locals.Collects ((tower n).Uses (.object h)) d) : d = cell := by
  obtain ⟨t, ht, hdescribes⟩ := hd
  rw [uses_tower ht] at hdescribes
  cases hdescribes with
  | lineage hd => exact List.mem_singleton.mp hd
  | interface hc hname =>
    rw [List.mem_singleton.mp hc] at hname
    cases hname

/-- A tower of inline cells can be encoded within the depth limit. -/
theorem serializable_tower {S : Settings} (hinline : S.isInline "Cell" = true)
    (locals : LocalTypes) {n : Nat} (hn : n < ObjectGraph.capacity)
    (hdepth : 2 * n + 1 ≤ S.maxDepth) :
    (tower n).Serializable S locals (.object ⟨n⟩) := by
  obtain ⟨ds, hwalk, hds⟩ := exists_walk_tower hinline (Nat.le_refl n) 0
  refine Encoder.serializable_of_walk (built_tower hn).wellFormed nofun hwalk
    (fun d hd => (hds d hd).trans (by omega)) (fun d e hd he _ => ?_) (fun v hv => ?_) ?_
  · rw [eq_cell_of_collects hd, eq_cell_of_collects he]
  · cases inTower_of_reaches hv with
    | null => exact trivial
    | object h => exact trivial
    | list h => exact (by decide : 2 < 2 ^ 32)
  · have hsubset : locals.collectedNames ((tower n).Uses (.object ⟨n⟩)) ⊆ {"Cell"} := by
      rintro _ ⟨d, hd, rfl⟩
      rw [eq_cell_of_collects hd]
      rfl
    refine (Set.encard_le_encard hsubset).trans ?_
    rw [Set.encard_singleton]
    exact_mod_cast (by decide : 1 ≤ SchemaTable.capacity)

/-- In the schema of a tower nothing depends on anything. -/
theorem withinChains_tower {S : Settings} {s t : Endpoint} {n : Nat} {h : Handle}
    {envelope : Envelope} (hg : (tower n).Built)
    (hrun : encode S (tower n) (.object h) s = .ok envelope t) (limit : Nat) :
    SchemaEntry.WithinChains envelope.schema limit := by
  obtain ⟨after, hwrite, -⟩ := encode_eq_ok_iff.mp hrun
  have hsound := Encoder.sound_of_writeRoot hg.wellFormed hwrite
  refine SchemaEntry.withinChains_of_not_depends (fun a b => ?_) limit
  rintro ⟨ha, -, hname⟩
  rw [Encoder.schema_of_writeRoot hwrite] at ha
  obtain ⟨c, hc, rfl⟩ := List.mem_map.mp ha
  rw [eq_cell_of_collects (hsound.needed c hc)] at hname
  cases hname

/-- A list that counts places names each cell twice as often as the one above it. -/
theorem two_pow_le_count {isInline : String → Bool} (hinline : isInline "Cell" = true) {n : Nat}
    {made : List Handle} (hmade : (tower n).CountsPlaces isInline [.object ⟨n⟩] made) {m i : Nat}
    (hi : i + m = n) : 2 ^ m ≤ made.count ⟨i⟩ := by
  have hcount : ∀ i ≤ n, made.count ⟨i⟩ =
      (made.flatMap (tower n).successors).count ⟨i⟩ + List.count ⟨i⟩ [(⟨n⟩ : Handle)] := by
    intro i hi
    obtain ⟨o, hget⟩ := Option.isSome_iff_exists.mp
      (ObjectGraph.get?_isSome_iff.mpr (show i < (tower n).size by rw [size_tower]; omega))
    refine (hmade ⟨i⟩ o hget ?_).trans List.count_append
    rcases mem_tower hget with rfl | ⟨j, rfl⟩ <;> exact hinline
  -- the induction starts at the root, and goes down from there
  induction m generalizing i with
  | zero =>
    obtain rfl : i = n := hi
    rw [hcount i (Nat.le_refl i), List.count_singleton_self]
    exact Nat.le_add_left _ _
  | succ m ih =>
    have htwice : ((tower n).successors ⟨i + 1⟩).count ⟨i⟩ = 2 := by
      rw [ObjectGraph.successors_eq (get?_tower_succ (by omega))]
      simp [doubleCell, Value.handlesOfAll, Value.handles]
    calc 2 ^ (m + 1) = 2 ^ m * 2 := pow_succ 2 m
      _ ≤ made.count ⟨i + 1⟩ * ((tower n).successors ⟨i + 1⟩).count ⟨i⟩ := by
        rw [htwice]
        exact Nat.mul_le_mul_right 2 (ih (by omega))
      _ ≤ (made.flatMap (tower n).successors).count ⟨i⟩ := mul_count_le_count_flatMap _ _ _ _
      _ ≤ made.count ⟨i⟩ := by
        rw [hcount i (by omega)]
        exact Nat.le_add_right _ _

/-- Every cover of a tower has `2 ^ n` objects over its lowest cell. -/
theorem two_pow_le_size_of_isCover {isInline : String → Bool} (hinline : isInline "Cell" = true)
    {n : Nat} {cover : ObjectGraph} {w : Value} {origin : Handle → Handle}
    (h : (tower n).IsCover isInline (.object ⟨n⟩) cover w origin) : 2 ^ n ≤ cover.size :=
  calc 2 ^ n ≤ (cover.handles.map origin).count ⟨0⟩ :=
        two_pow_le_count hinline h.countsPlaces (Nat.zero_add n)
    _ ≤ (cover.handles.map origin).length := List.count_le_length
    _ = cover.size := by rw [List.length_map, ObjectGraph.length_handles]

/-- A decoded graph has no more objects than handles can name. -/
theorem size_le_of_decode {R : Settings} {receiver u : Endpoint} {envelope : Envelope}
    {d : DecodedGraph} (h : decode R envelope .any receiver = .ok d u) :
    d.graph.size ≤ ObjectGraph.capacity := by
  obtain ⟨types, s, -, hresolve, -⟩ := decode_eq_ok_iff.mp h
  exact (retraces_of_decode hresolve h).2.made.built.wellFormed.size_le

/-- Not every envelope is decoded to a cover: a tower of 34 inline cells can be encoded, but its
covers have more objects than a graph may have. -/
theorem not_forall_exists_cover_of_encode :
    ¬ ∀ (S R : Settings) (sender receiver t : Endpoint) (g : ObjectGraph) (root : Value)
        (envelope : Envelope) (ds : Set Descriptor), CollisionFree ds →
      sender.locals.Reached ds → receiver.locals.Reached ds → receiver.synthesis.Reached ds →
      g.Built → (∀ type, g.Uses root type → type.HandedOut ds) →
      encode S g root sender = .ok envelope t → S.maxDepth ≤ R.maxDepth →
      (∀ items, g.Reaches root (.list items) → items.length ≤ R.maxListLength) →
      SchemaEntry.WithinChains envelope.schema R.maxDepth →
      ∃ d u origin, decode R envelope .any receiver = .ok d u ∧
        g.IsCover S.isInline root d.graph d.root origin := by
  intro hclaim
  have hlocals : cellLocals.Reached {cell} := reached_cellLocals (Set.mem_singleton cell)
  have hbuilt : (tower 33).Built := built_tower (by decide)
  have htold : ToldApart ((tower 33).Uses (.object ⟨33⟩)) := by
    intro t u ht hu _
    rw [uses_tower ht, uses_tower hu]
    exact .refl _
  have hinline : inlineCells.isInline "Cell" = true := rfl
  have hserializable : (tower 33).Serializable inlineCells cellLocals (.object ⟨33⟩) :=
    serializable_tower hinline cellLocals (by decide) (by decide)
  obtain ⟨envelope, t, hrun⟩ := exists_encode
    (s := ⟨cellLocals, .empty 0, .empty⟩) hbuilt.wellFormed htold hserializable
  have hshort : ∀ items, (tower 33).Reaches (.object ⟨33⟩) (.list items) →
      items.length ≤ Settings.standard.maxListLength := by
    intro items hitems
    cases inTower_of_reaches hitems with
    | list h => exact (by decide : 2 ≤ Settings.standard.maxListLength)
  obtain ⟨d, u, origin, hdecode, hcover⟩ := hclaim inlineCells .standard _ (.empty 0) t (tower 33)
    (.object ⟨33⟩) envelope {cell} (collisionFree_singleton cell) hlocals (.empty 0) (.empty 0)
    hbuilt (fun type htype => uses_tower htype ▸ .registered hlocals (List.mem_singleton_self _))
    hrun (Nat.le_refl _) hshort (withinChains_tower hbuilt hrun _)
  have hlarge := two_pow_le_size_of_isCover hinline hcover
  exact absurd (hlarge.trans (size_le_of_decode hdecode)) (by decide)

end Endpoint

end ObjectEnvelope
