import ObjectEnvelope.Proofs.Bytes.Canonical
import ObjectEnvelope.Proofs.Graph.Reach
import ObjectEnvelope.Proofs.Graph.Updates
import ObjectEnvelope.Proofs.Payload.DecoderSteps

/-!
# What a decoding keeps

Whatever bytes a payload holds, the graph that is being read stays `Layered`: an object names
objects before it only, and its values fit its slots. The reason is the order of the work. An object
is added when its values are complete, so the handles in them, and those that have a number, are of
objects in the graph (`readValue_keeps`); the values themselves are checked at that moment. Every
object takes bytes of its own, so a graph has fewer objects than its payload has bytes.
-/

namespace ObjectEnvelope

/-- Every handle in the value names one of the first `size` objects, and no list in it is longer
than `limit`. -/
structure Value.Bounded (size limit : Nat) (v : Value) : Prop where
  handle : ∀ h, v.Holds (.object h) → h.index < size
  list : ∀ items, v.Holds (.list items) → items.length ≤ limit

namespace Value

variable {size limit : Nat} {v : Value}

theorem Bounded.mono {size' : Nat} (hsize : size ≤ size') (h : v.Bounded size limit) :
    v.Bounded size' limit :=
  ⟨fun k hk => Nat.lt_of_lt_of_le (h.handle k hk) hsize, h.list⟩

theorem bounded_null : Bounded size limit .null :=
  ⟨fun _ h => (nomatch h), fun _ h => (nomatch h)⟩

theorem bounded_primitive (p : Primitive) : Bounded size limit (.primitive p) :=
  ⟨fun _ h => (nomatch h), fun _ h => (nomatch h)⟩

theorem bounded_constant (c : Constant) : Bounded size limit (.constant c) :=
  ⟨fun _ h => (nomatch h), fun _ h => (nomatch h)⟩

theorem bounded_object {h : Handle} (hlt : h.index < size) : Bounded size limit (.object h) := by
  constructor
  · intro k hk
    cases hk with
    | self => exact hlt
  · intro items hk
    cases hk

theorem bounded_list {items : List Value} (hlength : items.length ≤ limit)
    (hitems : ∀ v ∈ items, Bounded size limit v) : Bounded size limit (.list items) := by
  constructor
  · intro h hh
    cases hh with
    | item hv hw => exact (hitems _ hv).handle h hw
  · intro others hh
    cases hh with
    | self => exact hlength
    | item hv hw => exact (hitems _ hv).list others hw

end Value

namespace ObjectGraph

/-- Every object fits its type, and the handles in its fields name objects before it. -/
structure Layered (limit : Nat) (g : ObjectGraph) : Prop where
  fits : ∀ h o, g.get? h = some o → g.FitsObject o
  bounded : ∀ h o, g.get? h = some o → ∀ v ∈ o.fields, v.Bounded h.index limit

theorem layered_empty (limit : Nat) : Layered limit empty := by
  constructor
  · intro h o hget
    simp [empty, get?] at hget
  · intro h o hget
    simp [empty, get?] at hget

theorem Layered.instantiate {limit : Nat} {g after : ObjectGraph} {type : RuntimeType}
    {values : List Value} {h : Handle} (hg : g.Layered limit)
    (hvalues : ∀ v ∈ values, v.Bounded g.size limit)
    (hnew : g.instantiate type values = .ok (h, after)) : after.Layered limit := by
  have hobject := fitsObject_of_instantiate hnew
  obtain ⟨-, -, -, -, -, rfl⟩ := instantiate_eq_ok_iff.mp hnew
  constructor
  · intro k o hget
    rw [get?_push] at hget
    by_cases hk : k.index = g.size
    · rw [if_pos hk] at hget
      cases hget
      exact hobject
    · rw [if_neg hk] at hget
      exact (hg.fits k o hget).mono (extends_push g _)
  · intro k o hget v hv
    rw [get?_push] at hget
    by_cases hk : k.index = g.size
    · rw [if_pos hk] at hget
      cases hget
      rw [hk]
      exact hvalues v hv
    · rw [if_neg hk] at hget
      exact hg.bounded k o hget v hv

/-- On the way from values that stand before an object, only objects before it are met. -/
theorem Layered.index_lt_of_reaches {limit bound : Nat} {g : ObjectGraph} (hg : g.Layered limit)
    {v w : Value} (hreach : g.Reaches v w) (hv : v.Bounded bound limit) :
    w.Bounded bound limit := by
  induction hreach with
  | self => exact hv
  | item hmem _ ih =>
    exact ih ⟨fun h hh => hv.handle h (.item hmem hh), fun xs hxs => hv.list xs (.item hmem hxs)⟩
  | field hget hmem _ ih =>
    refine ih ((hg.bounded _ _ hget _ hmem).mono ?_)
    exact Nat.le_of_lt (hv.handle _ (.self _))

/-- A layered graph has no cycles. -/
theorem Layered.not_onCycle {limit : Nat} {g : ObjectGraph} (hg : g.Layered limit) (h : Handle) :
    ¬ g.OnCycle h := by
  rintro ⟨o, hget, v, hv, hreach⟩
  have hbound := hg.index_lt_of_reaches hreach (hg.bounded h o hget v hv)
  exact absurd (hbound.handle h (.self _)) (Nat.lt_irrefl _)

end ObjectGraph

/-- What holds between the steps of a decoding: the graph is layered, and every number names an
object of it. -/
structure Decoding.Sound (limit : Nat) (s : Decoding) : Prop where
  layered : s.graph.Layered limit
  numbered : ∀ h ∈ s.numbered, h.index < s.graph.size

/-- The objects that are there and the bytes that are left. -/
def Decoding.extent (s : Decoding) : Nat :=
  s.graph.size + s.reader.remaining

/-- What reading a value leads to: the state is sound, objects were only added, for bytes that were
read, the reader has only moved forward, and the value names objects that are there. -/
structure Decoding.Keeps (limit : Nat) (s : Decoding) (v : Value) (t : Decoding) : Prop where
  sound : t.Sound limit
  size_le : s.graph.size ≤ t.graph.size
  extent_le : t.extent ≤ s.extent
  advances : s.reader.Advances t.reader
  bounded : v.Bounded t.graph.size limit

namespace Decoder

variable {d : Decoder} {limit : Nat} {s t : Decoding} {declared : ValueType} {v : Value}

/-- Reading several values keeps what reading each of them keeps. -/
theorem each_keeps {item : ValueType → Decode Value}
    (hitem : ∀ declared s v t, item declared s = .ok v t → s.Sound limit → s.Keeps limit v t)
    {declareds : List ValueType} {values : List Value}
    (h : Step.each item declareds s = .ok values t) (hs : s.Sound limit) :
    t.Sound limit ∧ s.graph.size ≤ t.graph.size ∧ t.extent ≤ s.extent ∧
      s.reader.Advances t.reader ∧ ∀ v ∈ values, v.Bounded t.graph.size limit := by
  induction declareds generalizing s values with
  | nil =>
    obtain ⟨rfl, rfl⟩ := Step.each_nil_eq_ok_iff.mp h
    exact ⟨hs, Nat.le_refl _, Nat.le_refl _, .refl _, by simp⟩
  | cons declared rest ih =>
    obtain ⟨v, u, vs, hv, hvs, rfl⟩ := Step.each_cons_eq_ok_iff.mp h
    have hfirst := hitem _ _ _ _ hv hs
    obtain ⟨ht, hsize, hextent, hreader, hrest⟩ := ih hvs hfirst.sound
    refine ⟨ht, Nat.le_trans hfirst.size_le hsize, Nat.le_trans hextent hfirst.extent_le,
      hfirst.advances.trans hreader, ?_⟩
    intro w hw
    rcases List.mem_cons.mp hw with rfl | hw
    · exact hfirst.bounded.mono hsize
    · exact hrest w hw

theorem advances_of_number {width n : Nat} {r after : Reader}
    (h : Read.number width r = .ok n after) : r.Advances after :=
  (Read.takes_number width).advances h

/-- Where the reader alone moves, and moves forward, the extent does not grow. -/
theorem extent_le_of_advances (hgraph : t.graph = s.graph) (hreader : s.reader.Advances t.reader) :
    t.extent ≤ s.extent := by
  unfold Decoding.extent
  rw [hgraph]
  exact Nat.add_le_add_left hreader.remaining_le _

theorem readType_keeps {type : RuntimeType} (h : d.readType declared s = .ok type t)
    (hs : s.Sound limit) :
    t.Sound limit ∧ t.graph = s.graph ∧ s.reader.Advances t.reader := by
  obtain ⟨index, r, hindex, -, -, rfl⟩ := readType_eq_ok_iff.mp h
  exact ⟨⟨hs.layered, hs.numbered⟩, rfl, advances_of_number hindex⟩

theorem readConstant_keeps {slot : ValueType → Decode Value}
    (h : d.readConstant slot declared s = .ok v t) (hs : s.Sound limit) : s.Keeps limit v t := by
  obtain ⟨type, u, htype, -, hordinal⟩ := readConstant_eq_ok_iff.mp h
  obtain ⟨hu, hgraph, hreader⟩ := readType_keeps htype hs
  obtain ⟨ordinal, r, c, hnumber, -, -, -, rfl, rfl⟩ := readOrdinal_eq_ok_iff.mp hordinal
  have hadvances := hreader.trans (advances_of_number hnumber)
  exact ⟨⟨hu.layered, hu.numbered⟩, Nat.le_of_eq (by rw [hgraph]),
    extent_le_of_advances hgraph hadvances, hadvances, Value.bounded_constant c⟩

theorem readObject_keeps {slot : ValueType → Decode Value}
    (hslot : ∀ declared s v t, slot declared s = .ok v t → s.Sound limit → s.Keeps limit v t)
    (h : d.readObject slot declared s = .ok v t) (hs : s.Sound limit) : s.Keeps limit v t := by
  obtain ⟨type, u, htype, -, hslots⟩ := readObject_eq_ok_iff.mp h
  obtain ⟨hu, hgraph, hreader⟩ := readType_keeps htype hs
  obtain ⟨r, values, w, k, hcount, hvalues, hnew, rfl⟩ := readSlots_eq_ok_iff.mp hslots
  obtain ⟨hw, hsize, hextent, hreader', hbounded⟩ :=
    each_keeps hslot hvalues ⟨hu.layered, hu.numbered⟩
  obtain ⟨graph, hgraph', rfl⟩ := Decode.instantiate_eq_ok_iff.mp hnew
  have hlayered := hw.layered.instantiate hbounded hgraph'
  obtain ⟨-, -, -, -, rfl, rfl⟩ := ObjectGraph.instantiate_eq_ok_iff.mp hgraph'
  have hgrown : w.graph.size < (ObjectGraph.mk (w.graph.objects.push ⟨type, values⟩)).size := by
    simp [ObjectGraph.size]
  refine ⟨⟨hlayered, fun k hk => Nat.lt_trans (hw.numbered k hk) hgrown⟩, ?_, ?_, ?_,
    Value.bounded_object hgrown⟩
  · rw [← hgraph]
    exact Nat.le_trans hsize (Nat.le_of_lt hgrown)
  · -- the count of the slots takes four bytes, more than the one that the object makes up for
    have hbytes : r.remaining + 4 = u.reader.remaining := Read.remaining_of_number hcount
    have hbehind : u.reader.remaining ≤ s.reader.remaining := hreader.remaining_le
    have hpaid : w.graph.size + w.reader.remaining ≤ s.graph.size + r.remaining := hgraph ▸ hextent
    show (w.graph.objects.push ⟨type, values⟩).size + w.reader.remaining ≤
      s.graph.size + s.reader.remaining
    rw [Array.size_push, ← ObjectGraph.size]
    omega
  · exact hreader.trans ((advances_of_number hcount).trans hreader')

theorem readList_keeps {item : ValueType → Decode Value}
    (hitem : ∀ declared s v t, item declared s = .ok v t →
      s.Sound d.settings.maxListLength → s.Keeps d.settings.maxListLength v t)
    (h : d.readList item declared s = .ok v t) (hs : s.Sound d.settings.maxListLength) :
    s.Keeps d.settings.maxListLength v t := by
  obtain ⟨element, count, r, items, -, hcount, hle, hitems, rfl⟩ := readList_eq_ok_iff.mp h
  obtain ⟨ht, hsize, hextent, hreader, hbounded⟩ :=
    each_keeps hitem hitems ⟨hs.layered, hs.numbered⟩
  have hadvances : s.reader.Advances r := (Read.takes_length 1).advances hcount
  have hlength : items.length = count := by
    rw [Step.length_of_each hitems, List.length_replicate]
  exact ⟨ht, hsize, Nat.le_trans hextent (extent_le_of_advances rfl hadvances),
    hadvances.trans hreader, Value.bounded_list (hlength ▸ hle) hbounded⟩

/-- Reading a value keeps the decoding sound, whatever the payload, the types and the declared type
are. -/
theorem readValue_keeps {room : Nat} (h : d.readValue room declared s = .ok v t)
    (hs : s.Sound d.settings.maxListLength) : s.Keeps d.settings.maxListLength v t := by
  induction room generalizing declared s v t with
  | zero => exact absurd h Step.throw_ne_ok
  | succ room ih =>
    have hitem : ∀ declared s v t, d.readValue room declared s = .ok v t →
        s.Sound d.settings.maxListLength → s.Keeps d.settings.maxListLength v t :=
      fun _ _ _ _ => ih
    obtain ⟨tag, u, htag, hbody⟩ := readValue_succ_eq_ok_iff.mp h
    obtain ⟨code, r, hbyte, -, rfl⟩ := Decode.tag_eq_ok_iff.mp htag
    have hreader : s.reader.Advances r := Read.takes_byte.advances hbyte
    have hu : Decoding.Sound d.settings.maxListLength { s with reader := r } :=
      ⟨hs.layered, hs.numbered⟩
    -- what follows the tag starts behind it, with the same graph
    suffices hkeeps : Decoding.Keeps d.settings.maxListLength { s with reader := r } v t from
      ⟨hkeeps.sound, hkeeps.size_le,
        Nat.le_trans hkeeps.extent_le (extent_le_of_advances rfl hreader),
        hreader.trans hkeeps.advances, hkeeps.bounded⟩
    cases tag with
    | null =>
      obtain ⟨rfl, rfl⟩ := hbody
      exact ⟨hu, Nat.le_refl _, Nat.le_refl _, .refl _, Value.bounded_null⟩
    | primitive kind =>
      obtain ⟨p, hp, rfl⟩ := hbody
      obtain ⟨r', hread, rfl⟩ := Decode.read_eq_ok_iff.mp hp
      have hadvances : r.Advances r' := (Primitive.takes_read kind).advances hread
      exact ⟨⟨hs.layered, hs.numbered⟩, Nat.le_refl _, extent_le_of_advances rfl hadvances,
        hadvances, Value.bounded_primitive p⟩
    | list => exact readList_keeps hitem hbody hu
    | constant => exact readConstant_keeps hbody hu
    | object =>
      obtain ⟨k, w, hobject, rfl, rfl⟩ := numbering_readObject_eq_ok_iff.mp hbody
      have hkeeps := readObject_keeps hitem hobject hu
      refine ⟨⟨hkeeps.sound.layered, fun h hh => ?_⟩, hkeeps.size_le, hkeeps.extent_le,
        hkeeps.advances, hkeeps.bounded⟩
      rcases Array.mem_push.mp hh with hold | rfl
      · exact hkeeps.sound.numbered h hold
      · exact hkeeps.bounded.handle _ (.self _)
    | inlineObject => exact readObject_keeps hitem hbody hu
    | backReference =>
      obtain ⟨k, hk, rfl⟩ := hbody
      obtain ⟨id, r', hid, hget, rfl⟩ := Decode.referent_eq_ok_iff.mp hk
      have hmem : k ∈ s.numbered := Array.mem_of_getElem? hget
      exact ⟨⟨hs.layered, hs.numbered⟩, Nat.le_refl _,
        extent_le_of_advances rfl (advances_of_number hid), advances_of_number hid,
        Value.bounded_object (hs.numbered k hmem)⟩

theorem sound_start (limit : Nat) (payload : List UInt8) (codecs : CodecCache) :
    Decoding.Sound limit ⟨Progress.start payload, codecs⟩ :=
  ⟨ObjectGraph.layered_empty limit, by simp [Progress.start]⟩

end Decoder

end ObjectEnvelope
