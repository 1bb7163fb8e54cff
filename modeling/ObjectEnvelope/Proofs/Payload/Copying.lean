import ObjectEnvelope.Proofs.Graph.CoverSizes
import ObjectEnvelope.Proofs.Payload.EncoderWalk
import ObjectEnvelope.Proofs.Payload.Restoring

/-!
# Encoding and decoding

What an encoding writes for a value is restored by a decoding whose types are twins of those that
were written (`Decoder.Knows`). `writeValue_restores` proves it by induction on the depth that is
left to the encoding: the two recursions make the same steps, and number the same objects in the
same order.
-/

namespace ObjectEnvelope

open Decode (Restores)

/-- The decoding knows a twin of every type that the root uses, at the place of its name. -/
structure Decoder.Knows (d : Decoder) (e : Encoder) (root : Value) (table : SchemaTable) :
    Prop where
  types : ∀ t, e.graph.Uses root t → ∀ index, table.index? t.name = some index →
    ∃ u, d.types[index]? = some u ∧ t.Twin u
  capacity : table.descriptors.length ≤ SchemaTable.capacity

/-- Besides, the decoding takes every list that is met. -/
structure Decoder.Receives (d : Decoder) (e : Encoder) (root : Value) (table : SchemaTable) : Prop
    extends d.Knows e root table where
  short : ∀ items, e.graph.Reaches root (.list items) → items.length ≤ d.settings.maxListLength

/-- The length of a list that is met on the way from the value. -/
def ObjectGraph.ListLength (g : ObjectGraph) (v : Value) (length : Nat) : Prop :=
  ∃ items, g.Reaches v (.list items) ∧ items.length = length

/-- A place that was written is that of a twin. -/
theorem Decoder.Knows.exists_twin {d : Decoder} {e : Encoder} {root : Value}
    {table schema : SchemaTable} (hd : d.Knows e root table) {type : RuntimeType}
    (htype : e.graph.Uses root type) (hgrows : schema.descriptors <+: table.descriptors)
    {index : Nat} (hindex : schema.index? type.name = some index) :
    index < 2 ^ 32 ∧ ∃ u, d.types[index]? = some u ∧ type.Twin u := by
  obtain ⟨hplace, hlt⟩ := SchemaTable.index?_of_prefix hgrows hindex
  exact ⟨Nat.lt_of_lt_of_le hlt hd.capacity, hd.types type htype index hplace⟩

namespace Encoder

variable {e : Encoder} {d : Decoder} {root : Value} {table : SchemaTable} {s t u : Encoding}
  {room room' depth : Nat} {path made made' : List Handle} {values rest : List Value}

/-- Whether the object gets a number once it is complete. -/
def isNumbered (e : Encoder) (h : Handle) : Bool :=
  match e.graph.get? h with
  | some o => !e.settings.isInline o.type.name
  | none => true

/-- An object gets a number unless its type is inline. -/
theorem isNumbered_eq {h : Handle} {o : Instance} (hget : e.graph.get? h = some o) :
    e.isNumbered h = !e.settings.isInline o.type.name := by
  unfold isNumbered
  rw [hget]

theorem isNumbered_of_inlineTypes (h : e.settings.inlineTypes = []) (k : Handle) :
    e.isNumbered k = true := by
  unfold isNumbered
  cases e.graph.get? k with
  | none => rfl
  | some o => simp [Settings.isInline, h]

/-- Between the two states the objects in `made` were written anew, each on the way from the values,
and those of inline types once for each place; those that get numbers have them afterwards. -/
structure Makes (e : Encoder) (s : Encoding) (values : List Value) (made : List Handle)
    (t : Encoding) : Prop where
  numbered : t.numbered.toList = s.numbered.toList ++ made.filter e.isNumbered
  reached : ∀ h ∈ made, ∃ v ∈ values, e.graph.Reaches v (.object h)
  size_le : t.numbered.size ≤ Encoding.capacity
  places : (∀ k ∈ s.numbered.toList, e.isNumbered k = true) →
    e.graph.CountsPlaces e.settings.isInline values made

theorem Makes.none (hsize : s.numbered.size ≤ Encoding.capacity)
    (hnumbered : t.numbered = s.numbered)
    (hvalues : ∀ k ∈ Value.handlesOfAll values, k ∈ s.numbered.toList) :
    e.Makes s values [] t := by
  refine ⟨?_, by simp, hnumbered ▸ hsize, fun hs => ?_⟩
  · rw [hnumbered, List.filter_nil, List.append_nil]
  · refine ObjectGraph.countsPlaces_nil fun k hk o hget => ?_
    have hk := hs k (hvalues k hk)
    rwa [isNumbered_eq hget, Bool.not_eq_true'] at hk

theorem Makes.leaf (hsize : s.numbered.size ≤ Encoding.capacity)
    (hnumbered : t.numbered = s.numbered) (hvalues : Value.handlesOfAll values = []) :
    e.Makes s values [] t :=
  .none hsize hnumbered (by simp [hvalues])

/-- What has a number afterwards gets one. -/
theorem Makes.isNumbered (h : e.Makes s values made t)
    (hs : ∀ k ∈ s.numbered.toList, e.isNumbered k = true) :
    ∀ k ∈ t.numbered.toList, e.isNumbered k = true := by
  intro k hk
  rw [h.numbered] at hk
  rcases List.mem_append.mp hk with hk | hk
  · exact hs k hk
  · exact (List.mem_filter.mp hk).2

theorem Makes.append (h : e.Makes s values made t) (hrest : e.Makes t rest made' u) :
    e.Makes s (values ++ rest) (made ++ made') u := by
  refine ⟨?_, fun k hk => ?_, hrest.size_le,
    fun hs => (h.places hs).append (hrest.places (h.isNumbered hs))⟩
  · rw [hrest.numbered, h.numbered, List.filter_append, List.append_assoc]
  · rcases List.mem_append.mp hk with hk | hk
    · obtain ⟨v, hv, hreach⟩ := h.reached k hk
      exact ⟨v, List.mem_append.mpr (.inl hv), hreach⟩
    · obtain ⟨v, hv, hreach⟩ := hrest.reached k hk
      exact ⟨v, List.mem_append.mpr (.inr hv), hreach⟩

/-- What was made of a root is met on the way from it. -/
theorem Makes.reaches_root (h : e.Makes s [root] made t) :
    ∀ k ∈ made, e.graph.Reaches root (.object k) := by
  intro k hk
  obtain ⟨v, hv, hreach⟩ := h.reached k hk
  rwa [List.mem_singleton.mp hv] at hreach

theorem Makes.list {items : List Value} (h : e.Makes s items made t) :
    e.Makes s [.list items] made t := by
  refine ⟨h.numbered, fun k hk => ?_, h.size_le, fun hs => (h.places hs).list⟩
  obtain ⟨v, hv, hreach⟩ := h.reached k hk
  exact ⟨_, List.mem_singleton_self _, .item hv hreach⟩

/-- An object is made after what its fields need. -/
theorem Makes.enter {h : Handle} {o : Instance} (hget : e.graph.get? h = some o)
    (hfields : e.Makes s o.fields made u)
    (ht : e.Completes o h u t) :
    e.Makes s [.object h] (made ++ [h]) t := by
  have hreached : ∀ k ∈ made ++ [h], ∃ v ∈ [Value.object h], e.graph.Reaches v (.object k) := by
    intro k hk
    refine ⟨_, List.mem_singleton_self _, ?_⟩
    rcases List.mem_append.mp hk with hk | hk
    · obtain ⟨v, hv, hreach⟩ := hfields.reached k hk
      exact .field hget hv hreach
    · rw [List.mem_singleton.mp hk]
      exact .self _
  have hplaces := fun hs => (hfields.places hs).object hget
  have hnumbered := isNumbered_eq hget
  by_cases hinline : e.settings.isInline o.type.name = true
  · obtain rfl := (completes_of_inline hinline).mp ht
    refine ⟨?_, hreached, hfields.size_le, hplaces⟩
    rw [hfields.numbered, List.filter_append,
      List.filter_cons_of_neg (by simp [hnumbered, hinline])]
    simp
  · obtain ⟨hlt, rfl⟩ := (completes_of_not_inline hinline).mp ht
    refine ⟨?_, hreached, ?_, hplaces⟩
    · rw [Array.toList_push, hfields.numbered, List.filter_append,
        List.filter_cons_of_pos (by simp [hnumbered, hinline]), List.append_assoc]
      rfl
    · rw [Array.size_push]
      exact hlt

/-- Every value takes a byte or more. -/
theorem length_pos_of_writeValue {declared : ValueType} {v : Value} {bytes : List UInt8}
    (hgraph : e.graph.WellFormed) (h : e.writeValue room path declared v s = .ok bytes t) :
    0 < bytes.length := by
  cases room with
  | zero => exact absurd h Step.throw_ne_ok
  | succ room =>
    cases v with
    | null =>
      obtain ⟨-, rfl, -⟩ := writeNull_eq_ok_iff.mp h
      simp
    | primitive p =>
      obtain ⟨-, body, -, rfl, -⟩ := writePrimitive_eq_ok_iff.mp h
      simp
    | list items =>
      obtain ⟨element, chunks, -, -, -, rfl⟩ := writeList_eq_ok_iff.mp h
      simp
    | constant c =>
      rw [writeValue, writeConstant_eq_ok_iff c.kind_type] at h
      obtain ⟨schema, index, -, -, -, -, rfl⟩ := h
      simp
    | object k =>
      rw [writeValue] at h
      obtain ⟨o, schema, hget, -, -, ⟨id, -, -, rfl⟩ | ⟨-, hwrite⟩⟩ := writeObject_cases hgraph h
      · simp
      · obtain ⟨-, index, chunks, u, -, -, -, rfl, -⟩ := (writeNew_eq_ok_iff hget).mp hwrite
        simp

theorem length_le_of_writeEach {typed : List (ValueType × Value)} {chunks : List (List UInt8)}
    (hgraph : e.graph.WellFormed) (h : e.writeEach room path typed s = .ok chunks t) :
    typed.length ≤ chunks.flatten.length := by
  induction typed generalizing s chunks with
  | nil => exact Nat.zero_le _
  | cons p rest ih =>
    obtain ⟨bytes, u, others, hp, hrest, rfl⟩ := Step.each_cons_eq_ok_iff.mp h
    have hpos := length_pos_of_writeValue hgraph hp
    have hle := ih hrest
    rw [List.flatten_cons, List.length_append, List.length_cons]
    omega

/-- What was written for the values between the two states is restored by the step, and the objects
in `made` are copied with it, each of them from nine bytes or more: a tag, the place of a type and
the number of its slots. -/
structure Restored {α : Type} (e : Encoder) (limit : Nat) (root : Value) (s : Encoding)
    (values : List Value) (t : Encoding) (made : List Handle) (bytes : List UInt8)
    (copies : (Handle → Handle → Prop) → α → Prop) (step : Decode α) : Prop where
  makes : e.Makes s values made t
  length_le : 9 * made.length ≤ bytes.length
  restores : Restores limit (e.graph.ListLength root) e.graph s.numbered.toList
    t.numbered.toList made bytes copies step

variable {limit : Nat}

/-- What is restored hangs on the numbers of objects only. -/
theorem Restored.start {α : Type} {copies : (Handle → Handle → Prop) → α → Prop}
    {step : Decode α} {bytes : List UInt8}
    (h : e.Restored limit root s values t made bytes copies step)
    (hsame : s.numbered = u.numbered) :
    e.Restored limit root u values t made bytes copies step := by
  obtain ⟨⟨hnumbered, hreached, hsize, hplaces⟩, hlength, hrestores⟩ := h
  rw [hsame] at hnumbered hplaces hrestores
  exact ⟨⟨hnumbered, hreached, hsize, hplaces⟩, hlength, hrestores⟩

/-- Values are restored one after the other if each of them is. -/
theorem writeEach_restores (hgraph : e.graph.WellFormed)
    (hdepth : depth + room = e.settings.maxDepth + 1) {typed : List (ValueType × Value)}
    {chunks : List (List UInt8)} (hreach : ∀ p ∈ typed, e.graph.Reaches root p.2)
    (hitem : ∀ p ∈ typed, ∀ s bytes t, e.writeValue room path p.1 p.2 s = .ok bytes t →
      e.Consistent root s → s.numbered.size ≤ Encoding.capacity →
      t.schema.descriptors <+: table.descriptors →
      ∃ made, e.Restored limit root s [p.2] t made bytes (fun link => p.2.Copies link)
        (d.readValue room' p.1))
    (h : e.writeEach room path typed s = .ok chunks t) (hs : e.Consistent root s)
    (hsize : s.numbered.size ≤ Encoding.capacity)
    (htable : t.schema.descriptors <+: table.descriptors) :
    ∃ made, e.Restored limit root s (typed.map (·.2)) t made chunks.flatten
      (fun link => List.Forall₂ (Value.Copies link) (typed.map (·.2)))
      (Step.each (d.readValue room') (typed.map (·.1))) := by
  induction typed generalizing s chunks with
  | nil =>
    obtain ⟨rfl, rfl⟩ := Step.each_nil_eq_ok_iff.mp h
    exact ⟨[], .leaf hsize rfl rfl, Nat.zero_le _, Decode.restores_each_nil⟩
  | cons p rest ih =>
    obtain ⟨bytes, u, others, hp, hrest, rfl⟩ := Step.each_cons_eq_ok_iff.mp h
    obtain ⟨hpreach, hrestreach⟩ := List.forall_mem_cons.mp hreach
    have hu := (writeValue_follows hgraph hdepth hpreach hp hs).consistent
    have hfollows : e.Follows root depth u (rest.map (·.2)) t :=
      each_follows (fun q hq s' bytes' t' hrun hs' =>
        writeValue_follows hgraph hdepth (hrestreach q hq) hrun hs') hrest hu
    obtain ⟨made, hmakes, hlength, hrestores⟩ := hitem p List.mem_cons_self s bytes u hp hs hsize
      (hfollows.grows.descriptors.trans htable)
    obtain ⟨made', hmakes', hlength', hrestores'⟩ := ih hrestreach
      (fun q hq => hitem q (List.mem_cons_of_mem _ hq)) hrest hu hmakes.size_le
    refine ⟨made ++ made', hmakes.append hmakes', ?_, hrestores.each_cons hrestores'⟩
    rw [List.flatten_cons, List.length_append, List.length_append]
    omega

/-- A list is restored when its items are. -/
theorem Restored.list {element declared : ValueType} {items : List Value} {bytes : List UInt8}
    (helement : declared.element? = some element) (hlength : items.length < 2 ^ 32)
    (hreach : e.graph.Reaches root (.list items)) (hbytes : items.length ≤ bytes.length)
    (hitems : e.Restored d.settings.maxListLength root s ((typedItems element items).map (·.2)) t
      made bytes
      (fun link => List.Forall₂ (Value.Copies link) ((typedItems element items).map (·.2)))
      (Step.each (d.readValue room') ((typedItems element items).map (·.1)))) :
    e.Restored d.settings.maxListLength root s [.list items] t made
      (Tag.list.code :: (LittleEndian.ofNat 4 items.length ++ bytes))
      (fun link => (Value.list items).Copies link) (d.readValue (room' + 1) declared) := by
  obtain ⟨hmakes, hsize, hrestores⟩ := hitems
  rw [map_snd_typedItems] at hmakes hrestores
  rw [map_fst_typedItems] at hrestores
  refine ⟨hmakes.list, ?_, ?_⟩
  · rw [List.length_cons, List.length_append]
    omega
  · rw [Decoder.readValue]
    exact .tag .list (Decoder.restores_readList helement hlength ⟨items, hreach, rfl⟩ hbytes
      hrestores)

/-- What was written before is restored by its number. -/
theorem restored_again {declared : ValueType} {h : Handle} {id : Nat}
    (hid : s.numbered.idxOf? h = some id) (hsize : s.numbered.size ≤ Encoding.capacity)
    (hsame : t.numbered = s.numbered) :
    e.Restored limit root s [.object h] t [] (Tag.backReference.code :: LittleEndian.ofNat 4 id)
      (fun link => (Value.object h).Copies link) (d.readValue (room' + 1) declared) := by
  have hnumbered := getElem?_of_idxOf? hid
  have hlt : id < s.numbered.size := by
    obtain ⟨hlt, -⟩ := List.getElem?_eq_some_iff.mp hnumbered
    rwa [Array.length_toList] at hlt
  refine ⟨.none hsize hsame fun k hk => ?_, Nat.zero_le _, ?_⟩
  · obtain rfl : k = h := List.mem_singleton.mp hk
    exact List.mem_of_getElem? hnumbered
  · rw [Decoder.readValue, hsame]
    exact .tag .backReference
      (Decoder.restores_referent hnumbered (Nat.lt_of_lt_of_le hlt hsize))

/-- An object that was not written before is restored when its fields are. -/
theorem Restored.enter {declared : ValueType} {h : Handle} {o : Instance} {type : RuntimeType}
    {index : Nat} {bytes : List UInt8} (hget : e.graph.get? h = some o)
    (hobject : e.graph.FitsObject o) (haccepts : o.type.accepts declared = true)
    (hindex : index < 2 ^ 32) (htype : d.types[index]? = some type) (htwin : o.type.Twin type)
    (hfields : e.Restored limit root s ((typedFields o).map (·.2)) u made bytes
      (fun link => List.Forall₂ (Value.Copies link) ((typedFields o).map (·.2)))
      (Step.each (d.readValue room') ((typedFields o).map (·.1))))
    (ht : e.Completes o h u t) :
    e.Restored limit root s [.object h] t (made ++ [h])
      ((if e.settings.isInline o.type.name then Tag.inlineObject else Tag.object).code ::
        (LittleEndian.ofNat 4 index ++ LittleEndian.ofNat 4 o.type.slots.length ++ bytes))
      (fun link => (Value.object h).Copies link) (d.readValue (room' + 1) declared) := by
  obtain ⟨hmakes, hsize, hrestores⟩ := hfields
  rw [map_snd_typedFields hobject.length_fields] at hmakes hrestores
  rw [map_fst_typedFields hobject.length_fields, htwin.slots] at hrestores
  have hread := Decoder.restores_readObject hindex htype htwin haccepts hget hobject hrestores
  refine ⟨hmakes.enter hget ht, ?_, ?_⟩
  · simp only [List.length_cons, List.length_append, List.length_nil, LittleEndian.length_ofNat]
    omega
  · rw [Decoder.readValue, List.append_assoc]
    by_cases hinline : e.settings.isInline o.type.name = true
    · obtain rfl := (completes_of_inline hinline).mp ht
      rw [if_pos hinline]
      exact .tag .inlineObject hread
    · obtain ⟨-, rfl⟩ := (completes_of_not_inline hinline).mp ht
      rw [if_neg hinline, Array.toList_push]
      exact .tag .object (Decoder.restores_numbering hread)

/-- **What was written is restored.** The induction is on the depth that is left to the encoding;
the decoding has as much or more. -/
theorem writeValue_restores (hgraph : e.graph.WellFormed) (hd : d.Knows e root table)
    {declared : ValueType} {v : Value} {bytes : List UInt8} (hroom : room ≤ room')
    (hdepth : depth + room = e.settings.maxDepth + 1) (hreach : e.graph.Reaches root v)
    (h : e.writeValue room path declared v s = .ok bytes t) (hs : e.Consistent root s)
    (hsize : s.numbered.size ≤ Encoding.capacity)
    (htable : t.schema.descriptors <+: table.descriptors) :
    ∃ made, e.Restored d.settings.maxListLength root s [v] t made bytes
      (fun link => v.Copies link) (d.readValue room' declared) := by
  induction room generalizing room' depth path declared v s t bytes with
  | zero => exact absurd h Step.throw_ne_ok
  | succ room ih =>
    obtain ⟨room', rfl⟩ : ∃ r, room' = r + 1 := ⟨room' - 1, by omega⟩
    have hle : room ≤ room' := by omega
    have hbelow : depth + 1 + room = e.settings.maxDepth + 1 := by omega
    cases v with
    | null =>
      obtain ⟨-, rfl, rfl⟩ := writeNull_eq_ok_iff.mp h
      refine ⟨[], .leaf hsize rfl rfl, Nat.zero_le _, ?_⟩
      rw [Decoder.readValue]
      exact .tag .null (Decode.restores_pure fun _ => .null)
    | primitive p =>
      obtain ⟨-, body, hbody, rfl, rfl⟩ := writePrimitive_eq_ok_iff.mp h
      refine ⟨[], .leaf hsize rfl rfl, Nat.zero_le _, ?_⟩
      rw [Decoder.readValue, ← List.append_nil body]
      exact .tag (.primitive p.kind) (.read (Primitive.returns_read hbody)
        (Decode.restores_pure fun _ => .primitive p))
    | list items =>
      obtain ⟨element, chunks, helement, hlength, hitems, rfl⟩ := writeList_eq_ok_iff.mp h
      have hitemsreach : ∀ p ∈ typedItems element items, e.graph.Reaches root p.2 :=
        reaches_typedItems hreach
      have hbytes := length_le_of_writeEach hgraph hitems
      rw [typedItems, List.length_map] at hbytes
      obtain ⟨made, hrestored⟩ := writeEach_restores hgraph hbelow hitemsreach
        (fun p hp s' bytes' t' hrun hs' hsize' htable' =>
          ih hle hbelow (hitemsreach p hp) hrun hs' hsize' htable') hitems hs hsize htable
      exact ⟨made, hrestored.list helement hlength hreach hbytes⟩
    | constant c =>
      rw [writeValue, writeConstant_eq_ok_iff c.kind_type] at h
      obtain ⟨schema, index, haccepts, -, hindex, rfl, rfl⟩ := h
      obtain ⟨hlt, type, htype, htwin⟩ := hd.exists_twin (.constant hreach) htable hindex
      refine ⟨[], .leaf hsize rfl rfl, Nat.zero_le _, ?_⟩
      rw [Decoder.readValue]
      exact .tag .constant (Decoder.restores_readConstant hlt htype htwin haccepts)
    | object k =>
      rw [writeValue] at h
      obtain ⟨o, schema, hget, haccepts, hschema, hwrite⟩ := writeObject_cases hgraph h
      rcases hwrite with ⟨id, hid, rfl, rfl⟩ | ⟨-, hwrite⟩
      · exact ⟨[], restored_again hid hsize rfl⟩
      · obtain ⟨-, index, chunks, u, hindex, -, hfields, rfl, ht⟩ :=
          (writeNew_eq_ok_iff hget).mp hwrite
        obtain ⟨hannounced, -⟩ := hs.announce declared (.object hreach hget) hschema
        rw [ht.schema_eq] at htable
        have hfieldsreach := reaches_typedFields hget hreach
        have hfollows : e.Follows root (depth + 1) (announced s o.type declared schema)
            ((typedFields o).map (·.2)) u :=
          each_follows (fun p hp s' bytes' t' hrun hs' =>
            writeValue_follows hgraph hbelow (hfieldsreach p hp) hrun hs') hfields hannounced
        obtain ⟨hlt, type, htype, htwin⟩ := hd.exists_twin (.object hreach hget)
          (hfollows.grows.descriptors.trans htable) hindex
        obtain ⟨made, hrestored⟩ := writeEach_restores hgraph hbelow hfieldsreach
          (fun p hp s' bytes' t' hrun hs' hsize' htable' =>
            ih hle hbelow (hfieldsreach p hp) hrun hs' hsize' htable') hfields hannounced hsize
          htable
        exact ⟨made ++ [k], .enter hget (hgraph.object k o hget) haccepts hlt htype htwin
          (hrestored.start rfl) ht⟩

end Encoder

end ObjectEnvelope
