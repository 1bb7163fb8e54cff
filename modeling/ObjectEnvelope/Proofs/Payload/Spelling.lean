import ObjectEnvelope.Proofs.Envelope.Describing
import ObjectEnvelope.Proofs.Payload.EncoderWalk
import ObjectEnvelope.Proofs.Schema.Collisions

/-!
# What a payload spells

The format of payloads as a relation between values and bytes (`ObjectGraph.Spells`), which leaves
open where types are placed. Whatever is encoded is spelled with the places that types have in the
schema in the end (`writeValue_spells`), and unless two types share a digest without being alike,
the entry at the place of a type describes it (`Encoder.Placed.places`).
-/

namespace ObjectEnvelope

/-- The entry at a place of the schema describes the descriptor of the type. -/
def Envelope.Places (e : Envelope) (type : RuntimeType) (index : Nat) : Prop :=
  index < 2 ^ 32 ∧ ∃ entry, e.schema[index]? = some entry ∧
    SchemaEntry.Describes e.schema entry type.descriptor

namespace ObjectGraph

/-- The bytes spell the values, one after the other, when the objects in `written` have numbers. The
objects with numbers after them are those in the last list. A type is spelled by a number that
`placed` gives it. -/
inductive Spells (g : ObjectGraph) (inline : String → Bool) (placed : RuntimeType → Nat → Prop) :
    (written : List Handle) → List Value → List UInt8 → List Handle → Prop
  | nil {written : List Handle} : Spells g inline placed written [] [] written
  | null {written after : List Handle} {rest : List Value} {back : List UInt8}
      (hrest : Spells g inline placed written rest back after) :
      Spells g inline placed written (.null :: rest) (Tag.null.code :: back) after
  | primitive {written after : List Handle} {p : Primitive} {rest : List Value}
      {body back : List UInt8} (hbody : p.encode = .ok body)
      (hrest : Spells g inline placed written rest back after) :
      Spells g inline placed written (.primitive p :: rest)
        ((Tag.primitive p.kind).code :: body ++ back) after
  | list {written between after : List Handle} {items rest : List Value} {front back : List UInt8}
      (hlength : items.length < 2 ^ 32)
      (hitems : Spells g inline placed written items front between)
      (hrest : Spells g inline placed between rest back after) :
      Spells g inline placed written (.list items :: rest)
        (Tag.list.code :: (LittleEndian.ofNat 4 items.length ++ front) ++ back) after
  | constant {written after : List Handle} {c : Constant} {index : Nat} {rest : List Value}
      {back : List UInt8} (hplace : placed c.type index)
      (hrest : Spells g inline placed written rest back after) :
      Spells g inline placed written (.constant c :: rest)
        (Tag.constant.code :: (LittleEndian.ofNat 4 index ++ LittleEndian.ofNat 4 c.ordinal) ++
          back) after
  | again {written after : List Handle} {h : Handle} {id : Nat} {rest : List Value}
      {back : List UInt8} (hid : written[id]? = some h)
      (hrest : Spells g inline placed written rest back after) :
      Spells g inline placed written (.object h :: rest)
        (Tag.backReference.code :: LittleEndian.ofNat 4 id ++ back) after
  | enter {written between after : List Handle} {h : Handle} {o : Instance} {index : Nat}
      {rest : List Value} {front back : List UInt8} (hnew : h ∉ written) (hget : g.get? h = some o)
      (hplace : placed o.type index)
      (hfields : Spells g inline placed written o.fields front between)
      (hrest : Spells g inline placed (completing inline o h between) rest back after) :
      Spells g inline placed written (.object h :: rest)
        ((if inline o.type.name then Tag.inlineObject else Tag.object).code ::
          (LittleEndian.ofNat 4 index ++ LittleEndian.ofNat 4 o.type.slots.length ++ front) ++ back)
        after

variable {g : ObjectGraph} {inline : String → Bool} {placed placed' : RuntimeType → Nat → Prop}
  {written between after : List Handle} {values rest : List Value} {front back : List UInt8}

/-- What is spelled one after the other is spelled together. -/
theorem Spells.append (h : g.Spells inline placed written values front between)
    (hrest : g.Spells inline placed between rest back after) :
    g.Spells inline placed written (values ++ rest) (front ++ back) after := by
  induction h with
  | nil => exact hrest
  | null _ ih => exact .null (ih hrest)
  | primitive hbody _ ih =>
    rw [List.cons_append, List.append_assoc]
    exact .primitive hbody (ih hrest)
  | list hlength hitems _ _ ih =>
    rw [List.cons_append, List.append_assoc]
    exact .list hlength hitems (ih hrest)
  | constant hplace _ ih =>
    rw [List.cons_append, List.append_assoc]
    exact .constant hplace (ih hrest)
  | again hid _ ih =>
    rw [List.cons_append, List.append_assoc]
    exact .again hid (ih hrest)
  | enter hnew hget hplace hfields _ _ ih =>
    rw [List.cons_append, List.append_assoc]
    exact .enter hnew hget hplace hfields (ih hrest)

theorem Spells.mono (himp : ∀ type index, placed type index → placed' type index)
    (h : g.Spells inline placed written values front after) :
    g.Spells inline placed' written values front after := by
  induction h with
  | nil => exact .nil
  | null _ ih => exact .null ih
  | primitive hbody _ ih => exact .primitive hbody ih
  | list hlength _ _ ihitems ih => exact .list hlength ihitems ih
  | constant hplace _ ih => exact .constant (himp _ _ hplace) ih
  | again hid _ ih => exact .again hid ih
  | enter hnew hget hplace _ _ ihfields ih => exact .enter hnew hget (himp _ _ hplace) ihfields ih

/-! ## Places of the types that are met -/

/-- Every type that is met on the way from spelled values has a place, if those below the complete
objects have. -/
theorem Spells.exists_place (h : g.Spells inline placed written values front after)
    (hwritten : ∀ k ∈ written, ∀ type, g.Uses (.object k) type → ∃ index, placed type index) :
    (∀ v ∈ values, ∀ type, g.Uses v type → ∃ index, placed type index) ∧
      ∀ k ∈ after, ∀ type, g.Uses (.object k) type → ∃ index, placed type index := by
  induction h with
  | nil => exact ⟨nofun, hwritten⟩
  | null _ ih =>
    obtain ⟨hrest, hafter⟩ := ih hwritten
    exact ⟨List.forall_mem_cons.mpr ⟨fun _ htype => absurd htype not_uses_null, hrest⟩, hafter⟩
  | primitive _ _ ih =>
    obtain ⟨hrest, hafter⟩ := ih hwritten
    exact ⟨List.forall_mem_cons.mpr ⟨fun _ htype => absurd htype not_uses_primitive, hrest⟩, hafter⟩
  | list _ _ _ ihitems ih =>
    obtain ⟨hitems, hbetween⟩ := ihitems hwritten
    obtain ⟨hrest, hafter⟩ := ih hbetween
    refine ⟨List.forall_mem_cons.mpr ⟨fun type htype => ?_, hrest⟩, hafter⟩
    obtain ⟨v, hv, htype⟩ := uses_list_iff.mp htype
    exact hitems v hv type htype
  | constant hplace _ ih =>
    obtain ⟨hrest, hafter⟩ := ih hwritten
    refine ⟨List.forall_mem_cons.mpr ⟨fun type htype => ?_, hrest⟩, hafter⟩
    rw [uses_constant_iff.mp htype]
    exact ⟨_, hplace⟩
  | again hid _ ih =>
    obtain ⟨hrest, hafter⟩ := ih hwritten
    exact ⟨List.forall_mem_cons.mpr ⟨hwritten _ (List.mem_of_getElem? hid), hrest⟩, hafter⟩
  | @enter _ _ _ h o _ _ _ _ _ hget hplace _ _ ihfields ih =>
    obtain ⟨hfields, hbetween⟩ := ihfields hwritten
    have hobject : ∀ type, g.Uses (.object h) type → ∃ index, placed type index := by
      intro type htype
      rcases (uses_object_iff hget).mp htype with rfl | ⟨v, hv, htype⟩
      · exact ⟨_, hplace⟩
      · exact hfields v hv type htype
    obtain ⟨hrest, hafter⟩ := ih fun k hk =>
      (mem_completing hk).elim (hbetween k) fun hself => hself ▸ hobject
    exact ⟨List.forall_mem_cons.mpr ⟨hobject, hrest⟩, hafter⟩

end ObjectGraph

/-! ## Places in a schema -/

namespace SchemaTable

variable {locals : LocalTypes} {used : RuntimeType → Prop} {table : SchemaTable} {d e : Descriptor}

/-- Descriptors that were collected are alike as soon as their digests agree. -/
theorem alike_of_collects (hds : CollisionFree {d | locals.Collects used d})
    (hd : locals.Collects used d) (he : locals.Collects used e) (hdigest : d.digest = e.digest) :
    d.Alike e := by
  have hcovered : ∀ {c : Descriptor}, locals.Collects used c →
      c.Covered {d | locals.Collects used d} := by
    rintro c ⟨t, ht, hdescribes⟩ b hb
    exact ⟨t, ht, hdescribes.of_mem_lineage hb⟩
  exact Descriptor.Covered.alike hds (hcovered hd) (hcovered he) hdigest

/-- The entry of a descriptor describes whatever is like the descriptor. The induction is on the
chain of supertypes. -/
theorem Sound.describes (h : table.Sound locals used)
    (hds : CollisionFree {d | locals.Collects used d}) (he : e ∈ table.descriptors)
    (halike : e.Alike d) : SchemaEntry.Describes table.entries (.ofDescriptor e) d := by
  obtain ⟨bottom, above, hsealed⟩ := d
  induction above generalizing bottom e with
  | nil =>
    have hnone : e.parent? = none := by
      rw [Descriptor.parent?_eq_none_iff, ← List.length_eq_zero_iff]
      exact halike.above.length_eq
    refine .top ((SchemaEntry.Outlines.ofDescriptor e).of_alike halike) ?_ rfl
    rw [SchemaEntry.ofDescriptor, hnone]
    rfl
  | cons next above ih =>
    have hd : Descriptor.parent? ⟨bottom, next :: above, hsealed⟩ =
        some ⟨next, above, hsealed.2.2.2⟩ := rfl
    obtain ⟨p, hp, hlike⟩ := halike.symm.exists_parent? hd
    obtain ⟨c, hc, hname, hdigest⟩ := h.parents e he p hp
    have hcollected : locals.Collects used p := by
      obtain ⟨t, ht, hdescribes⟩ := h.needed e he
      exact ⟨t, ht, hdescribes.parent hp⟩
    have hcp : c.Alike p := alike_of_collects hds (h.needed c hc) hcollected hdigest
    refine .under ((SchemaEntry.Outlines.ofDescriptor e).of_alike halike) ?_ hd
      (List.mem_map_of_mem hc) (ih hc next hsealed.2.2.2 (hcp.trans hlike.symm))
    rw [SchemaEntry.ofDescriptor, hp, Option.map_some, ← hlike.name]

end SchemaTable

namespace Encoder

variable {e : Encoder} {root : Value} {s t u : Encoding} {room depth : Nat} {path : List Handle}
  {final : SchemaTable}

/-- The number is the place of the name of a type that the root uses and that was described. -/
def Placed (e : Encoder) (root : Value) (table : SchemaTable) (type : RuntimeType) (index : Nat) :
    Prop :=
  e.graph.Uses root type ∧ type.digest ∈ table.described ∧ table.index? type.name = some index

/-- Where no two types share a digest without being alike, the entry at the place of a type
describes it. -/
theorem Placed.places (hsound : final.Sound e.locals (e.graph.Uses root))
    (hused : ToldApart (e.graph.Uses root))
    (hds : CollisionFree {d | e.locals.Collects (e.graph.Uses root) d}) {envelope : Envelope}
    (hschema : envelope.schema = final.entries) {type : RuntimeType} {index : Nat}
    (h : e.Placed root final type index) : envelope.Places type index := by
  obtain ⟨htype, hmem, hindex⟩ := h
  obtain ⟨hlt, hname, -⟩ := List.findIdx?_eq_some_iff_getElem.mp hindex
  have hself : e.locals.Describes type type.descriptor := .lineage List.mem_cons_self
  obtain ⟨c, hc, hcname, hdigest⟩ := hsound.held hused htype hmem hself
  have hplace : final.descriptors[index] = c :=
    List.inj_on_of_nodup_map hsound.names (List.getElem_mem hlt) hc
      ((beq_iff_eq.mp hname).trans hcname.symm)
  have halike : c.Alike type.descriptor :=
    SchemaTable.alike_of_collects hds (hsound.needed c hc) ⟨type, htype, hself⟩ hdigest
  refine ⟨Nat.lt_of_lt_of_le hlt hsound.length_le, .ofDescriptor c, ?_, ?_⟩
  · rw [hschema, SchemaTable.entries, List.getElem?_map, List.getElem?_eq_getElem hlt, hplace]
    rfl
  · rw [hschema]
    exact hsound.describes hds hc halike

theorem Placed.of_grows {type : RuntimeType} {schema : SchemaTable} {index : Nat}
    (htype : e.graph.Uses root type) (hmem : type.digest ∈ schema.described)
    (hindex : schema.index? type.name = some index) (hgrows : schema.Grows final) :
    e.Placed root final type index :=
  ⟨htype, hgrows.described _ hmem, (SchemaTable.index?_of_prefix hgrows.descriptors hindex).1⟩

/-- Writing values follows them, and spells them with the places that types have in the schema in
the end. -/
structure Renders (e : Encoder) (root : Value) (final : SchemaTable) (depth : Nat) (s : Encoding)
    (values : List Value) (bytes : List UInt8) (t : Encoding) : Prop where
  follows : e.Follows root depth s values t
  spells : t.schema.Grows final → e.graph.Spells e.settings.isInline (e.Placed root final)
    s.numbered.toList values bytes t.numbered.toList

theorem Renders.append {values rest : List Value} {front back : List UInt8}
    (h : e.Renders root final depth s values front t)
    (hrest : e.Renders root final depth t rest back u) :
    e.Renders root final depth s (values ++ rest) (front ++ back) u := by
  refine ⟨h.follows.append hrest.follows, fun hgrows => ?_⟩
  exact (h.spells (hrest.follows.grows.trans hgrows)).append (hrest.spells hgrows)

/-- Writing several values renders them if writing each of them does. -/
theorem each_renders {item : ValueType × Value → Encode (List UInt8)}
    {typed : List (ValueType × Value)} {chunks : List (List UInt8)}
    (hitem : ∀ p ∈ typed, ∀ s bytes t, item p s = .ok bytes t → e.Consistent root s →
      e.Renders root final depth s [p.2] bytes t)
    (h : Step.each item typed s = .ok chunks t) (hs : e.Consistent root s) :
    e.Renders root final depth s (typed.map (·.2)) chunks.flatten t := by
  induction typed generalizing s chunks with
  | nil =>
    obtain ⟨rfl, rfl⟩ := Step.each_nil_eq_ok_iff.mp h
    exact ⟨.nil hs, fun _ => .nil⟩
  | cons p rest ih =>
    obtain ⟨bytes, u, others, hp, hrest, rfl⟩ := Step.each_cons_eq_ok_iff.mp h
    have hfirst := hitem p List.mem_cons_self s bytes u hp hs
    have hothers := ih (fun q hq => hitem q (List.mem_cons_of_mem _ hq)) hrest
      hfirst.follows.consistent
    exact hfirst.append hothers

/-- **Whatever is encoded is spelled**, with the places that types have in a later schema. The
induction is on the depth that is left. -/
theorem writeValue_spells (hgraph : e.graph.WellFormed) {declared : ValueType} {v : Value}
    {bytes : List UInt8} (hdepth : depth + room = e.settings.maxDepth + 1)
    (hreach : e.graph.Reaches root v) (h : e.writeValue room path declared v s = .ok bytes t)
    (hs : e.Consistent root s) (hgrows : t.schema.Grows final) :
    e.graph.Spells e.settings.isInline (e.Placed root final) s.numbered.toList [v] bytes
      t.numbered.toList := by
  induction room generalizing depth path declared v s t bytes with
  | zero => exact absurd h Step.throw_ne_ok
  | succ room ih =>
    have hbelow : depth + 1 + room = e.settings.maxDepth + 1 := by omega
    have hrenders : ∀ path declared v, e.graph.Reaches root v → ∀ s bytes t,
        e.writeValue room path declared v s = .ok bytes t → e.Consistent root s →
        e.Renders root final (depth + 1) s [v] bytes t := by
      intro path declared v hreach s bytes t hrun hs
      exact ⟨writeValue_follows hgraph hbelow hreach hrun hs, ih hbelow hreach hrun hs⟩
    cases v with
    | null =>
      obtain ⟨-, rfl, rfl⟩ := writeNull_eq_ok_iff.mp h
      exact .null .nil
    | primitive p =>
      obtain ⟨-, body, hbody, rfl, rfl⟩ := writePrimitive_eq_ok_iff.mp h
      rw [← List.append_nil (_ :: body)]
      exact .primitive hbody .nil
    | list items =>
      obtain ⟨element, chunks, -, hlength, hitems, rfl⟩ := writeList_eq_ok_iff.mp h
      have hitem := each_renders (fun p hp =>
        hrenders path p.1 p.2 (reaches_typedItems hreach p hp)) hitems hs
      rw [map_snd_typedItems] at hitem
      rw [← List.append_nil (Tag.list.code :: _)]
      exact .list hlength (hitem.spells hgrows) .nil
    | constant c =>
      rw [writeValue, writeConstant_eq_ok_iff c.kind_type] at h
      obtain ⟨schema, index, -, hschema, hindex, rfl, rfl⟩ := h
      have htype : e.graph.Uses root c.type := .constant hreach
      obtain ⟨-, -, hmem⟩ := hs.schema.describe htype hschema
      rw [← List.append_nil (Tag.constant.code :: _)]
      exact .constant (.of_grows htype hmem hindex hgrows) .nil
    | object k =>
      rw [writeValue] at h
      obtain ⟨o, schema, hget, -, hschema, hwrite⟩ := writeObject_cases hgraph h
      have htype : e.graph.Uses root o.type := .object hreach hget
      rw [← List.append_nil bytes]
      rcases hwrite with ⟨id, hid, rfl, rfl⟩ | ⟨hnew, hwrite⟩
      · exact .again (getElem?_of_idxOf? hid) .nil
      · obtain ⟨-, index, chunks, u, hindex, -, hfields, rfl, ht⟩ :=
          (writeNew_eq_ok_iff hget).mp hwrite
        obtain ⟨hannounced, -, hmem⟩ := hs.announce declared htype hschema
        have hfield := each_renders (fun p hp =>
          hrenders (k :: path) p.1 p.2 (reaches_typedFields hget hreach p hp)) hfields hannounced
        rw [map_snd_typedFields (hgraph.object k o hget).length_fields] at hfield
        rw [ht.schema_eq] at hgrows
        rw [ht.numbered_eq]
        refine .enter hnew hget ?_ (hfield.spells hgrows) .nil
        exact .of_grows htype hmem hindex (hfield.follows.grows.trans hgrows)

end Encoder

end ObjectEnvelope
