import ObjectEnvelope.Proofs.Graph.Walks
import ObjectEnvelope.Proofs.Payload.EncoderSteps
import ObjectEnvelope.Proofs.Payload.SchemaTables

/-!
# What a successful encoding shows

An encoding that succeeds has walked over the values (`ObjectGraph.Walk`) within the depth limit,
and whatever it met had an encoding: lengths that fit, and types that are described in the schema.
`Encoder.Follows` says so of a run, and `writeValue_follows` proves it by induction on the depth
that is left. What lies below a complete object is not walked over again, so it is part of the
invariant (`Encoder.Consistent`).
-/

namespace ObjectEnvelope

/-- The length of the value, if it is written with one, fits in four bytes. -/
def Value.LengthFits : Value → Prop
  | .primitive p => p.LengthFits
  | .list items => items.length < 2 ^ 32
  | .null | .constant _ | .object _ => True

/-- The value can be written when the schema is as it is: its length fits and its type is
described. -/
structure SchemaTable.Admits (table : SchemaTable) (g : ObjectGraph) (v : Value) : Prop where
  lengthFits : v.LengthFits
  object : ∀ h o, v = .object h → g.get? h = some o → o.type.digest ∈ table.described
  constant : ∀ c, v = .constant c → c.type.digest ∈ table.described

/-- Whatever is met on the way from the value can be written. -/
def SchemaTable.AdmitsBelow (table : SchemaTable) (g : ObjectGraph) (v : Value) : Prop :=
  ∀ w, g.Reaches v w → table.Admits g w

namespace SchemaTable

variable {table after : SchemaTable} {g : ObjectGraph} {v : Value}

theorem AdmitsBelow.mono (hgrows : table.Grows after) (h : table.AdmitsBelow g v) :
    after.AdmitsBelow g v := by
  intro w hw
  have hadmits := h w hw
  exact ⟨hadmits.lengthFits, fun k o hk hget => hgrows.described _ (hadmits.object k o hk hget),
    fun c hc => hgrows.described _ (hadmits.constant c hc)⟩

theorem admitsBelow_null : table.AdmitsBelow g .null := by
  intro w hw
  rw [ObjectGraph.reaches_null_iff.mp hw]
  exact ⟨trivial, nofun, nofun⟩

theorem admitsBelow_primitive {p : Primitive} (hp : p.LengthFits) :
    table.AdmitsBelow g (.primitive p) := by
  intro w hw
  rw [ObjectGraph.reaches_primitive_iff.mp hw]
  exact ⟨hp, nofun, nofun⟩

theorem admitsBelow_constant {c : Constant} (hc : c.type.digest ∈ table.described) :
    table.AdmitsBelow g (.constant c) := by
  intro w hw
  rw [ObjectGraph.reaches_constant_iff.mp hw]
  refine ⟨trivial, nofun, ?_⟩
  rintro _ ⟨rfl⟩
  exact hc

theorem admitsBelow_list {items : List Value} (hlength : items.length < 2 ^ 32)
    (hitems : ∀ v ∈ items, table.AdmitsBelow g v) : table.AdmitsBelow g (.list items) := by
  intro w hw
  rcases ObjectGraph.reaches_list_iff.mp hw with rfl | ⟨v, hv, hw⟩
  · exact ⟨hlength, nofun, nofun⟩
  · exact hitems v hv w hw

theorem admitsBelow_object {h : Handle} {o : Instance} (hget : g.get? h = some o)
    (htype : o.type.digest ∈ table.described)
    (hfields : ∀ v ∈ o.fields, table.AdmitsBelow g v) : table.AdmitsBelow g (.object h) := by
  intro w hw
  rcases (ObjectGraph.reaches_object_iff hget).mp hw with rfl | ⟨v, hv, hw⟩
  · refine ⟨trivial, ?_, nofun⟩
    rintro _ o' ⟨rfl⟩ hget'
    cases Option.some_inj.mp (hget.symm.trans hget')
    exact htype
  · exact hfields v hv w hw

end SchemaTable

namespace Encoder

variable {e : Encoder} {root : Value} {s t u : Encoding} {room depth : Nat} {path : List Handle}

/-- What holds between the steps of an encoding: the schema is sound for the types that the root
uses, and whatever lies below a complete object can be written. -/
structure Consistent (e : Encoder) (root : Value) (s : Encoding) : Prop where
  schema : s.schema.Sound e.locals (e.graph.Uses root)
  numbered : ∀ h ∈ s.numbered.toList, s.schema.AdmitsBelow e.graph (.object h)

theorem consistent_start (e : Encoder) (root : Value) (codecs : CodecCache) :
    e.Consistent root (Encoding.start codecs) :=
  ⟨SchemaTable.sound_empty _ _, by simp [Encoding.start]⟩

/-- A type that was announced is described. -/
theorem Consistent.announce (declared : ValueType) {type : RuntimeType} {schema : SchemaTable}
    (hs : e.Consistent root s) (hused : e.graph.Uses root type)
    (hschema : s.schema.describe e.locals type = .ok schema) :
    e.Consistent root (announced s type declared schema) ∧ s.schema.Grows schema ∧
      type.digest ∈ schema.described := by
  obtain ⟨hsound, hgrows, hmem⟩ := hs.schema.describe hused hschema
  exact ⟨⟨hsound, fun h hh => (hs.numbered h hh).mono hgrows⟩, hgrows, hmem⟩

/-- What writing values that lie at a depth leads to: a walk over them within the depth limit, and a
state in which whatever lies below them can be written. -/
structure Follows (e : Encoder) (root : Value) (depth : Nat) (s : Encoding)
    (values : List Value) (t : Encoding) : Prop where
  walk : ∃ ds, e.graph.Walk e.settings.isInline depth s.numbered.toList values ds
    t.numbered.toList ∧ ∀ d ∈ ds, d ≤ e.settings.maxDepth
  grows : s.schema.Grows t.schema
  consistent : e.Consistent root t
  admits : ∀ v ∈ values, t.schema.AdmitsBelow e.graph v

theorem Follows.nil (hs : e.Consistent root s) : e.Follows root depth s [] s :=
  ⟨⟨[], .nil, by simp⟩, .refl _, hs, by simp⟩

theorem Follows.append {values rest : List Value} (h : e.Follows root depth s values t)
    (hrest : e.Follows root depth t rest u) : e.Follows root depth s (values ++ rest) u := by
  obtain ⟨ds, hwalk, hds⟩ := h.walk
  obtain ⟨es, hwalk', hes⟩ := hrest.walk
  refine ⟨⟨ds ++ es, hwalk.append hwalk', ?_⟩, h.grows.trans hrest.grows, hrest.consistent, ?_⟩
  · simpa [or_imp, forall_and] using ⟨hds, hes⟩
  · intro v hv
    rcases List.mem_append.mp hv with hv | hv
    · exact (h.admits v hv).mono hrest.grows
    · exact hrest.admits v hv

theorem Follows.leaf {v : Value} (hv : v.IsLeaf) (hdepth : depth ≤ e.settings.maxDepth)
    (hnumbered : t.numbered = s.numbered) (hgrows : s.schema.Grows t.schema)
    (ht : e.Consistent root t) (hadmits : t.schema.AdmitsBelow e.graph v) :
    e.Follows root depth s [v] t := by
  refine ⟨⟨[depth], ?_, by simpa using hdepth⟩, hgrows, ht, by simpa using hadmits⟩
  rw [hnumbered]
  exact .leaf hv .nil

theorem Follows.again {h : Handle} (hdepth : depth ≤ e.settings.maxDepth)
    (hmem : h ∈ s.numbered.toList) (hnumbered : t.numbered = s.numbered)
    (hgrows : s.schema.Grows t.schema) (ht : e.Consistent root t) :
    e.Follows root depth s [.object h] t := by
  have hadmits := ht.numbered h (hnumbered ▸ hmem)
  refine ⟨⟨[depth], ?_, by simpa using hdepth⟩, hgrows, ht, by simpa using hadmits⟩
  rw [hnumbered]
  exact .again hmem .nil

theorem Follows.list {items : List Value} (hdepth : depth ≤ e.settings.maxDepth)
    (hlength : items.length < 2 ^ 32) (h : e.Follows root (depth + 1) s items t) :
    e.Follows root depth s [.list items] t := by
  obtain ⟨ds, hwalk, hds⟩ := h.walk
  refine ⟨⟨depth :: ds ++ [], .list hwalk .nil, ?_⟩, h.grows, h.consistent, ?_⟩
  · simpa using ⟨hdepth, hds⟩
  · simpa using SchemaTable.admitsBelow_list hlength h.admits

theorem Completes.schema_eq {o : Instance} {h : Handle} (ht : e.Completes o h u t) :
    t.schema = u.schema := by
  by_cases hinline : e.settings.isInline o.type.name = true
  · rw [(completes_of_inline hinline).mp ht]
  · obtain ⟨-, rfl⟩ := (completes_of_not_inline hinline).mp ht
    rfl

theorem Completes.numbered_eq {o : Instance} {h : Handle} (ht : e.Completes o h u t) :
    t.numbered.toList = ObjectGraph.completing e.settings.isInline o h u.numbered.toList := by
  unfold ObjectGraph.completing
  by_cases hinline : e.settings.isInline o.type.name = true
  · rw [if_pos hinline, (completes_of_inline hinline).mp ht]
  · obtain ⟨-, rfl⟩ := (completes_of_not_inline hinline).mp ht
    rw [if_neg hinline, Array.toList_push]

/-- A new object is walked into, and complete behind its fields. -/
theorem Follows.enter {h : Handle} {o : Instance} {schema : SchemaTable} {declared : ValueType}
    (hdepth : depth ≤ e.settings.maxDepth) (hnew : h ∉ s.numbered.toList)
    (hget : e.graph.get? h = some o) (hgrows : s.schema.Grows schema)
    (hmem : o.type.digest ∈ schema.described)
    (hfields : e.Follows root (depth + 1) (announced s o.type declared schema) o.fields u)
    (ht : e.Completes o h u t) : e.Follows root depth s [.object h] t := by
  have hschema := ht.schema_eq
  have hnumbered := ht.numbered_eq
  obtain ⟨ds, hwalk, hds⟩ := hfields.walk
  have hobject : t.schema.AdmitsBelow e.graph (.object h) := by
    rw [hschema]
    exact SchemaTable.admitsBelow_object hget (hfields.grows.described _ hmem) hfields.admits
  refine ⟨⟨depth :: ds ++ [], .enter hnew hget hwalk (hnumbered ▸ .nil), ?_⟩, ?_, ⟨?_, ?_⟩, ?_⟩
  · simpa using ⟨hdepth, hds⟩
  · rw [hschema]
    exact hgrows.trans hfields.grows
  · rw [hschema]
    exact hfields.consistent.schema
  · intro k hk
    rw [hnumbered] at hk
    rcases ObjectGraph.mem_completing hk with hk | rfl
    · rw [hschema]
      exact hfields.consistent.numbered k hk
    · exact hobject
  · simpa using hobject

/-- Writing several values follows them if writing each of them does. -/
theorem each_follows {item : ValueType × Value → Encode (List UInt8)}
    {typed : List (ValueType × Value)} {chunks : List (List UInt8)}
    (hitem : ∀ p ∈ typed, ∀ s bytes t, item p s = .ok bytes t → e.Consistent root s →
      e.Follows root depth s [p.2] t)
    (h : Step.each item typed s = .ok chunks t) (hs : e.Consistent root s) :
    e.Follows root depth s (typed.map (·.2)) t := by
  induction typed generalizing s chunks with
  | nil =>
    obtain ⟨-, rfl⟩ := Step.each_nil_eq_ok_iff.mp h
    exact .nil hs
  | cons p rest ih =>
    obtain ⟨bytes, u, others, hp, hrest, -⟩ := Step.each_cons_eq_ok_iff.mp h
    have hfirst := hitem p List.mem_cons_self s bytes u hp hs
    have hothers := ih (fun q hq => hitem q (List.mem_cons_of_mem _ hq)) hrest hfirst.consistent
    exact hfirst.append hothers

/-- An object stands at its number. -/
theorem getElem?_of_idxOf? {numbered : Array Handle} {h : Handle} {id : Nat}
    (hid : numbered.idxOf? h = some id) : numbered.toList[id]? = some h := by
  rw [Array.idxOf?_eq_map_finIdxOf?_val, Option.map_eq_some_iff] at hid
  obtain ⟨place, hplace, rfl⟩ := hid
  obtain ⟨hget, -⟩ := Array.finIdxOf?_eq_some_iff.mp hplace
  rw [Array.getElem?_toList, ← hget]
  exact Array.getElem?_eq_getElem place.isLt

/-- What leads to a list leads to its items. -/
theorem reaches_typedItems {element : ValueType} {items : List Value}
    (h : e.graph.Reaches root (.list items)) :
    ∀ p ∈ typedItems element items, e.graph.Reaches root p.2 := by
  intro p hp
  obtain ⟨v, hv, rfl⟩ := List.mem_map.mp hp
  exact h.trans (.item hv (.self v))

/-- What leads to an object leads to its fields. -/
theorem reaches_typedFields {h : Handle} {o : Instance} (hget : e.graph.get? h = some o)
    (hreach : e.graph.Reaches root (.object h)) :
    ∀ p ∈ typedFields o, e.graph.Reaches root p.2 := by
  intro p hp
  obtain ⟨q, hq, rfl⟩ := List.mem_map.mp hp
  exact hreach.trans (.field hget (List.of_mem_zip hq).2 (.self _))

/-- An object that is written has its type announced first. Then it is referred back to by its
number, or written anew if it has none. -/
theorem writeObject_cases (hgraph : e.graph.WellFormed)
    {slot : ValueType → Value → Encode (List UInt8)} {declared : ValueType} {k : Handle}
    {bytes : List UInt8} (h : e.writeObject slot path declared k s = .ok bytes t) :
    ∃ o schema, e.graph.get? k = some o ∧ o.type.accepts declared = true ∧
      s.schema.describe e.locals o.type = .ok schema ∧
      ((∃ id, s.numbered.idxOf? k = some id ∧ t = announced s o.type declared schema ∧
          bytes = Tag.backReference.code :: LittleEndian.ofNat 4 id) ∨
        (k ∉ s.numbered.toList ∧ e.writeNew slot path .slots o.type k
          (announced s o.type declared schema) = .ok bytes t)) := by
  cases hget : e.graph.get? k with
  | none => exact absurd h (writeObject_ne_ok hget)
  | some o =>
    rw [writeObject_eq_ok_iff hget (hgraph.object k o hget).composite] at h
    obtain ⟨schema, haccepts, hschema, hwrite⟩ := h
    refine ⟨o, schema, rfl, haccepts, hschema, ?_⟩
    cases hid : s.numbered.idxOf? k with
    | some id =>
      simp only [hid] at hwrite
      exact .inl ⟨id, rfl, hwrite⟩
    | none =>
      simp only [hid] at hwrite
      have hnew : k ∉ s.numbered.toList := by
        rw [Array.mem_toList_iff]
        exact Array.idxOf?_eq_none_iff.mp hid
      exact .inr ⟨hnew, hwrite⟩

/-- **A successful encoding has walked over its values.** The induction is on the depth that is
left; a value that is referred back to was walked over before. -/
theorem writeValue_follows (hgraph : e.graph.WellFormed) {declared : ValueType} {v : Value}
    {bytes : List UInt8} (hdepth : depth + room = e.settings.maxDepth + 1)
    (hreach : e.graph.Reaches root v) (h : e.writeValue room path declared v s = .ok bytes t)
    (hs : e.Consistent root s) : e.Follows root depth s [v] t := by
  induction room generalizing depth path declared v s t bytes with
  | zero => exact absurd h Step.throw_ne_ok
  | succ room ih =>
    have hle : depth ≤ e.settings.maxDepth := by omega
    have hbelow : depth + 1 + room = e.settings.maxDepth + 1 := by omega
    cases v with
    | null =>
      obtain ⟨-, -, rfl⟩ := writeNull_eq_ok_iff.mp h
      exact .leaf .null hle rfl (.refl _) hs SchemaTable.admitsBelow_null
    | primitive p =>
      obtain ⟨-, body, hbody, -, rfl⟩ := writePrimitive_eq_ok_iff.mp h
      exact .leaf (.primitive p) hle rfl (.refl _) hs
        (SchemaTable.admitsBelow_primitive (Primitive.exists_encode_iff.mp ⟨body, hbody⟩))
    | list items =>
      obtain ⟨element, chunks, -, hlength, hitems, -⟩ := writeList_eq_ok_iff.mp h
      have hfollows : e.Follows root (depth + 1) s ((typedItems element items).map (·.2)) t := by
        refine each_follows (fun p hp s' bytes' t' hrun hs' => ?_) hitems hs
        exact ih hbelow (reaches_typedItems hreach p hp) hrun hs'
      rw [map_snd_typedItems] at hfollows
      exact .list hle hlength hfollows
    | constant c =>
      rw [writeValue, writeConstant_eq_ok_iff c.kind_type] at h
      obtain ⟨schema, -, -, hschema, -, rfl, -⟩ := h
      obtain ⟨ht, hgrows, hmem⟩ := hs.announce declared (.constant hreach) hschema
      exact .leaf (.constant c) hle rfl hgrows ht (SchemaTable.admitsBelow_constant hmem)
    | object k =>
      rw [writeValue] at h
      obtain ⟨o, schema, hget, -, hschema, hwrite⟩ := writeObject_cases hgraph h
      obtain ⟨hannounced, hgrows, hmem⟩ := hs.announce declared (.object hreach hget) hschema
      rcases hwrite with ⟨id, hid, rfl, -⟩ | ⟨hnew, hwrite⟩
      · exact .again hle (List.mem_of_getElem? (getElem?_of_idxOf? hid)) rfl hgrows hannounced
      · obtain ⟨-, index, chunks, u, -, -, hfields, -, ht⟩ := (writeNew_eq_ok_iff hget).mp hwrite
        have hfollows : e.Follows root (depth + 1) (announced s o.type declared schema)
            ((typedFields o).map (·.2)) u := by
          refine each_follows (fun p hp s' bytes' t' hrun hs' => ?_) hfields hannounced
          exact ih hbelow (reaches_typedFields hget hreach p hp) hrun hs'
        rw [map_snd_typedFields (hgraph.object k o hget).length_fields] at hfollows
        exact .enter hle hnew hget hgrows hmem hfollows ht

end Encoder

end ObjectEnvelope
