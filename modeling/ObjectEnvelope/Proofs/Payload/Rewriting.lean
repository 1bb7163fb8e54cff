import ObjectEnvelope.Proofs.Payload.Copying

/-!
# Writing a copy

An encoder writes a copy of a value as another wrote the value itself, byte by byte, when the two
graphs are linked (`Encoder.Rewrites`): linked objects are copies of each other, what has a number
has one copy, and types of one digest bring along descriptors that match. Then the two runs go
through states that match, with the same objects numbered and the same names described in the same
order (`writeValue_rewrites`).
-/

namespace ObjectEnvelope

/-! ## Schema tables -/

namespace SchemaTable

variable {rel : Descriptor → Descriptor → Prop} {table table' after : SchemaTable}
  {d d' : Descriptor} {ds ds' : List Descriptor}

/-- The tables were asked for types of the same digests, and hold related descriptors at the same
places. -/
structure Matches (rel : Descriptor → Descriptor → Prop) (table table' : SchemaTable) : Prop where
  described : table.described = table'.described
  descriptors : List.Forall₂ rel table.descriptors table'.descriptors

/-- Related descriptors have the same name and the same digest. -/
def Keeps (rel : Descriptor → Descriptor → Prop) : Prop :=
  ∀ d d', rel d d' → d.name = d'.name ∧ d.digest = d'.digest

theorem keeps_eq : Keeps Eq := by
  rintro d _ rfl
  exact ⟨rfl, rfl⟩

/-- Tables that hold the same have the same entries. -/
theorem Matches.entries_of_eq (h : table.Matches Eq table') : table.entries = table'.entries := by
  have hdescriptors : table.descriptors = table'.descriptors :=
    List.forall₂_eq_eq_eq ▸ h.descriptors
  rw [entries, entries, hdescriptors]

theorem rel_find? (hrel : Keeps rel) (h : List.Forall₂ rel ds ds') (name : String) :
    Option.Rel rel (ds.find? (·.name == name)) (ds'.find? (·.name == name)) := by
  induction h with
  | nil => exact .none
  | @cons d d' _ _ hd _ ih =>
    rw [List.find?_cons, List.find?_cons, (hrel _ _ hd).1]
    cases d'.name == name with
    | true => exact .some hd
    | false => exact ih

theorem Matches.index? (hrel : Keeps rel) (h : table.Matches rel table') (name : String) :
    table.index? name = table'.index? name := by
  have hfound := h.descriptors
  unfold SchemaTable.index?
  generalize table.descriptors = ds at hfound
  generalize table'.descriptors = ds' at hfound
  induction hfound with
  | nil => rfl
  | cons hd _ ih => rw [List.findIdx?_cons, List.findIdx?_cons, (hrel _ _ hd).1, ih]

/-- What was added to a table can be added to one that matches, and they match again. -/
theorem Matches.add (hrel : Keeps rel) (h : table.Matches rel table') (hd : rel d d')
    (hadd : table.add d = .ok after) :
    ∃ after', table'.add d' = .ok after' ∧ after.Matches rel after' := by
  obtain ⟨hname, hdigest⟩ := hrel d d' hd
  have hfound := rel_find? hrel h.descriptors d.name
  rcases add_eq_ok_iff.mp hadd with ⟨e, hfind, he, rfl⟩ | ⟨hfind, hlt, rfl⟩
  · rw [hfind] at hfound
    cases hfind' : table'.descriptors.find? (·.name == d.name) with
    | none =>
      rw [hfind'] at hfound
      cases hfound
    | some e' =>
      rw [hfind'] at hfound
      cases hfound with
      | some hee' =>
        refine ⟨table', add_eq_ok_iff.mpr (.inl ⟨e', hname ▸ hfind', ?_, rfl⟩), h⟩
        rw [← (hrel e e' hee').2, he, hdigest]
  · rw [hfind] at hfound
    cases hfind' : table'.descriptors.find? (·.name == d.name) with
    | none =>
      refine ⟨_, add_eq_ok_iff.mpr (.inr ⟨hname ▸ hfind', ?_, rfl⟩), h.described, ?_⟩
      · rw [← h.descriptors.length_eq]
        exact hlt
      · exact List.rel_append h.descriptors (.cons hd .nil)
    | some e' =>
      rw [hfind'] at hfound
      cases hfound

theorem Matches.addAll (hrel : Keeps rel) (h : table.Matches rel table')
    (hds : List.Forall₂ rel ds ds') (hadd : table.addAll ds = .ok after) :
    ∃ after', table'.addAll ds' = .ok after' ∧ after.Matches rel after' := by
  induction hds generalizing table table' with
  | nil =>
    cases hadd
    exact ⟨table', rfl, h⟩
  | cons hd _ ih =>
    rw [addAll_cons, Outcome.bind_eq_ok_iff] at hadd
    obtain ⟨between, hfirst, hrest⟩ := hadd
    obtain ⟨between', hfirst', hbetween⟩ := h.add hrel hd hfirst
    obtain ⟨after', hrest', hafter⟩ := ih hbetween hrest
    exact ⟨after', addAll_cons.trans (Outcome.bind_eq_ok_iff.mpr ⟨between', hfirst', hrest'⟩),
      hafter⟩

theorem Matches.describe (hrel : Keeps rel) (h : table.Matches rel table')
    {locals locals' : LocalTypes} {t t' : RuntimeType} (hdigest : t.digest = t'.digest)
    (hclosure : List.Forall₂ rel (locals.closure t) (locals'.closure t'))
    (hdescribe : table.describe locals t = .ok after) :
    ∃ after', table'.describe locals' t' = .ok after' ∧ after.Matches rel after' := by
  unfold SchemaTable.describe at hdescribe ⊢
  rw [← hdigest, ← h.described]
  by_cases hmem : t.digest ∈ table.described
  · rw [if_pos hmem] at hdescribe ⊢
    cases hdescribe
    exact ⟨table', rfl, h⟩
  · rw [if_neg hmem] at hdescribe ⊢
    have hstart : Matches rel { table with described := t.digest :: table.described }
        { table' with described := t.digest :: table.described } := ⟨rfl, h.descriptors⟩
    exact hstart.addAll hrel hclosure hdescribe

end SchemaTable

/-! ## States -/

/-- In lists that are related item by item, items are found at the same position. -/
theorem idxOf?_eq_of_forall₂ {link : Handle → Handle → Prop} {xs ys : List Handle} {h k : Handle}
    (hlinked : List.Forall₂ link xs ys)
    (hsame : ∀ x ∈ xs, ∀ y, link x y → (x = h ↔ y = k)) : xs.idxOf? h = ys.idxOf? k := by
  induction hlinked with
  | nil => rfl
  | @cons x y _ _ hxy _ ih =>
    obtain ⟨hx, hrest⟩ := List.forall_mem_cons.mp hsame
    have hbeq : (x == h) = (y == k) := by
      rw [Bool.eq_iff_iff, beq_iff_eq, beq_iff_eq]
      exact hx y hxy
    rw [List.idxOf?_cons, List.idxOf?_cons, hbeq, ih hrest]

/-- The encodings have numbered linked objects, which are such as get a number, and their tables
match. -/
structure Encoding.Matches (e : Encoder) (link : Handle → Handle → Prop)
    (rel : Descriptor → Descriptor → Prop) (s s' : Encoding) : Prop where
  numbered : List.Forall₂ link s.numbered.toList s'.numbered.toList
  isNumbered : ∀ h ∈ s.numbered.toList, e.isNumbered h = true
  schema : s.schema.Matches rel s'.schema

/-- The second encoder can write what the first wrote: its objects are copies along the link, each
of one object, and an object that gets a number has one copy; its types bring along descriptors that
are related. -/
structure Encoder.Rewrites (e e' : Encoder) (root root' : Value) (link : Handle → Handle → Prop)
    (rel : Descriptor → Descriptor → Prop) : Prop where
  inline : ∀ name, e'.settings.isInline name = e.settings.isInline name
  depth : e.settings.maxDepth ≤ e'.settings.maxDepth
  origin : ∀ h h' k, link h k → link h' k → h = h'
  shared : ∀ h k k', e.isNumbered h = true → link h k → link h k' → k = k'
  object : ∀ h k, link h k → ∀ o, e.graph.get? h = some o →
    ∃ o', e'.graph.get? k = some o' ∧ o.Copies link o'
  keeps : SchemaTable.Keeps rel
  closure : ∀ t t', e.graph.Uses root t → e'.graph.Uses root' t' → t.Twin t' →
    List.Forall₂ rel (e.locals.closure t) (e'.locals.closure t')

namespace Encoder

variable {e e' : Encoder} {root root' : Value} {link : Handle → Handle → Prop}
  {rel : Descriptor → Descriptor → Prop} {s t s' : Encoding} {room room' : Nat}
  {path path' : List Handle}

theorem matches_start (codecs codecs' : CodecCache) :
    Encoding.Matches e link rel (Encoding.start codecs) (Encoding.start codecs') :=
  ⟨.nil, by simp [Encoding.start], rfl, .nil⟩

/-- Linked objects have the same number, or none. -/
theorem Rewrites.idxOf?_eq (he : e.Rewrites e' root root' link rel) (hs : s.Matches e link rel s')
    {h k : Handle} (hlink : link h k) : s.numbered.idxOf? h = s'.numbered.idxOf? k := by
  have hlist : ∀ (xs : Array Handle) x, xs.idxOf? x = xs.toList.idxOf? x :=
    fun xs x => List.idxOf?_toArray x xs.toList
  rw [hlist, hlist]
  refine idxOf?_eq_of_forall₂ hs.numbered fun x hx y hxy => ⟨?_, ?_⟩
  · rintro rfl
    exact he.shared x y k (hs.isNumbered x hx) hxy hlink
  · rintro rfl
    exact he.origin x h y hxy hlink

/-- A linked object that is complete is complete for the second encoder. -/
theorem Rewrites.completes (he : e.Rewrites e' root root' link rel) (hs : s.Matches e link rel s')
    {h k : Handle} {o o' : Instance} (hget : e.graph.get? h = some o) (hlink : link h k)
    (htwin : o.type.Twin o'.type) (ht : e.Completes o h s t) :
    ∃ t', e'.Completes o' k s' t' ∧ t.Matches e link rel t' := by
  have hname : o'.type.name = o.type.name := htwin.alike.name.symm
  have hsame : e'.settings.isInline o'.type.name = e.settings.isInline o.type.name := by
    rw [hname, he.inline]
  by_cases hinline : e.settings.isInline o.type.name = true
  · obtain rfl := (completes_of_inline hinline).mp ht
    exact ⟨s', (completes_of_inline (hsame.trans hinline)).mpr rfl, hs⟩
  · obtain ⟨hlt, rfl⟩ := (completes_of_not_inline hinline).mp ht
    have hlt' : s'.numbered.size < Encoding.capacity := by
      rw [← Array.length_toList, ← hs.numbered.length_eq, Array.length_toList]
      exact hlt
    refine ⟨{ s' with numbered := s'.numbered.push k },
      (completes_of_not_inline (hsame ▸ hinline)).mpr ⟨hlt', rfl⟩, ?_, ?_, hs.schema⟩
    · rw [Array.toList_push, Array.toList_push]
      exact List.rel_append hs.numbered (.cons hlink .nil)
    · rw [Array.toList_push, List.forall_mem_append, List.forall_mem_singleton]
      refine ⟨hs.isNumbered, ?_⟩
      rw [isNumbered_eq hget, Bool.not_eq_true']
      exact Bool.eq_false_iff.mpr hinline

/-- A type that was announced can be announced to the second encoder. -/
theorem Rewrites.announce (he : e.Rewrites e' root root' link rel) (hs : s.Matches e link rel s')
    {type type' : RuntimeType} (htype : e.graph.Uses root type) (htype' : e'.graph.Uses root' type')
    (htwin : type.Twin type') {schema : SchemaTable} (declared : ValueType)
    (hschema : s.schema.describe e.locals type = .ok schema) :
    ∃ schema', s'.schema.describe e'.locals type' = .ok schema' ∧
      schema.index? type.name = schema'.index? type'.name ∧
      (announced s type declared schema).Matches e link rel
        (announced s' type' declared schema') := by
  obtain ⟨schema', hschema', hmatches⟩ :=
    hs.schema.describe he.keeps htwin.digest (he.closure _ _ htype htype' htwin) hschema
  have hname : type.name = type'.name := htwin.alike.name
  refine ⟨schema', hschema', ?_, hs.numbered, hs.isNumbered, hmatches⟩
  rw [hmatches.index? he.keeps, hname]

/-- Typed values whose copies are written alike, one by one, are written alike in a run. -/
theorem writeEach_rewrites {pairs : ValueType × Value → ValueType × Value → Prop}
    {typed typed' : List (ValueType × Value)} {chunks : List (List UInt8)}
    (hpairs : List.Forall₂ pairs typed typed')
    (hitem : ∀ p p', pairs p p' → ∀ s bytes t s',
      e.writeValue room path p.1 p.2 s = .ok bytes t → s.Matches e link rel s' →
      ∃ t', e'.writeValue room' path' p'.1 p'.2 s' = .ok bytes t' ∧ t.Matches e link rel t')
    (h : e.writeEach room path typed s = .ok chunks t) (hs : s.Matches e link rel s') :
    ∃ t', e'.writeEach room' path' typed' s' = .ok chunks t' ∧ t.Matches e link rel t' := by
  induction hpairs generalizing s chunks s' with
  | nil =>
    obtain ⟨rfl, rfl⟩ := Step.each_nil_eq_ok_iff.mp h
    exact ⟨s', Step.each_nil_eq_ok_iff.mpr ⟨rfl, rfl⟩, hs⟩
  | cons hp _ ih =>
    obtain ⟨bytes, u, others, hfirst, hrest, rfl⟩ := Step.each_cons_eq_ok_iff.mp h
    obtain ⟨u', hfirst', hu⟩ := hitem _ _ hp s bytes u s' hfirst hs
    obtain ⟨t', hrest', ht⟩ := ih hrest hu
    exact ⟨t', Step.each_cons_eq_ok_iff.mpr ⟨bytes, u', others, hfirst', hrest', rfl⟩, ht⟩

/-- Of two typed values, the second is a copy of the first and has the same declared type; each is
among the given values. -/
structure Paired (link : Handle → Handle → Prop) (values values' : List Value)
    (p p' : ValueType × Value) : Prop where
  declared : p.1 = p'.1
  copies : p.2.Copies link p'.2
  mem : p.2 ∈ values
  mem_copies : p'.2 ∈ values'

/-- The fields of an object and of its copy stand in the same slots. -/
theorem forall₂_typedFields {o o' : Instance} (hcopies : o.Copies link o') :
    List.Forall₂ (Paired link o.fields o'.fields) (typedFields o) (typedFields o') := by
  obtain ⟨htwin, hfields⟩ := hcopies
  have hzip : List.Forall₂ (fun (p p' : Field × Value) => p.1 = p'.1 ∧ p.2.Copies link p'.2)
      (o.type.slots.zip o.fields) (o'.type.slots.zip o'.fields) := by
    rw [← htwin.slots]
    generalize o.type.slots = slots
    generalize o.fields = values at hfields
    generalize o'.fields = copies at hfields
    induction hfields generalizing slots with
    | nil => simp
    | cons hv _ ih =>
      cases slots with
      | nil => simp
      | cons slot slots =>
        rw [List.zip_cons_cons, List.zip_cons_cons]
        exact .cons ⟨rfl, hv⟩ (ih slots)
  unfold typedFields
  rw [List.forall₂_map_left_iff, List.forall₂_map_right_iff]
  refine List.forall₂_iff_get.mpr ⟨hzip.length_eq, fun i hi hi' => ?_⟩
  obtain ⟨hslot, hcopy⟩ := hzip.get hi hi'
  exact ⟨congrArg Field.type hslot, hcopy, (List.of_mem_zip (List.getElem_mem hi)).2,
    (List.of_mem_zip (List.getElem_mem hi')).2⟩

theorem forall₂_typedItems (element : ValueType) {items copies : List Value}
    (hcopies : List.Forall₂ (Value.Copies link) items copies) :
    List.Forall₂ (Paired link items copies) (typedItems element items)
      (typedItems element copies) := by
  unfold typedItems
  rw [List.forall₂_map_left_iff, List.forall₂_map_right_iff]
  refine List.forall₂_iff_get.mpr ⟨hcopies.length_eq, fun i hi hi' => ?_⟩
  exact ⟨rfl, hcopies.get hi hi', List.getElem_mem hi, List.getElem_mem hi'⟩

/-- With so much depth left to either, the second encoder writes a copy as the first writes its
original. No object of the second path is written again, as it would be a copy of one of the
first. -/
def RewritesAt (e e' : Encoder) (root root' : Value) (link : Handle → Handle → Prop)
    (rel : Descriptor → Descriptor → Prop) (room room' : Nat) : Prop :=
  ∀ ⦃path path' declared v w s bytes t s'⦄, e.graph.Reaches root v → e'.graph.Reaches root' w →
    v.Copies link w → (∀ k ∈ path', ∃ h ∈ path, link h k) →
    e.writeValue room path declared v s = .ok bytes t → s.Matches e link rel s' →
    ∃ t', e'.writeValue room' path' declared w s' = .ok bytes t' ∧ t.Matches e link rel t'

/-- A copy of a constant is written like the constant. -/
theorem Rewrites.writeConstant (he : e.Rewrites e' root root' link rel) {c c' : Constant}
    (hreach : e.graph.Reaches root (.constant c))
    (hreach' : e'.graph.Reaches root' (.constant c')) (htwin : c.type.Twin c'.type)
    (hordinal : c.ordinal = c'.ordinal) {declared : ValueType} {bytes : List UInt8}
    (h : e.writeConstant declared c s = .ok bytes t) (hs : s.Matches e link rel s') :
    ∃ t', e'.writeConstant declared c' s' = .ok bytes t' ∧ t.Matches e link rel t' := by
  rw [writeConstant_eq_ok_iff c.kind_type] at h
  obtain ⟨schema, index, haccepts, hschema, hindex, rfl, rfl⟩ := h
  obtain ⟨schema', hschema', hsame, ht⟩ :=
    he.announce hs (.constant hreach) (.constant hreach') htwin declared hschema
  refine ⟨announced s' c'.type declared schema', ?_, ht⟩
  rw [writeConstant_eq_ok_iff c'.kind_type, hordinal]
  exact ⟨schema', index, htwin.accepts declared ▸ haccepts, hschema', hsame ▸ hindex, rfl, rfl⟩

/-- A copy of an object is written like the object, if the copies of its fields are. -/
theorem Rewrites.writeObject (hgraph : e.graph.WellFormed) (hgraph' : e'.graph.WellFormed)
    (he : e.Rewrites e' root root' link rel)
    (hdeeper : RewritesAt e e' root root' link rel room room') {k k' : Handle}
    (hreach : e.graph.Reaches root (.object k)) (hreach' : e'.graph.Reaches root' (.object k'))
    (hlink : link k k') (hpath : ∀ j ∈ path', ∃ h ∈ path, link h j) {declared : ValueType}
    {bytes : List UInt8}
    (h : e.writeObject (e.writeValue room (k :: path)) path declared k s = .ok bytes t)
    (hs : s.Matches e link rel s') :
    ∃ t', e'.writeObject (e'.writeValue room' (k' :: path')) path' declared k' s' = .ok bytes t' ∧
      t.Matches e link rel t' := by
  obtain ⟨o, schema, hget, haccepts, hschema, hwrite⟩ := writeObject_cases hgraph h
  obtain ⟨o', hget', hobject⟩ := he.object k k' hlink o hget
  have htwin := hobject.type
  obtain ⟨schema', hschema', hsame, hannounced⟩ := he.announce hs (.object hreach hget)
    (.object hreach' hget') htwin declared hschema
  have hid' := he.idxOf?_eq hs hlink
  have hcomposite := (hgraph'.object k' o' hget').composite
  simp only [writeObject_eq_ok_iff hget' hcomposite]
  rcases hwrite with ⟨id, hid, rfl, rfl⟩ | ⟨hnew, hwrite⟩
  · refine ⟨announced s' o'.type declared schema', ?_, hannounced⟩
    refine ⟨schema', htwin.accepts declared ▸ haccepts, hschema', ?_⟩
    rw [← hid', hid]
    exact ⟨rfl, rfl⟩
  · have hnone : s.numbered.idxOf? k = none :=
      Array.idxOf?_eq_none_iff.mpr fun hmem => hnew (Array.mem_toList_iff.mpr hmem)
    obtain ⟨hnotin, index, chunks, u, hindex, hcount, hfields, rfl, ht⟩ :=
      (writeNew_eq_ok_iff hget).mp hwrite
    have hpath' : ∀ j ∈ k' :: path', ∃ h ∈ k :: path, link h j := by
      refine List.forall_mem_cons.mpr ⟨⟨k, List.mem_cons_self, hlink⟩, fun j hj => ?_⟩
      obtain ⟨h, hh, hhj⟩ := hpath j hj
      exact ⟨h, List.mem_cons_of_mem _ hh, hhj⟩
    have hnotin' : k' ∉ path' := by
      intro hmem
      obtain ⟨h, hh, hhk⟩ := hpath k' hmem
      exact hnotin (he.origin h k k' hhk hlink ▸ hh)
    obtain ⟨u', hfields', hu⟩ := writeEach_rewrites (forall₂_typedFields hobject)
      (fun p p' hp s bytes t s' hrun hs => hp.declared ▸ hdeeper
        (hreach.trans (.field hget hp.mem (.self _)))
        (hreach'.trans (.field hget' hp.mem_copies (.self _))) hp.copies hpath' hrun hs)
      hfields hannounced
    obtain ⟨t', ht', hmatches⟩ := he.completes hu hget hlink htwin ht
    have hinline : e'.settings.isInline o'.type.name = e.settings.isInline o.type.name := by
      rw [he.inline]
      exact congrArg _ htwin.alike.name.symm
    refine ⟨t', ⟨schema', htwin.accepts declared ▸ haccepts, hschema', ?_⟩, hmatches⟩
    rw [← hid', hnone]
    refine (writeNew_eq_ok_iff hget').mpr ⟨hnotin', index, chunks, u', hsame ▸ hindex, ?_,
      hfields', ?_, ht'⟩
    · rw [← htwin.slots]
      exact hcount
    · rw [hinline, htwin.slots]

/-- **A copy is written like its original.** The induction is on the depth that is left to the first
encoding; the second has as much or more. -/
theorem writeValue_rewrites (hgraph : e.graph.WellFormed) (hgraph' : e'.graph.WellFormed)
    (he : e.Rewrites e' root root' link rel) (hroom : room ≤ room') :
    RewritesAt e e' root root' link rel room room' := by
  induction room generalizing room' with
  | zero => exact fun _ _ _ _ _ _ _ _ _ _ _ _ _ h _ => absurd h Step.throw_ne_ok
  | succ room ih =>
    obtain ⟨room', rfl⟩ : ∃ r, room' = r + 1 := ⟨room' - 1, by omega⟩
    have hdeeper : RewritesAt e e' root root' link rel room room' := ih (by omega)
    intro path path' declared v w s bytes t s' hreach hreach' hcopies hpath h hs
    cases hcopies with
    | null =>
      obtain ⟨hnull, rfl, rfl⟩ := writeNull_eq_ok_iff.mp h
      exact ⟨s', writeNull_eq_ok_iff.mpr ⟨hnull, rfl, rfl⟩, hs⟩
    | primitive p =>
      obtain ⟨hadmits, body, hbody, rfl, rfl⟩ := writePrimitive_eq_ok_iff.mp h
      exact ⟨s', writePrimitive_eq_ok_iff.mpr ⟨hadmits, body, hbody, rfl, rfl⟩, hs⟩
    | @list items copies hitems =>
      obtain ⟨element, chunks, helement, hlength, hrun, rfl⟩ := writeList_eq_ok_iff.mp h
      obtain ⟨t', hrun', ht⟩ := writeEach_rewrites (forall₂_typedItems element hitems)
        (fun p p' hp s bytes t s' hrun hs => hp.declared ▸ hdeeper
          (hreach.trans (.item hp.mem (.self _))) (hreach'.trans (.item hp.mem_copies (.self _)))
          hp.copies hpath hrun hs) hrun hs
      rw [hitems.length_eq] at hlength ⊢
      exact ⟨t', writeList_eq_ok_iff.mpr ⟨element, chunks, helement, hlength, hrun', rfl⟩, ht⟩
    | constant htwin hordinal => exact he.writeConstant hreach hreach' htwin hordinal h hs
    | object hlink => exact he.writeObject hgraph hgraph' hdeeper hreach hreach' hlink hpath h hs

/-- What was written of a root is written of its copy, with a schema that matches. -/
theorem writeRoot_rewrites (hgraph : e.graph.WellFormed) (hgraph' : e'.graph.WellFormed)
    (he : e.Rewrites e' root root' link rel) (hcopies : root.Copies link root')
    {envelope : Envelope} {codecs : CodecCache}
    (h : e.writeRoot root (Encoding.start codecs) = .ok envelope t) (codecs' : CodecCache) :
    ∃ t', e'.writeRoot root' (Encoding.start codecs') =
        .ok ⟨envelope.payload, t'.schema.entries⟩ t' ∧
      t.schema.Matches rel t'.schema := by
  obtain ⟨hnull, hvalue, -⟩ := writeRoot_eq_ok_iff.mp h
  have hroom : e.settings.roomAt 0 ≤ e'.settings.roomAt 0 := by
    have hdepth := he.depth
    unfold Settings.roomAt
    omega
  obtain ⟨t', hvalue', ht⟩ := writeValue_rewrites hgraph hgraph' he hroom (.self root) (.self root')
    hcopies (fun k hk => absurd hk List.not_mem_nil) hvalue (matches_start codecs codecs')
  have hnull' : root' ≠ .null := mt hcopies.eq_null_iff.mpr hnull
  exact ⟨t', writeRoot_eq_ok_iff.mpr ⟨hnull', hvalue', rfl⟩, ht.schema⟩

end Encoder

end ObjectEnvelope
