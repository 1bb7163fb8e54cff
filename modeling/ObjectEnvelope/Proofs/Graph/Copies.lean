import Mathlib.Data.Set.Function
import ObjectEnvelope.Proofs.Graph.Reach
import ObjectEnvelope.Proofs.Graph.Updates
import ObjectEnvelope.Proofs.Schema.Layouts

/-!
# Copies of graphs

A value is copied along a link between handles when nothing else is changed: `Value.Copies`. A graph
mirrors another along the list of the objects that its own were made of (`ObjectGraph.Mirrors`), and
goes on to do so when the copy of one more object is added (`Mirrors.push`). When each of the
objects that a root leads to was made once, they correspond one to one to those of the mirror
(`Mirrors.isCopy`).
-/

namespace ObjectEnvelope

/-- The second value is the first, but for its handles, which are linked to those of the first, and
for the types of its constants, which are twins. -/
inductive Value.Copies (link : Handle → Handle → Prop) : Value → Value → Prop
  | null : Copies link .null .null
  | primitive (p : Primitive) : Copies link (.primitive p) (.primitive p)
  | list {items copies : List Value} (h : List.Forall₂ (Copies link) items copies) :
      Copies link (.list items) (.list copies)
  | constant {c d : Constant} (htype : c.type.Twin d.type) (hordinal : c.ordinal = d.ordinal) :
      Copies link (.constant c) (.constant d)
  | object {h k : Handle} (hlink : link h k) : Copies link (.object h) (.object k)

/-- The second object is a copy of the first: one of a twin type, whose fields are copies. -/
structure Instance.Copies (link : Handle → Handle → Prop) (o copy : Instance) : Prop where
  type : o.type.Twin copy.type
  fields : List.Forall₂ (Value.Copies link) o.fields copy.fields

variable {link link' : Handle → Handle → Prop} {v w : Value} {o o' : Instance}

theorem Value.Copies.mono (hlink : ∀ h k, link h k → link' h k) (h : v.Copies link w) :
    v.Copies link' w := by
  induction v using Value.induct generalizing w with
  | null =>
    cases h
    exact .null
  | primitive p =>
    cases h
    exact .primitive p
  | list items ih =>
    cases h with
    | list h => exact .list (forall₂_imp_mem h fun x hx y hxy => ih x hx hxy)
  | constant c =>
    cases h with
    | constant htype hordinal => exact .constant htype hordinal
  | object k =>
    cases h with
    | object h => exact .object (hlink _ _ h)

theorem Instance.Copies.mono (hlink : ∀ h k, link h k → link' h k) (h : o.Copies link o') :
    o.Copies link' o' :=
  ⟨h.type, h.fields.imp fun _ _ hvw => hvw.mono hlink⟩

theorem Value.Copies.eq_null_iff (h : v.Copies link w) : v = .null ↔ w = .null := by
  cases h <;> simp

namespace ObjectGraph

variable {g copy : ObjectGraph}

/-! ## Copies fit -/

/-- The copy of a value fits wherever the value does, if linked objects may stand wherever their
originals may. -/
theorem Fits.copies_of_accepts {declared : ValueType} (h : g.Fits declared v)
    (hcopy : v.Copies link w)
    (hlink : ∀ h k, link h k → ∀ o, g.get? h = some o → ∃ o', copy.get? k = some o' ∧
      ∀ declared, o.type.accepts declared = true → o'.type.accepts declared = true) :
    copy.Fits declared w := by
  induction h generalizing w with
  | null h =>
    cases hcopy
    exact .null h
  | primitive h =>
    cases hcopy
    exact .primitive h
  | list _ ih =>
    cases hcopy with
    | list hitems =>
      refine .list fun y hy => ?_
      obtain ⟨x, hx, hxy⟩ := forall₂_exists_left hitems hy
      exact ih x hx hxy
  | anyList items =>
    cases hcopy
    exact .anyList _
  | constant h =>
    cases hcopy with
    | constant htype => exact .constant (htype.accepts _ ▸ h)
  | object hget haccepts =>
    cases hcopy with
    | object hk =>
      obtain ⟨o', hget', htype⟩ := hlink _ _ hk _ hget
      exact .object hget' (htype _ haccepts)

/-- The copy of a value fits wherever the value does, if linked objects are of twin types. -/
theorem Fits.copies {declared : ValueType} (h : g.Fits declared v) (hcopy : v.Copies link w)
    (hlink : ∀ h k, link h k → ∀ o, g.get? h = some o →
      ∃ o', copy.get? k = some o' ∧ o.type.Twin o'.type) : copy.Fits declared w := by
  refine h.copies_of_accepts hcopy fun h k hk o hget => ?_
  obtain ⟨o', hget', htype⟩ := hlink h k hk o hget
  exact ⟨o', hget', fun declared => (htype.accepts declared ▸ id)⟩

theorem FitsSlot.copies {slot : Field} (h : g.FitsSlot slot v) (hcopy : v.Copies link w)
    (hlink : ∀ h k, link h k → ∀ o, g.get? h = some o →
      ∃ o', copy.get? k = some o' ∧ o.type.Twin o'.type) : copy.FitsSlot slot w :=
  ⟨h.1.copies hcopy hlink, fun hw => h.2 (hcopy.eq_null_iff.mpr hw)⟩

/-- Copies of the fields of an object fit the slots of a twin of its type. -/
theorem FitsObject.copies {type : RuntimeType} {copies : List Value} (h : g.FitsObject o)
    (htype : o.type.Twin type) (hcopies : List.Forall₂ (Value.Copies link) o.fields copies)
    (hlink : ∀ h k, link h k → ∀ o, g.get? h = some o →
      ∃ o', copy.get? k = some o' ∧ o.type.Twin o'.type) :
    ∀ p ∈ type.slots.zip copies, copy.FitsSlot p.1 p.2 := by
  rintro ⟨slot, w⟩ hp
  obtain ⟨i, hi⟩ := List.mem_iff_getElem?.mp hp
  obtain ⟨hslot, hw⟩ := List.getElem?_zip_eq_some.mp hi
  obtain ⟨hlt, rfl⟩ := List.getElem?_eq_some_iff.mp hw
  have hlt' := hcopies.length_eq ▸ hlt
  have hpair : (slot, o.fields[i]) ∈ o.type.slots.zip o.fields := by
    refine List.mem_iff_getElem?.mpr ⟨i, List.getElem?_zip_eq_some.mpr ⟨?_, ?_⟩⟩
    · rw [htype.slots]
      exact hslot
    · exact List.getElem?_eq_getElem hlt'
  exact (h.fits _ hpair).copies (hcopies.get hlt' hlt) hlink

/-! ## Mirrors -/

/-- The object with the second handle was made of that with the first. -/
def Linked (origin : List Handle) (h k : Handle) : Prop :=
  origin[k.index]? = some h

theorem Linked.append {origin : List Handle} {h k : Handle} (hk : Linked origin h k)
    (more : List Handle) : Linked (origin ++ more) h k := by
  obtain ⟨hlt, -⟩ := List.getElem?_eq_some_iff.mp hk
  rw [Linked, List.getElem?_append_left hlt]
  exact hk

/-- Every object of the copy is a copy of that of the graph that it was made of. -/
structure Mirrors (g : ObjectGraph) (origin : List Handle) (copy : ObjectGraph) : Prop where
  size : copy.size = origin.length
  objects : ∀ h k, Linked origin h k →
    ∃ o o', g.get? h = some o ∧ copy.get? k = some o' ∧ o.Copies (Linked origin) o'

theorem mirrors_empty (g : ObjectGraph) : g.Mirrors [] .empty :=
  ⟨rfl, fun _ _ h => by simp [Linked] at h⟩

variable {origin : List Handle} {h k : Handle}

theorem Mirrors.exists_object (hmirrors : g.Mirrors origin copy) (hk : Linked origin h k)
    (hget : g.get? h = some o) :
    ∃ o', copy.get? k = some o' ∧ o.Copies (Linked origin) o' := by
  obtain ⟨p, o', hget', hcopy, hcopies⟩ := hmirrors.objects h k hk
  obtain rfl := Option.some_inj.mp (hget.symm.trans hget')
  exact ⟨o', hcopy, hcopies⟩

theorem Mirrors.exists_twin (hmirrors : g.Mirrors origin copy) (h k : Handle)
    (hk : Linked origin h k) (o : Instance) (hget : g.get? h = some o) :
    ∃ o', copy.get? k = some o' ∧ o.type.Twin o'.type := by
  obtain ⟨o', hcopy, hcopies⟩ := hmirrors.exists_object hk hget
  exact ⟨o', hcopy, hcopies.type⟩

/-- The copy of one more object. -/
theorem Mirrors.push (hmirrors : g.Mirrors origin copy) (hget : g.get? h = some o)
    (hcopies : o.Copies (Linked origin) o') :
    g.Mirrors (origin ++ [h]) ⟨copy.objects.push o'⟩ ∧ Linked (origin ++ [h]) h ⟨copy.size⟩ := by
  have hmono : ∀ a k, Linked origin a k → Linked (origin ++ [h]) a k :=
    fun a k hk => hk.append [h]
  refine ⟨⟨?_, fun a k hk => ?_⟩, ?_⟩
  · rw [List.length_append, ← hmirrors.size]
    exact Array.size_push _
  · rw [get?_push]
    by_cases hlast : k.index = copy.size
    · rw [Linked, hlast, hmirrors.size, List.getElem?_concat_length] at hk
      cases hk
      exact ⟨o, o', hget, by rw [if_pos hlast], hcopies.mono hmono⟩
    · obtain ⟨hlt, -⟩ := List.getElem?_eq_some_iff.mp hk
      rw [List.length_append, ← hmirrors.size, List.length_singleton] at hlt
      have hold : k.index < origin.length := by
        rw [← hmirrors.size]
        omega
      rw [Linked, List.getElem?_append_left hold] at hk
      obtain ⟨p, p', hp, hp', hpcopies⟩ := hmirrors.objects a k hk
      exact ⟨p, p', hp, by rw [if_neg hlast, hp'], hpcopies.mono hmono⟩
  · rw [Linked, hmirrors.size, List.getElem?_concat_length]

/-- Whatever is met on the way from a value has a copy that is met on the way from its copy. -/
theorem Mirrors.exists_copy (hmirrors : g.Mirrors origin copy) {u : Value} (hreach : g.Reaches v u)
    (hcopy : v.Copies (Linked origin) w) : ∃ x, copy.Reaches w x ∧ u.Copies (Linked origin) x := by
  induction hreach generalizing w with
  | self v => exact ⟨w, .self w, hcopy⟩
  | item hv _ ih =>
    cases hcopy with
    | list hitems =>
      obtain ⟨y, hy, hvy⟩ := forall₂_exists_right hitems hv
      obtain ⟨x, hx, hux⟩ := ih hvy
      exact ⟨x, .item hy hx, hux⟩
  | field hget hv _ ih =>
    cases hcopy with
    | object hk =>
      obtain ⟨o', hget', hcopies⟩ := hmirrors.exists_object hk hget
      obtain ⟨y, hy, hvy⟩ := forall₂_exists_right hcopies.fields hv
      obtain ⟨x, hx, hux⟩ := ih hvy
      exact ⟨x, .field hget' hy hx, hux⟩

/-! ## Bijections -/

/-- What the root leads to has been copied: the objects met on the way from it correspond one to one
to the objects of the second graph, and they and the root are copied along that correspondence. -/
structure IsCopy (g : ObjectGraph) (root : Value) (copy : ObjectGraph) (copyRoot : Value)
    (image : Handle → Handle) : Prop where
  bijective : Set.BijOn image {h | g.Reaches root (.object h)} {k | (copy.get? k).isSome}
  root_copies : root.Copies (fun h k => image h = k) copyRoot
  object_copies : ∀ h, g.Reaches root (.object h) → ∃ o o', g.get? h = some o ∧
    copy.get? (image h) = some o' ∧ o.Copies (fun h k => image h = k) o'

/-- A mirror of the objects that are met, each of them once, is a copy. -/
theorem Mirrors.isCopy {root : Value} (hmirrors : g.Mirrors origin copy) (hnodup : origin.Nodup)
    (hreached : ∀ h ∈ origin, g.Reaches root (.object h)) (hroot : root.Copies (Linked origin) w) :
    g.IsCopy root copy w fun h => ⟨origin.idxOf h⟩ := by
  have himage : ∀ h k, Linked origin h k → (⟨origin.idxOf h⟩ : Handle) = k := by
    intro h k hk
    obtain ⟨hlt, rfl⟩ := List.getElem?_eq_some_iff.mp hk
    rw [hnodup.idxOf_getElem k.index hlt]
  have hlinked : ∀ h, g.Reaches root (.object h) → Linked origin h ⟨origin.idxOf h⟩ := by
    intro h hreach
    obtain ⟨x, -, hcopy⟩ := hmirrors.exists_copy hreach hroot
    cases hcopy with
    | object hk =>
      rw [himage _ _ hk]
      exact hk
  refine ⟨⟨fun h hreach => ?_, fun h hh k hk heq => ?_, fun k hk => ?_⟩, hroot.mono himage,
    fun h hreach => ?_⟩
  · obtain ⟨o, o', -, hcopy, -⟩ := hmirrors.objects h _ (hlinked h hreach)
    exact Option.isSome_iff_exists.mpr ⟨o', hcopy⟩
  · have hfirst := hlinked h hh
    have hsecond := hlinked k hk
    dsimp only at heq
    rw [← heq] at hsecond
    exact Option.some_inj.mp (hfirst.symm.trans hsecond)
  · have hlt : k.index < origin.length := by
      rw [← hmirrors.size]
      exact get?_isSome_iff.mp hk
    have hk : Linked origin origin[k.index] k := List.getElem?_eq_getElem hlt
    exact ⟨_, hreached _ (List.getElem_mem hlt), himage _ _ hk⟩
  · obtain ⟨o, o', hget, hcopy, hcopies⟩ := hmirrors.objects h _ (hlinked h hreach)
    exact ⟨o, o', hget, hcopy, hcopies.mono himage⟩

end ObjectGraph

end ObjectEnvelope
