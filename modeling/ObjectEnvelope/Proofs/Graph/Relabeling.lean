import ObjectEnvelope.Proofs.Graph.Copies

/-!
# Relabelings

Two graphs are the same up to handles, as far as two roots lead, when the objects that are met
correspond one to one and the second root and the second objects are the first with other handles
(`ObjectGraph.IsRelabeling`). Types and primitives are compared as they are, so that numbers agree
bit for bit. An object is a copy of itself under other handles (`Instance.copies_relabel`), and
graphs with a common copy are relabelings of each other (`IsCopy.exists_relabeling`).
-/

namespace ObjectEnvelope

/-- Two lists that are related to a third item by item are the image of one another, if items that
are related to one item are. -/
theorem eq_map_of_forall₂ {α β γ : Type} {R : α → γ → Prop} {S : β → γ → Prop} {f : α → β}
    {xs : List α} {ys : List β} {zs : List γ} (h : List.Forall₂ R xs zs)
    (h' : List.Forall₂ S ys zs) (heq : ∀ x ∈ xs, ∀ y ∈ ys, ∀ z, R x z → S y z → y = f x) :
    ys = xs.map f := by
  induction h generalizing ys with
  | nil =>
    cases h'
    rfl
  | cons hxz _ ih =>
    cases h' with
    | cons hyz hrest =>
      rw [List.map_cons, heq _ List.mem_cons_self _ List.mem_cons_self _ hxz hyz]
      refine congrArg _ (ih hrest fun x hx y hy => ?_)
      exact heq x (List.mem_cons_of_mem _ hx) y (List.mem_cons_of_mem _ hy)

namespace Value

mutual

/-- The value with other handles. -/
def relabel (image : Handle → Handle) : Value → Value
  | object h => object (image h)
  | list items => list (relabelAll image items)
  | null => null
  | primitive p => primitive p
  | constant c => constant c

/-- The values with other handles. -/
def relabelAll (image : Handle → Handle) : List Value → List Value
  | [] => []
  | item :: rest => relabel image item :: relabelAll image rest

end

theorem relabelAll_eq_map (image : Handle → Handle) (items : List Value) :
    relabelAll image items = items.map (relabel image) := by
  induction items with
  | nil => rfl
  | cons item rest ih => rw [relabelAll, List.map_cons, ih]

variable {image : Handle → Handle} {link link' : Handle → Handle → Prop} {v v' w : Value}

/-- With other handles a value is a copy of itself. -/
theorem copies_relabel (h : ∀ k, v.Holds (.object k) → link k (image k)) :
    v.Copies link (v.relabel image) := by
  induction v using Value.induct with
  | null => exact .null
  | primitive p => exact .primitive p
  | list items ih =>
    rw [relabel, relabelAll_eq_map]
    refine .list (List.forall₂_map_right_iff.mpr (List.forall₂_same.mpr fun x hx => ?_))
    exact ih x hx fun k hk => h k (.item hx hk)
  | constant c => exact .constant ⟨.refl _, rfl⟩ rfl
  | object k => exact .object (h k (.self _))

/-- Values with a common copy differ in their handles only, if what is linked to one handle
corresponds and types with a common twin are the same. -/
theorem eq_relabel_of_copies
    (hlink : ∀ h h' k, v'.Holds (.object h') → link h k → link' h' k → h' = image h)
    (htype : ∀ (c c' : Constant) (t : RuntimeType), v.Holds (.constant c) →
      v'.Holds (.constant c') → c.type.Twin t → c'.type.Twin t → c'.type = c.type)
    (h : v.Copies link w) (h' : v'.Copies link' w) : v' = v.relabel image := by
  induction v using Value.induct generalizing v' w with
  | null =>
    cases h
    cases h'
    rfl
  | primitive p =>
    cases h
    cases h'
    rfl
  | list items ih =>
    cases h with
    | list hitems =>
      cases h' with
      | @list items' _ hitems' =>
        rw [relabel, relabelAll_eq_map]
        refine congrArg list (eq_map_of_forall₂ hitems hitems' fun x hx y hy z hxz hyz => ?_)
        exact ih x hx (fun h h' k hh' => hlink h h' k (.item hy hh'))
          (fun c c' t hc hc' => htype c c' t (.item hx hc) (.item hy hc')) hxz hyz
  | constant c =>
    cases h with
    | constant htwin hordinal =>
      cases h' with
      | @constant c' _ htwin' hordinal' =>
        have hsame := htype c c' _ (.self _) (.self _) htwin htwin'
        have heq := hordinal'.trans hordinal.symm
        obtain ⟨type, ordinal, hlt⟩ := c
        obtain ⟨type', ordinal', hlt'⟩ := c'
        obtain rfl : type' = type := hsame
        obtain rfl : ordinal' = ordinal := heq
        rfl
  | object k =>
    cases h with
    | object hk =>
      cases h' with
      | object hk' => exact congrArg object (hlink _ _ _ (.self _) hk hk')

end Value

/-- The object with other handles in its fields. -/
def Instance.relabel (image : Handle → Handle) (o : Instance) : Instance :=
  { o with fields := o.fields.map (Value.relabel image) }

/-- With other handles an object is a copy of itself. -/
theorem Instance.copies_relabel {image : Handle → Handle} {link : Handle → Handle → Prop}
    {o : Instance} (h : ∀ v ∈ o.fields, ∀ k, v.Holds (.object k) → link k (image k)) :
    o.Copies link (o.relabel image) := by
  refine ⟨⟨.refl _, rfl⟩, ?_⟩
  rw [relabel, List.forall₂_map_right_iff, List.forall₂_same]
  exact fun v hv => v.copies_relabel (h v hv)

/-- Objects of one type with a common copy differ in their handles only, under the same
conditions. -/
theorem Instance.eq_relabel_of_copies {image : Handle → Handle}
    {link link' : Handle → Handle → Prop} {o o' p : Instance} (htype : o'.type = o.type)
    (hlink : ∀ v' ∈ o'.fields, ∀ h h' k, v'.Holds (.object h') → link h k → link' h' k →
      h' = image h)
    (hconstant : ∀ v ∈ o.fields, ∀ v' ∈ o'.fields, ∀ (c c' : Constant) (t : RuntimeType),
      v.Holds (.constant c) → v'.Holds (.constant c') → c.type.Twin t → c'.type.Twin t →
      c'.type = c.type)
    (h : o.Copies link p) (h' : o'.Copies link' p) : o' = o.relabel image := by
  obtain ⟨type, fields⟩ := o
  obtain ⟨type', fields'⟩ := o'
  obtain rfl : type' = type := htype
  refine congrArg (Instance.mk type') (eq_map_of_forall₂ h.fields h'.fields ?_)
  intro v hv v' hv' u hvu hvu'
  exact Value.eq_relabel_of_copies (hlink v' hv') (hconstant v hv v' hv') hvu hvu'

namespace ObjectGraph

variable {g g' copy : ObjectGraph} {root root' w : Value} {image image' : Handle → Handle}

theorem reaches_of_holds {v w : Value} (h : v.Holds w) : g.Reaches v w := by
  induction h with
  | self => exact .self _
  | item hv _ ih => exact .item hv ih

/-- The objects that the roots lead to correspond one to one, and the second root and the second
objects are the first with other handles. -/
structure IsRelabeling (g : ObjectGraph) (root : Value) (g' : ObjectGraph) (root' : Value)
    (image : Handle → Handle) : Prop where
  bijective : Set.BijOn image {h | g.Reaches root (.object h)} {k | g'.Reaches root' (.object k)}
  root_eq : root' = root.relabel image
  object : ∀ h, g.Reaches root (.object h) → g'.get? (image h) = (g.get? h).map (·.relabel image)

/-- Graphs with a common copy are relabelings of each other, if types with a common twin are the
same. -/
theorem IsCopy.exists_relabeling (h : g.IsCopy root copy w image)
    (h' : g'.IsCopy root' copy w image')
    (htype : ∀ t t' u, g.Uses root t → g'.Uses root' t' → t.Twin u → t'.Twin u → t' = t) :
    ∃ relabeling, g.IsRelabeling root g' root' relabeling := by
  have : Nonempty Handle := ⟨⟨0⟩⟩
  let back := Function.invFunOn image' {k | g'.Reaches root' (.object k)}
  have hinverse := h'.bijective.invOn_invFunOn
  have hback : Set.BijOn back {k | (copy.get? k).isSome} {k | g'.Reaches root' (.object k)} :=
    h'.bijective.symm hinverse.symm
  -- what has the same image corresponds
  have hlink : ∀ a b k, g'.Reaches root' (.object b) → image a = k → image' b = k →
      b = (back ∘ image) a := by
    intro a b k hb ha hk
    rw [Function.comp_apply, ha, ← hk]
    exact (hinverse.1 hb).symm
  have hconstant : ∀ (c c' : Constant) (t : RuntimeType), g.Reaches root (.constant c) →
      g'.Reaches root' (.constant c') → c.type.Twin t → c'.type.Twin t → c'.type = c.type :=
    fun c c' t hc hc' => htype c.type c'.type t (.constant hc) (.constant hc')
  refine ⟨back ∘ image, hback.comp h.bijective, ?_, fun a ha => ?_⟩
  · exact Value.eq_relabel_of_copies
      (fun a b k hb => hlink a b k (reaches_of_holds hb))
      (fun c c' t hc hc' => hconstant c c' t (reaches_of_holds hc) (reaches_of_holds hc'))
      h.root_copies h'.root_copies
  · have hb : g'.Reaches root' (.object ((back ∘ image) a)) :=
      hback.mapsTo (h.bijective.mapsTo ha)
    obtain ⟨o, p, hget, hp, hcopies⟩ := h.object_copies a ha
    obtain ⟨o', p', hget', hp', hcopies'⟩ := h'.object_copies _ hb
    have hsame : image' ((back ∘ image) a) = image a := hinverse.2 (h.bijective.mapsTo ha)
    rw [hsame] at hp'
    obtain rfl : p = p' := Option.some_inj.mp (hp.symm.trans hp')
    have hobject : o'.type = o.type :=
      htype _ _ _ (.object ha hget) (.object hb hget') hcopies.type hcopies'.type
    have hreach : ∀ v ∈ o.fields, ∀ x, v.Holds x → g.Reaches root x :=
      fun v hv x hx => ha.trans (.field hget hv (reaches_of_holds hx))
    have hreach' : ∀ v ∈ o'.fields, ∀ x, v.Holds x → g'.Reaches root' x :=
      fun v hv x hx => hb.trans (.field hget' hv (reaches_of_holds hx))
    rw [hget, hget', Option.map_some, Option.some_inj]
    exact Instance.eq_relabel_of_copies hobject
      (fun v hv c b k hk => hlink c b k (hreach' v hv _ hk))
      (fun v hv v' hv' c c' t hc hc' => hconstant c c' t (hreach v hv _ hc) (hreach' v' hv' _ hc'))
      hcopies hcopies'

end ObjectGraph

end ObjectEnvelope
