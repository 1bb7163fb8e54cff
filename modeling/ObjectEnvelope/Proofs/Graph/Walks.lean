import ObjectEnvelope.Proofs.Graph.Grounded

/-!
# Walks

A walk visits values depth first, from left to right, and goes into an object unless it was
completed before. It records how deep each value lies. From a grounded value there is exactly one
walk (`Grounded.exists_walk`, `Walk.unique`), and every value that has one is grounded
(`Walk.grounded`).
-/

namespace ObjectEnvelope.ObjectGraph

/-- The complete objects when another one is, unless its type has an inline name. -/
def completing (inline : String → Bool) (o : Instance) (h : Handle) (written : List Handle) :
    List Handle :=
  if inline o.type.name then written else written ++ [h]

theorem mem_completing {inline : String → Bool} {o : Instance} {h k : Handle}
    {written : List Handle} (hk : k ∈ completing inline o h written) : k ∈ written ∨ k = h := by
  unfold completing at hk
  split at hk
  · exact .inl hk
  · simpa using hk

theorem nodup_completing {inline : String → Bool} {o : Instance} {h : Handle}
    {written : List Handle} (hwritten : written.Nodup) (hnew : h ∉ written) :
    (completing inline o h written).Nodup := by
  unfold completing
  split
  · exact hwritten
  · rw [List.nodup_append]
    refine ⟨hwritten, by simp, ?_⟩
    rintro k hk _ hself rfl
    exact hnew (List.mem_singleton.mp hself ▸ hk)

/-- The walk over values that lie at a depth, when the objects in `written` are complete: the depths
of the values it visits, and the complete objects after it. -/
inductive Walk (g : ObjectGraph) (inline : String → Bool) :
    (depth : Nat) → (written : List Handle) → List Value → List Nat → List Handle → Prop
  | nil {depth : Nat} {written : List Handle} : Walk g inline depth written [] [] written
  | leaf {depth : Nat} {written after : List Handle} {v : Value} {rest : List Value}
      {ds : List Nat} (hv : v.IsLeaf) (hrest : Walk g inline depth written rest ds after) :
      Walk g inline depth written (v :: rest) (depth :: ds) after
  | list {depth : Nat} {written between after : List Handle} {items rest : List Value}
      {ds es : List Nat} (hitems : Walk g inline (depth + 1) written items ds between)
      (hrest : Walk g inline depth between rest es after) :
      Walk g inline depth written (.list items :: rest) (depth :: ds ++ es) after
  | again {depth : Nat} {written after : List Handle} {h : Handle} {rest : List Value}
      {ds : List Nat} (hmem : h ∈ written) (hrest : Walk g inline depth written rest ds after) :
      Walk g inline depth written (.object h :: rest) (depth :: ds) after
  | enter {depth : Nat} {written between after : List Handle} {h : Handle} {o : Instance}
      {rest : List Value} {ds es : List Nat} (hnew : h ∉ written) (hget : g.get? h = some o)
      (hfields : Walk g inline (depth + 1) written o.fields ds between)
      (hrest : Walk g inline depth (completing inline o h between) rest es after) :
      Walk g inline depth written (.object h :: rest) (depth :: ds ++ es) after

variable {g : ObjectGraph} {inline : String → Bool} {depth : Nat}
  {written between after : List Handle} {values rest : List Value} {ds es : List Nat}

/-- Two walks, one after the other. -/
theorem Walk.append (h : g.Walk inline depth written values ds between)
    (hrest : g.Walk inline depth between rest es after) :
    g.Walk inline depth written (values ++ rest) (ds ++ es) after := by
  induction h generalizing rest es after with
  | nil => exact hrest
  | leaf hv _ ih => exact .leaf hv (ih hrest)
  | list hitems _ _ ih =>
    rw [List.append_assoc]
    exact .list hitems (ih hrest)
  | again hmem _ ih => exact .again hmem (ih hrest)
  | enter hnew hget hfields _ _ ih =>
    rw [List.append_assoc]
    exact .enter hnew hget hfields (ih hrest)

/-- There is at most one walk. -/
theorem Walk.unique (h : g.Walk inline depth written values ds after) {ds' : List Nat}
    {after' : List Handle} (h' : g.Walk inline depth written values ds' after') :
    ds = ds' ∧ after = after' := by
  induction h generalizing ds' after' with
  | nil =>
    cases h'
    exact ⟨rfl, rfl⟩
  | leaf hv _ ih =>
    cases hv <;>
    · cases h' with
      | leaf _ hrest' =>
        obtain ⟨rfl, rfl⟩ := ih hrest'
        exact ⟨rfl, rfl⟩
  | list _ _ ihitems ih =>
    cases h' with
    | leaf hv' => cases hv'
    | list hitems' hrest' =>
      obtain ⟨rfl, rfl⟩ := ihitems hitems'
      obtain ⟨rfl, rfl⟩ := ih hrest'
      exact ⟨rfl, rfl⟩
  | again hmem _ ih =>
    cases h' with
    | leaf hv' => cases hv'
    | again _ hrest' =>
      obtain ⟨rfl, rfl⟩ := ih hrest'
      exact ⟨rfl, rfl⟩
    | enter hnew' => exact absurd hmem hnew'
  | enter hnew hget _ _ ihfields ih =>
    cases h' with
    | leaf hv' => cases hv'
    | again hmem' => exact absurd hmem' hnew
    | enter _ hget' hfields' hrest' =>
      cases Option.some_inj.mp (hget.symm.trans hget')
      obtain ⟨rfl, rfl⟩ := ihfields hfields'
      obtain ⟨rfl, rfl⟩ := ih hrest'
      exact ⟨rfl, rfl⟩

/-- Values that a walk visits are grounded, if the complete objects are. -/
theorem Walk.grounded (h : g.Walk inline depth written values ds after)
    (hwritten : ∀ k ∈ written, g.Grounded (.object k)) :
    (∀ v ∈ values, g.Grounded v) ∧ ∀ k ∈ after, g.Grounded (.object k) := by
  induction h with
  | nil => exact ⟨by simp, hwritten⟩
  | leaf hv _ ih =>
    obtain ⟨hrest, hafter⟩ := ih hwritten
    exact ⟨List.forall_mem_cons.mpr ⟨.leaf hv, hrest⟩, hafter⟩
  | list _ _ ihitems ih =>
    obtain ⟨hitems, hbetween⟩ := ihitems hwritten
    obtain ⟨hrest, hafter⟩ := ih hbetween
    exact ⟨List.forall_mem_cons.mpr ⟨.list hitems, hrest⟩, hafter⟩
  | again hmem _ ih =>
    obtain ⟨hrest, hafter⟩ := ih hwritten
    exact ⟨List.forall_mem_cons.mpr ⟨hwritten _ hmem, hrest⟩, hafter⟩
  | enter _ hget _ _ ihfields ih =>
    obtain ⟨hfields, hbetween⟩ := ihfields hwritten
    have hobject := Grounded.object hget hfields
    obtain ⟨hrest, hafter⟩ := ih fun k hk =>
      (mem_completing hk).elim (hbetween k) fun hself => hself ▸ hobject
    exact ⟨List.forall_mem_cons.mpr ⟨hobject, hrest⟩, hafter⟩

/-- Walks over each of several values make a walk over all of them. -/
theorem exists_walk_of_each {values : List Value}
    (hvalue : ∀ v ∈ values, ∀ depth written, ∃ ds after, g.Walk inline depth written [v] ds after)
    (depth : Nat) (written : List Handle) :
    ∃ ds after, g.Walk inline depth written values ds after := by
  induction values generalizing written with
  | nil => exact ⟨[], written, .nil⟩
  | cons v rest ih =>
    obtain ⟨hv, hrest⟩ := List.forall_mem_cons.mp hvalue
    obtain ⟨ds, between, hwalk⟩ := hv depth written
    obtain ⟨es, after, hwalk'⟩ := ih hrest between
    exact ⟨_, after, hwalk.append hwalk'⟩

/-- From a grounded value there is a walk. -/
theorem Grounded.exists_walk {v : Value} (hv : g.Grounded v) (depth : Nat)
    (written : List Handle) : ∃ ds after, g.Walk inline depth written [v] ds after := by
  induction hv generalizing depth written with
  | leaf hv => exact ⟨_, written, .leaf hv .nil⟩
  | list _ ih =>
    obtain ⟨ds, after, hwalk⟩ := exists_walk_of_each ih (depth + 1) written
    exact ⟨_, after, .list hwalk .nil⟩
  | @object h _ hget _ ih =>
    by_cases hmem : h ∈ written
    · exact ⟨_, written, .again hmem .nil⟩
    · obtain ⟨ds, after, hwalk⟩ := exists_walk_of_each ih (depth + 1) written
      exact ⟨_, _, .enter hmem hget hwalk .nil⟩

/-- A walk completes only objects that it meets. -/
theorem Walk.mem_after (h : g.Walk inline depth written values ds after) {k : Handle}
    (hk : k ∈ after) : k ∈ written ∨ ∃ v ∈ values, g.Reaches v (.object k) := by
  have hcons : ∀ {v : Value} {rest : List Value}, (∃ w ∈ rest, g.Reaches w (.object k)) →
      ∃ w ∈ v :: rest, g.Reaches w (.object k) :=
    fun ⟨w, hw, hreach⟩ => ⟨w, List.mem_cons_of_mem _ hw, hreach⟩
  induction h with
  | nil => exact .inl hk
  | leaf _ _ ih => exact (ih hk).imp_right hcons
  | list _ _ ihitems ih =>
    rcases ih hk with hk | hk
    · refine (ihitems hk).imp_right fun ⟨w, hw, hreach⟩ => ?_
      exact ⟨_, List.mem_cons_self, .item hw hreach⟩
    · exact .inr (hcons hk)
  | again _ _ ih => exact (ih hk).imp_right hcons
  | enter _ hget _ _ ihfields ih =>
    rcases ih hk with hk | hk
    · rcases mem_completing hk with hk | rfl
      · refine (ihfields hk).imp_right fun ⟨w, hw, hreach⟩ => ?_
        exact ⟨_, List.mem_cons_self, .field hget hw hreach⟩
      · exact .inr ⟨_, List.mem_cons_self, .self _⟩
    · exact .inr (hcons hk)

/-- Among grounded values no object is completed twice. -/
theorem Walk.nodup (h : g.Walk inline depth written values ds after)
    (hvalues : ∀ v ∈ values, g.Grounded v) (hwritten : written.Nodup) : after.Nodup := by
  induction h with
  | nil => exact hwritten
  | leaf _ _ ih => exact ih (List.forall_mem_cons.mp hvalues).2 hwritten
  | list _ _ ihitems ih =>
    obtain ⟨hlist, hrest⟩ := List.forall_mem_cons.mp hvalues
    exact ih hrest (ihitems hlist.items hwritten)
  | again _ _ ih => exact ih (List.forall_mem_cons.mp hvalues).2 hwritten
  | enter hnew hget hwalk _ ihfields ih =>
    obtain ⟨hobject, hrest⟩ := List.forall_mem_cons.mp hvalues
    obtain ⟨o, hget', hfields⟩ := hobject.exists_object
    cases Option.some_inj.mp (hget.symm.trans hget')
    refine ih hrest (nodup_completing (ihfields hfields hwritten) fun hmem => ?_)
    -- an object that its own fields complete would be met inside itself
    rcases hwalk.mem_after hmem with hmem | ⟨v, hv, hreach⟩
    · exact hnew hmem
    · exact hobject.not_onCycle (.self _) ⟨_, hget, v, hv, hreach⟩

end ObjectEnvelope.ObjectGraph
