import Mathlib.Data.List.Nodup
import Mathlib.Data.List.Perm.Subperm
import ObjectEnvelope.Proofs.Graph.Reach
import ObjectEnvelope.Proofs.Graph.Updates

/-!
# Grounded values

A value is grounded when the way down from it ends everywhere: every handle on it names an object,
and no object is met inside itself. In a graph, which has finitely many objects, these two
conditions are enough (`grounded_of_not_onCycle`).
-/

namespace ObjectEnvelope

/-- The value has no parts. -/
inductive Value.IsLeaf : Value → Prop
  | null : IsLeaf .null
  | primitive (p : Primitive) : IsLeaf (.primitive p)
  | constant (c : Constant) : IsLeaf (.constant c)

namespace ObjectGraph

/-- The way down from the value ends everywhere, in values without parts. -/
inductive Grounded (g : ObjectGraph) : Value → Prop
  | leaf {v : Value} (hv : v.IsLeaf) : Grounded g v
  | list {items : List Value} (hitems : ∀ v ∈ items, Grounded g v) : Grounded g (.list items)
  | object {h : Handle} {o : Instance} (hget : g.get? h = some o)
      (hfields : ∀ v ∈ o.fields, Grounded g v) : Grounded g (.object h)

variable {g : ObjectGraph}

theorem Grounded.items {items : List Value} (h : g.Grounded (.list items)) :
    ∀ v ∈ items, g.Grounded v := by
  cases h with
  | leaf hv => cases hv
  | list hitems => exact hitems

theorem Grounded.exists_object {h : Handle} (hv : g.Grounded (.object h)) :
    ∃ o, g.get? h = some o ∧ ∀ v ∈ o.fields, g.Grounded v := by
  cases hv with
  | leaf hv => cases hv
  | object hget hfields => exact ⟨_, hget, hfields⟩

theorem Grounded.of_reaches {v w : Value} (hreach : g.Reaches v w) (hv : g.Grounded v) :
    g.Grounded w := by
  induction hreach with
  | self => exact hv
  | item hmem _ ih => exact ih (hv.items _ hmem)
  | field hget hmem _ ih =>
    obtain ⟨o, hget', hfields⟩ := hv.exists_object
    rw [hget] at hget'
    cases hget'
    exact ih (hfields _ hmem)

/-- Below a grounded value nothing is met inside itself. -/
theorem Grounded.not_onCycle {v : Value} (hv : g.Grounded v) {h : Handle}
    (hreach : g.Reaches v (.object h)) : ¬ g.OnCycle h := by
  induction hv generalizing h with
  | leaf hv =>
    cases hv <;> cases hreach
  | list _ ih =>
    rcases reaches_list_iff.mp hreach with hself | ⟨v, hv, hreach⟩
    · cases hself
    · exact ih v hv hreach
  | object hget _ ih =>
    rcases (reaches_object_iff hget).mp hreach with hself | ⟨v, hv, hreach⟩
    · cases hself
      rintro ⟨o, hget', v, hv, hback⟩
      rw [hget] at hget'
      cases hget'
      exact ih v hv hback ⟨_, hget, v, hv, hback⟩
    · exact ih v hv hreach

/-- Grounded values may stand wherever anything may stand. -/
theorem Grounded.fits_any {v : Value} (hv : g.Grounded v) : g.Fits .any v := by
  cases hv with
  | leaf hv =>
    cases hv with
    | null => exact .null rfl
    | primitive p => exact .primitive rfl
    | constant c => exact .constant rfl
  | list _ => exact .anyList _
  | object hget _ => exact .object hget rfl

theorem nodup_handles {g : ObjectGraph} : g.handles.Nodup :=
  List.nodup_range.map fun _ _ => congrArg Handle.index

/-- A graph has no more objects than its size. -/
theorem length_le_size {handles : List Handle} (hnodup : handles.Nodup)
    (hpresent : ∀ h ∈ handles, h.index < g.size) : handles.length ≤ g.size := by
  have hinjective : (handles.map (·.index)).Nodup := by
    refine List.Nodup.map (fun a b hab => ?_) hnodup
    cases a
    cases b
    exact congrArg Handle.mk hab
  have hsubset : handles.map (·.index) ⊆ List.range g.size := by
    intro index hindex
    obtain ⟨h, hh, rfl⟩ := List.mem_map.mp hindex
    exact List.mem_range.mpr (hpresent h hh)
  simpa using (List.subperm_of_subset hinjective hsubset).length_le

/-- The object leads down to the value: it is met on the way from a field. -/
def LeadsTo (g : ObjectGraph) (k : Handle) (v : Value) : Prop :=
  ∃ o, g.get? k = some o ∧ ∃ w ∈ o.fields, g.Reaches w v

theorem LeadsTo.reaches {k : Handle} {v : Value} (h : g.LeadsTo k v) : g.Reaches (.object k) v := by
  obtain ⟨o, hget, w, hw, hreach⟩ := h
  exact .field hget hw hreach

theorem LeadsTo.trans {k : Handle} {v w : Value} (h : g.LeadsTo k v) (hreach : g.Reaches v w) :
    g.LeadsTo k w := by
  obtain ⟨o, hget, u, hu, hreach'⟩ := h
  exact ⟨o, hget, u, hu, hreach'.trans hreach⟩

theorem LeadsTo.field {h : Handle} {o : Instance} (hget : g.get? h = some o) {v : Value}
    (hv : v ∈ o.fields) : g.LeadsTo h v :=
  ⟨o, hget, v, hv, .self v⟩

theorem leadsTo_of_mem_successors {h k : Handle} (hk : k ∈ g.successors h) :
    g.LeadsTo h (.object k) := by
  unfold successors at hk
  split at hk
  · next o hget =>
    rw [Value.handlesOfAll_eq_flatMap, List.mem_flatMap] at hk
    obtain ⟨v, hv, hk⟩ := hk
    exact ⟨o, hget, v, hv, reaches_of_mem_handles hk⟩
  · cases hk

/-- Without dangling handles and cycles the way down ends: the objects above a value are distinct,
and a graph has only so many. -/
theorem grounded_of_not_onCycle {v : Value}
    (hpresent : ∀ h, g.Reaches v (.object h) → (g.get? h).isSome = true)
    (hacyclic : ∀ h, g.Reaches v (.object h) → ¬ g.OnCycle h) : g.Grounded v := by
  suffices hgeneral : ∀ room (path : List Handle), path.Nodup →
      (∀ k ∈ path, k.index < g.size) → g.size < room + path.length →
      ∀ w, g.Reaches v w → (∀ k ∈ path, g.LeadsTo k w) → g.Grounded w from
    hgeneral (g.size + 1) [] .nil (by simp) (by simp) v (.self v) (by simp)
  intro room
  induction room with
  | zero =>
    intro path hnodup hindex hlt
    have hle := length_le_size hnodup hindex
    omega
  | succ room ih =>
    intro path hnodup hindex hlt w
    -- the items of a list have the same objects above them
    induction w using Value.induct with
    | null => exact fun _ _ => .leaf .null
    | primitive p => exact fun _ _ => .leaf (.primitive p)
    | constant c => exact fun _ _ => .leaf (.constant c)
    | list items ihitems =>
      intro hreach hpath
      refine .list fun u hu => ?_
      have hitem : g.Reaches (.list items) u := .item hu (.self u)
      exact ihitems u hu (hreach.trans hitem) fun k hk => (hpath k hk).trans hitem
    | object h =>
      intro hreach hpath
      obtain ⟨o, hget⟩ := Option.isSome_iff_exists.mp (hpresent h hreach)
      have hfresh : h ∉ path := fun hmem => hacyclic h hreach (hpath h hmem)
      refine .object hget fun u hu => ?_
      have hfield : g.Reaches (.object h) u := .field hget hu (.self u)
      refine ih (h :: path) (List.nodup_cons.mpr ⟨hfresh, hnodup⟩) ?_ ?_ u (hreach.trans hfield) ?_
      · rw [List.forall_mem_cons]
        exact ⟨get?_eq_some_lt hget, hindex⟩
      · rw [List.length_cons]
        omega
      · rw [List.forall_mem_cons]
        exact ⟨.field hget hu, fun k hk => (hpath k hk).trans hfield⟩

end ObjectGraph

end ObjectEnvelope
