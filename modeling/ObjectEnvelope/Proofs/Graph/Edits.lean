import ObjectEnvelope.Proofs.Graph.Updates
import ObjectEnvelope.Step

/-!
# Graphs that are edited

A graph is edited by calls that add an object or replace the value of a slot, and that may fail
(`ObjectGraph.Edit`). Each is checked against the graph as it is at the call. What was checked once
goes on to hold, since an edit leaves every object in its place and of its type
(`extends_after_edit`): so every value fits its slot in the graph as it is now, whatever was added
and replaced since (`fits_of_becomes`).
-/

namespace ObjectEnvelope

/-- The name that a reference is declared by, or a list of references, however deep. -/
def ValueType.referenceName? : ValueType → Option String
  | .reference name => some name
  | .list element => element.referenceName?
  | .primitive _ | .any => none

namespace ObjectGraph

variable {g between after later : ObjectGraph} {type : RuntimeType} {values placed : List Value}
  {named : List (String × Value)} {declared : ValueType} {name : String} {h : Handle} {v : Value}
  {o : Instance} {result : Option Handle} {e : WireError}

/-- Where references are declared, every handle is that of an object that the name may stand for. -/
theorem Fits.exists_of_holds (hfits : g.Fits declared v)
    (hname : declared.referenceName? = some name) (hv : v.Holds (.object h)) :
    ∃ o, g.get? h = some o ∧ o.type.isAssignableTo name = true := by
  induction hfits with
  | null => cases Value.holds_null_iff.mp hv
  | primitive => cases hv.eq_self (by simp)
  | constant => cases hv.eq_self (by simp)
  | anyList => cases hname
  | list _ ih =>
    rcases Value.holds_list_iff.mp hv with heq | ⟨u, hu, hv⟩
    · cases heq
    · exact ih u hu hname hv
  | @object declared k o hget haccepts =>
    cases Value.holds_object_iff.mp hv
    cases declared with
    | reference name' =>
      cases hname
      exact ⟨o, hget, haccepts⟩
    | list element => cases haccepts
    | primitive kind => cases haccepts
    | any => cases hname

theorem Extends.refl (g : ObjectGraph) : g.Extends g :=
  fun _ o hget => ⟨o, hget, rfl⟩

theorem Extends.trans (h : g.Extends between) (h' : between.Extends after) : g.Extends after := by
  intro k o hget
  obtain ⟨o', hget', htype⟩ := h k o hget
  obtain ⟨o'', hget'', htype'⟩ := h' k o' hget'
  exact ⟨o'', hget'', htype'.trans htype⟩

/-! ## Named values -/

/-- What the slot at a position gets from named values, the last of several for it. -/
def lastFor? (type : RuntimeType) (named : List (String × Value)) (index : Nat) : Option Value :=
  (named.reverse.find? fun p => type.slotIndex? p.1 == some index).map (·.2)

/-- The values of all slots, those without a named value being without any. -/
def valuesOf (type : RuntimeType) (named : List (String × Value)) : List Value :=
  (List.range type.slots.length).map fun index => (lastFor? type named index).getD .null

theorem lastFor?_cons (name : String) (v : Value) (named : List (String × Value)) (index : Nat) :
    lastFor? type ((name, v) :: named) index =
      (lastFor? type named index).or
        (if type.slotIndex? name = some index then some v else none) := by
  unfold lastFor?
  rw [List.reverse_cons, List.find?_append, Option.map_or, List.find?_singleton]
  by_cases hindex : type.slotIndex? name = some index <;> simp [hindex]

/-- A slot gets the last value that is named for it, and keeps the one it has for want of any. -/
theorem getElem?_of_place (h : place type named values = .ok placed) (index : Nat) :
    placed[index]? = values[index]?.map ((lastFor? type named index).getD ·) := by
  induction named generalizing values with
  | nil =>
    cases h
    simp [lastFor?]
  | cons first rest ih =>
    obtain ⟨name, value⟩ := first
    obtain ⟨position, hposition, hrest⟩ := Outcome.bind_eq_ok_iff.mp h
    rw [slotCalled_eq_ok_iff] at hposition
    rw [ih hrest, List.getElem?_set, lastFor?_cons, hposition]
    by_cases heq : position = index
    · subst heq
      by_cases hlt : position < values.length
      · cases lastFor? type rest position <;> simp [hlt]
      · simp [hlt]
    · simp [heq]

theorem exists_place_iff :
    (∃ placed, place type named values = .ok placed) ↔
      ∀ p ∈ named, (type.slotIndex? p.1).isSome = true := by
  induction named generalizing values with
  | nil => simp [place]
  | cons first rest ih =>
    obtain ⟨name, value⟩ := first
    simp only [place, Outcome.bind_eq_ok_iff, slotCalled_eq_ok_iff]
    rw [List.forall_mem_cons]
    constructor
    · rintro ⟨placed, position, hposition, hrest⟩
      exact ⟨Option.isSome_of_eq_some hposition, ih.mp ⟨placed, hrest⟩⟩
    · rintro ⟨hname, hrest⟩
      obtain ⟨position, hposition⟩ := Option.isSome_iff_exists.mp hname
      obtain ⟨placed, hplaced⟩ := ih.mpr hrest
      exact ⟨placed, position, hposition, hplaced⟩

/-- Named values fill the slots of a new object exactly if each name is that of a slot. -/
theorem place_null_eq_ok_iff :
    place type named (List.replicate type.slots.length .null) = .ok placed ↔
      (∀ p ∈ named, (type.slotIndex? p.1).isSome = true) ∧ placed = valuesOf type named := by
  have heq : ∀ placed, place type named (List.replicate type.slots.length .null) = .ok placed →
      placed = valuesOf type named := by
    intro placed hplace
    apply List.ext_getElem?
    intro index
    rw [getElem?_of_place hplace, valuesOf, List.getElem?_map]
    by_cases hindex : index < type.slots.length
    · simp [hindex]
    · simp [hindex]
  constructor
  · intro hplace
    exact ⟨exists_place_iff.mp ⟨placed, hplace⟩, heq placed hplace⟩
  · rintro ⟨hnames, rfl⟩
    obtain ⟨placed, hplace⟩ := exists_place_iff.mpr hnames
    exact heq placed hplace ▸ hplace

/-! ## What an edit changes -/

/-- The graph with one object more, at the end. -/
structure Gains (g after : ObjectGraph) (o : Instance) : Prop where
  size : after.size = g.size + 1
  new : after.get? ⟨g.size⟩ = some o
  others : ∀ k, k ≠ ⟨g.size⟩ → after.get? k = g.get? k

theorem gains_of_instantiate (hnew : g.instantiate type values = .ok (h, after)) :
    h = ⟨g.size⟩ ∧ g.Gains after ⟨type, values⟩ := by
  obtain ⟨-, -, -, -, rfl, rfl⟩ := instantiate_eq_ok_iff.mp hnew
  refine ⟨rfl, by simp [size], ?_, fun k hk => ?_⟩
  · rw [get?_push, if_pos rfl]
  · rw [get?_push, if_neg fun hindex => hk (congrArg Handle.mk hindex)]

theorem extends_of_instantiate (hnew : g.instantiate type values = .ok (h, after)) :
    g.Extends after := by
  obtain ⟨-, -, -, -, -, rfl⟩ := instantiate_eq_ok_iff.mp hnew
  exact extends_push g _

/-- The graph with another value in the slot of one object that is called `name`. -/
structure Replaces (g after : ObjectGraph) (h : Handle) (name : String) (v : Value) : Prop where
  size : after.size = g.size
  others : ∀ k, k ≠ h → after.get? k = g.get? k
  slot : ∃ o index, g.get? h = some o ∧ o.type.slotIndex? name = some index ∧
    index < o.fields.length ∧ after.get? h = some { o with fields := o.fields.set index v }

theorem replaces_of_setField (hg : g.WellFormed) (hset : g.setField h name v = .ok after) :
    g.Replaces after h name v := by
  obtain ⟨o, index, slot, hget, hindex, hslot, -, rfl⟩ := setField_eq_ok_iff.mp hset
  refine ⟨by simp [size], fun k hk => ?_, o, index, hget, hindex, ?_, ?_⟩
  · rw [get?_set hget, if_neg hk]
  · rw [(hg.object h o hget).length_fields]
    exact (List.getElem?_eq_some_iff.mp hslot).1
  · rw [get?_set hget, if_pos rfl]

theorem extends_of_setField (hset : g.setField h name v = .ok after) : g.Extends after := by
  obtain ⟨o, index, slot, hget, -, -, -, rfl⟩ := setField_eq_ok_iff.mp hset
  exact extends_set hget rfl

/-! ## Edits -/

/-- A call that edits a graph. -/
inductive Edit where
  | instantiate (type : RuntimeType) (values : List Value)
  | instantiateNamed (type : RuntimeType) (named : List (String × Value))
  | setField (h : Handle) (name : String) (v : Value)

namespace Edit

/-- What the call comes to: the handle of what it adds, if it adds an object, and the graph. -/
def outcome (g : ObjectGraph) : Edit → Except WireError (Option Handle × ObjectGraph)
  | .instantiate type values => do
    let (h, after) ← g.instantiate type values
    return (some h, after)
  | .instantiateNamed type named => do
    let (h, after) ← g.instantiateNamed type named
    return (some h, after)
  | .setField h name v => do
    let after ← g.setField h name v
    return (none, after)

/-- The call, as a step of the graph. -/
def run (edit : Edit) : Step ObjectGraph (Option Handle) := do
  let (result, after) ← Step.ofExcept (edit.outcome (← get))
  set after
  return result

variable {edit : Edit}

theorem run_eq_ok_iff : edit.run g = .ok result after ↔ edit.outcome g = .ok (result, after) := by
  simp only [run, Step.bind_eq_ok_iff, Step.get_eq_ok_iff, Step.ofExcept_eq_ok_iff,
    Step.set_eq_ok_iff, Step.pure_eq_ok_iff]
  constructor
  · rintro ⟨_, _, ⟨rfl, rfl⟩, _, _, ⟨houtcome, rfl⟩, _, _, rfl, rfl, rfl⟩
    exact houtcome
  · intro houtcome
    exact ⟨g, g, ⟨rfl, rfl⟩, (result, after), g, ⟨houtcome, rfl⟩, ⟨⟩, after, rfl, rfl, rfl⟩

/-- A call that fails leaves the graph as it is. -/
theorem eq_of_run_eq_error (hrun : edit.run g = .error e after) : after = g := by
  simp only [run, Step.bind_eq_error_iff, Step.get_ne_error, Step.get_eq_ok_iff,
    Step.ofExcept_eq_error_iff, Step.set_ne_error, Step.pure_ne_error, and_false, exists_false,
    false_or, or_false] at hrun
  obtain ⟨_, _, ⟨rfl, rfl⟩, -, rfl⟩ := hrun
  rfl

theorem run_instantiate_eq_ok_iff :
    (instantiate type values).run g = .ok result after ↔
      ∃ h, g.instantiate type values = .ok (h, after) ∧ result = some h := by
  rw [run_eq_ok_iff]
  simp only [outcome, Outcome.bind_eq_ok_iff, Outcome.pure_eq_ok_iff, Prod.mk.injEq]
  constructor
  · rintro ⟨⟨h, _⟩, hnew, rfl, rfl⟩
    exact ⟨h, hnew, rfl⟩
  · rintro ⟨h, hnew, rfl⟩
    exact ⟨(h, after), hnew, rfl, rfl⟩

/-- An object is added exactly if its values fit their slots and a handle is left for it. -/
theorem exists_run_instantiate_iff :
    (∃ result after, (instantiate type values).run g = .ok result after) ↔
      g.FitsObject ⟨type, values⟩ ∧ g.size < capacity := by
  simp only [run_instantiate_eq_ok_iff, instantiate_eq_ok_iff]
  constructor
  · rintro ⟨_, _, h, ⟨htype, hlength, hslots, hsize, -, -⟩, -⟩
    exact ⟨⟨by simpa [RuntimeType.isInstantiable] using htype, hlength, hslots⟩, hsize⟩
  · rintro ⟨hobject, hsize⟩
    have htype : type.isInstantiable = true := by
      simpa [RuntimeType.isInstantiable] using hobject.composite
    exact ⟨_, _, _, ⟨htype, hobject.length_fields, hobject.fits, hsize, rfl, rfl⟩, rfl⟩

theorem gains_of_run_instantiate (hrun : (instantiate type values).run g = .ok result after) :
    result = some ⟨g.size⟩ ∧ g.Gains after ⟨type, values⟩ := by
  obtain ⟨h, hnew, rfl⟩ := run_instantiate_eq_ok_iff.mp hrun
  obtain ⟨rfl, hgains⟩ := gains_of_instantiate hnew
  exact ⟨rfl, hgains⟩

theorem run_instantiateNamed_eq_ok_iff :
    (instantiateNamed type named).run g = .ok result after ↔
      (∀ p ∈ named, (type.slotIndex? p.1).isSome = true) ∧
        (instantiate type (valuesOf type named)).run g = .ok result after := by
  rw [run_eq_ok_iff, run_instantiate_eq_ok_iff]
  simp only [outcome, Outcome.bind_eq_ok_iff, Outcome.pure_eq_ok_iff, Prod.mk.injEq]
  constructor
  · rintro ⟨⟨h, _⟩, hnew, rfl, rfl⟩
    obtain ⟨values, hplace, hnew⟩ := instantiateNamed_eq_ok_iff.mp hnew
    obtain ⟨hnames, rfl⟩ := place_null_eq_ok_iff.mp hplace
    exact ⟨hnames, h, hnew, rfl⟩
  · rintro ⟨hnames, h, hnew, rfl⟩
    have hplace := place_null_eq_ok_iff.mpr ⟨hnames, rfl⟩
    exact ⟨(h, after), instantiateNamed_eq_ok_iff.mpr ⟨_, hplace, hnew⟩, rfl, rfl⟩

theorem run_setField_eq_ok_iff :
    (setField h name v).run g = .ok result after ↔
      g.setField h name v = .ok after ∧ result = none := by
  rw [run_eq_ok_iff]
  simp only [outcome, Outcome.bind_eq_ok_iff, Outcome.pure_eq_ok_iff, Prod.mk.injEq]
  constructor
  · rintro ⟨_, hset, rfl, rfl⟩
    exact ⟨hset, rfl⟩
  · rintro ⟨hset, rfl⟩
    exact ⟨after, hset, rfl, rfl⟩

/-- A value is replaced exactly if the object has the slot and the value fits it. -/
theorem exists_run_setField_iff :
    (∃ result after, (setField h name v).run g = .ok result after) ↔
      ∃ o index slot, g.get? h = some o ∧ o.type.slotIndex? name = some index ∧
        o.type.slots[index]? = some slot ∧ g.FitsSlot slot v := by
  simp only [run_setField_eq_ok_iff, setField_eq_ok_iff]
  constructor
  · rintro ⟨_, _, ⟨o, index, slot, hget, hindex, hslot, hfits, -⟩, -⟩
    exact ⟨o, index, slot, hget, hindex, hslot, hfits⟩
  · rintro ⟨o, index, slot, hget, hindex, hslot, hfits⟩
    exact ⟨_, _, ⟨o, index, slot, hget, hindex, hslot, hfits, rfl⟩, rfl⟩

/-- An edit leaves the graph as it is, adds an object to it or replaces the value of a slot. -/
theorem run_cases (edit : Edit) (g : ObjectGraph) :
    edit.run.after g = g ∨
      (∃ type values h, g.instantiate type values = .ok (h, edit.run.after g)) ∨
      ∃ h name v, g.setField h name v = .ok (edit.run.after g) := by
  cases hrun : edit.run g with
  | error e after =>
    rw [Step.after_of_error hrun]
    exact .inl (eq_of_run_eq_error hrun)
  | ok result after =>
    rw [Step.after_of_ok hrun]
    cases edit with
    | instantiate type values =>
      obtain ⟨h, hnew, -⟩ := run_instantiate_eq_ok_iff.mp hrun
      exact .inr (.inl ⟨type, values, h, hnew⟩)
    | instantiateNamed type named =>
      obtain ⟨-, hrun⟩ := run_instantiateNamed_eq_ok_iff.mp hrun
      obtain ⟨h, hnew, -⟩ := run_instantiate_eq_ok_iff.mp hrun
      exact .inr (.inl ⟨type, valuesOf type named, h, hnew⟩)
    | setField h name v =>
      obtain ⟨hset, -⟩ := run_setField_eq_ok_iff.mp hrun
      exact .inr (.inr ⟨h, name, v, hset⟩)

end Edit

/-- An edit leaves every object in its place and of its type. -/
theorem extends_after_edit (edit : Edit) (g : ObjectGraph) : g.Extends (edit.run.after g) := by
  rcases edit.run_cases g with hsame | ⟨type, values, h, hnew⟩ | ⟨h, name, v, hset⟩
  · rw [hsame]
    exact .refl g
  · exact extends_of_instantiate hnew
  · exact extends_of_setField hset

/-- A graph that was built goes on to be one, edit by edit. -/
theorem Built.edit (hg : g.Built) (edit : Edit) : (edit.run.after g).Built := by
  rcases edit.run_cases g with hsame | ⟨type, values, h, hnew⟩ | ⟨h, name, v, hset⟩
  · rw [hsame]
    exact hg
  · exact hg.instantiate hnew
  · exact hg.setField hset

/-! ## Histories -/

/-- The graphs that edits lead to, failed ones included. -/
inductive Becomes (g : ObjectGraph) : ObjectGraph → Prop
  | refl : Becomes g g
  | edit {between : ObjectGraph} (edit : Edit) (h : Becomes g between) :
      Becomes g (edit.run.after between)

theorem Becomes.built (h : g.Becomes later) (hg : g.Built) : later.Built := by
  induction h with
  | refl => exact hg
  | edit edit _ ih => exact ih.edit edit

theorem extends_of_becomes (h : g.Becomes later) : g.Extends later := by
  induction h with
  | refl => exact .refl g
  | edit edit _ ih => exact ih.trans (extends_after_edit edit _)

/-- **Graphs and their edits.** However a graph came to be, its objects are of composite types and
have a value for each slot, which passes the check of the slot in the graph as it is now; where
references are declared, no handle dangles and none is that of an object the name does not stand
for. A call succeeds exactly if what it stores fits, and then adds a single object or replaces the
value of a single slot; one that fails leaves the graph as it is. To name the values of an object
is to list them, each in its slot. No object ever leaves its place or changes its type. -/
theorem fits_of_becomes (hg : empty.Becomes g) :
    (∀ k o, g.get? k = some o →
      o.type.kind = .composite ∧ o.fields.length = o.type.slots.length ∧
      ∀ p ∈ o.type.slots.zip o.fields,
        g.checkSlot o.type.name p.1 p.2 = .ok () ∧ g.FitsSlot p.1 p.2 ∧
        ∀ name, p.1.type.referenceName? = some name → ∀ j, p.2.Holds (.object j) →
          ∃ target, g.get? j = some target ∧ target.type.isAssignableTo name = true) ∧
    (∀ (edit : Edit) e after, edit.run g = .error e after → after = g) ∧
    (∀ type values,
      ((∃ result after, (Edit.instantiate type values).run g = .ok result after) ↔
        g.FitsObject ⟨type, values⟩ ∧ g.size < capacity) ∧
      ∀ result after, (Edit.instantiate type values).run g = .ok result after →
        result = some ⟨g.size⟩ ∧ g.Gains after ⟨type, values⟩) ∧
    (∀ type named result after, (Edit.instantiateNamed type named).run g = .ok result after ↔
      (∀ p ∈ named, (type.slotIndex? p.1).isSome = true) ∧
        (Edit.instantiate type (valuesOf type named)).run g = .ok result after) ∧
    (∀ h name v,
      ((∃ result after, (Edit.setField h name v).run g = .ok result after) ↔
        ∃ o index slot, g.get? h = some o ∧ o.type.slotIndex? name = some index ∧
          o.type.slots[index]? = some slot ∧ g.FitsSlot slot v) ∧
      ∀ result after, (Edit.setField h name v).run g = .ok result after →
        result = none ∧ g.Replaces after h name v) ∧
    ∀ later, g.Becomes later → g.Extends later := by
  have hwf := (hg.built .empty).wellFormed
  refine ⟨fun k o hget => ?_, fun edit e after => Edit.eq_of_run_eq_error,
    fun type values => ⟨Edit.exists_run_instantiate_iff, fun result after =>
      Edit.gains_of_run_instantiate⟩,
    fun type named result after => Edit.run_instantiateNamed_eq_ok_iff,
    fun h name v => ⟨Edit.exists_run_setField_iff, fun result after hrun => ?_⟩,
    fun later => extends_of_becomes⟩
  · have hobject := hwf.object k o hget
    refine ⟨hobject.composite, hobject.length_fields, fun p hp => ?_⟩
    have hfits := hobject.fits p hp
    exact ⟨checkSlot_eq_ok_iff.mpr hfits, hfits, fun name hname j => hfits.1.exists_of_holds hname⟩
  · obtain ⟨hset, hresult⟩ := Edit.run_setField_eq_ok_iff.mp hrun
    exact ⟨hresult, replaces_of_setField hwf hset⟩

/-- A link of a chain. -/
def link : Descriptor :=
  ⟨Declaration.toLevel
      ⟨"Link", .composite, [⟨"next", .reference "Link", true, fun _ => rfl⟩], []⟩ [], [],
    Declaration.sealed_toLevel (by decide) (by decide) trivial⟩

/-- The link as a runtime type. -/
def linkType : RuntimeType :=
  .ofDescriptor ⟨.known, 0, 0⟩ link.digest link (by decide)

/-- A chain of two links. -/
def chain : ObjectGraph :=
  (Edit.run (.instantiateNamed linkType [("next", .object ⟨0⟩)])).after
    ((Edit.run (.instantiate linkType [.null])).after empty)

/-- A chain that is closed to a ring. -/
def ring : ObjectGraph :=
  (Edit.run (.setField ⟨0⟩ "next" (.object ⟨1⟩))).after chain

/-- In the ring each link refers to a link, and a link that is not there is refused. -/
theorem fits_of_becomes_ring :
    (∀ k o, ring.get? k = some o → ∀ p ∈ o.type.slots.zip o.fields,
      p.1.type.referenceName? = some "Link" → ∀ j, p.2.Holds (.object j) →
        ∃ target, ring.get? j = some target ∧ target.type.isAssignableTo "Link" = true) ∧
    (∃ e, (Edit.setField ⟨0⟩ "next" (.object ⟨2⟩)).run ring = .error e ring) ∧
    chain.field? ⟨0⟩ "next" = some .null ∧ ring.field? ⟨0⟩ "next" = some (.object ⟨1⟩) := by
  have hring : empty.Becomes ring := .edit _ (.edit _ (.edit _ .refl))
  obtain ⟨hobjects, hfails, -⟩ := fits_of_becomes hring
  refine ⟨fun k o hget p hp hname => ?_, ?_, rfl, rfl⟩
  · exact ((hobjects k o hget).2.2 p hp).2.2 "Link" hname
  · obtain ⟨e, after, hrun, -⟩ := Step.exists_of_failure?
      (show Step.failure? (Edit.setField ⟨0⟩ "next" (.object ⟨2⟩)).run ring =
        some .notSerializable by decide +kernel)
    exact ⟨e, hfails _ e after hrun ▸ hrun⟩

end ObjectGraph

end ObjectEnvelope
