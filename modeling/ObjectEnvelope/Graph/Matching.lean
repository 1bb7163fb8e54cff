import ObjectEnvelope.Graph.ObjectGraph

/-!
# Matching of graphs

Two values in two graphs match when the objects reached from them can be paired, one to one, so that
paired objects have types of one digest and matching slots. The pairing is built along the way: an
object met again must be met together with its partner.

Every step down into a pair of objects pairs one more object of the left graph, and a pairing only
grows, so `Pairing.unpaired` bounds the depth of the walk. For the walk to know this while it is
going on, it returns a pairing together with the fact that it extends the one it was given.
-/

namespace ObjectEnvelope

/-- The pairs of objects found to belong together, the latest first. -/
structure Pairing where
  pairs : List (Handle × Handle)

namespace Pairing

/-- The pairing without pairs. -/
def empty : Pairing := ⟨[]⟩

/-- The partner of an object of the left graph. -/
def right? (p : Pairing) (x : Handle) : Option Handle :=
  (p.pairs.find? (·.1 == x)).map (·.2)

/-- The partner of an object of the right graph. -/
def left? (p : Pairing) (y : Handle) : Option Handle :=
  (p.pairs.find? (·.2 == y)).map (·.1)

/-- The pairing with one more pair. -/
def add (p : Pairing) (x y : Handle) : Pairing :=
  ⟨(x, y) :: p.pairs⟩

/-! ## Extensions -/

/-- The second pairing has the pairs of the first, and may have later ones. -/
def Extends (p q : Pairing) : Prop :=
  p.pairs <:+ q.pairs

/-- A pairing that extends another. -/
abbrev Extension (p : Pairing) := { q : Pairing // p.Extends q }

variable {p q r : Pairing} {x y : Handle}

theorem Extends.refl (p : Pairing) : p.Extends p :=
  List.suffix_refl _

theorem Extends.trans (hpq : p.Extends q) (hqr : q.Extends r) : p.Extends r :=
  List.IsSuffix.trans hpq hqr

theorem extends_add (p : Pairing) (x y : Handle) : p.Extends (p.add x y) :=
  List.suffix_cons _ _

theorem right?_eq_none_iff : p.right? x = none ↔ ∀ pair ∈ p.pairs, pair.1 ≠ x := by
  simp [right?]

/-- The number of objects of the left graph that have no partner. -/
def unpaired (left : ObjectGraph) (p : Pairing) : Nat :=
  (List.range left.size).countP fun index => (p.right? ⟨index⟩).isNone

/-- What is without a partner in an extension was without one before. -/
theorem Extends.isNone_right? (h : p.Extends q) (hx : (q.right? x).isNone) :
    (p.right? x).isNone := by
  rw [Option.isNone_iff_eq_none, right?_eq_none_iff] at hx ⊢
  exact fun pair hpair => hx pair (List.IsSuffix.subset h hpair)

theorem Extends.unpaired_le (left : ObjectGraph) (h : p.Extends q) :
    unpaired left q ≤ unpaired left p :=
  List.countP_mono_left fun _ _ hx => h.isNone_right? hx

/-- A stricter test, failed by some item that passes the other, is passed by fewer items. -/
theorem countP_lt_countP {α : Type} {weak strict : α → Bool} {items : List α}
    (himp : ∀ i ∈ items, strict i = true → weak i = true) {i : α} (hi : i ∈ items)
    (hweak : weak i = true) (hstrict : strict i = false) :
    items.countP strict < items.countP weak := by
  obtain ⟨before, after, rfl⟩ := List.append_of_mem hi
  have hbefore : before.countP strict ≤ before.countP weak :=
    List.countP_mono_left fun j hj => himp j (List.mem_append_left _ hj)
  have hafter : after.countP strict ≤ after.countP weak :=
    List.countP_mono_left fun j hj => himp j (List.mem_append_right _ (.tail _ hj))
  rw [List.countP_append, List.countP_append, List.countP_cons_of_pos hweak,
    List.countP_cons_of_neg (by simp [hstrict])]
  omega

/-- A further pair leaves fewer objects without a partner. -/
theorem unpaired_add_lt {left : ObjectGraph} {a : Instance} (hfree : p.right? x = none)
    (hget : left.get? x = some a) (y : Handle) : unpaired left (p.add x y) < unpaired left p := by
  have hlt : x.index < left.size := (Array.getElem?_eq_some_iff.mp hget).1
  refine countP_lt_countP (fun _ _ hz => (extends_add p x y).isNone_right? hz)
    (List.mem_range.mpr hlt) ?_ ?_
  · rw [hfree]
    rfl
  · simp [right?, add]

end Pairing

namespace ObjectGraph

mutual

/-- Matches two values, where `hop` matches objects and the state goes from match to match. -/
def matchValue {σ : Type} (hop : Handle → Handle → σ → Option σ) :
    Value → Value → σ → Option σ
  | .object x, .object y, s => hop x y s
  | .list xs, .list ys, s => matchValues hop xs ys s
  | a, b, s => if a.same b then some s else none

/-- Matches two lists of values, item by item. -/
def matchValues {σ : Type} (hop : Handle → Handle → σ → Option σ) :
    List Value → List Value → σ → Option σ
  | [], [], s => some s
  | a :: as, b :: bs, s => (matchValue hop a b s).bind (matchValues hop as bs)
  | _, _, _ => none

end

/-- Matches two objects. Objects that are met for the first time become partners before their fields
are looked at, so that the way back to them from the fields must lead to both. -/
def matchObject (left right : ObjectGraph) (x y : Handle) (p : Pairing) : Option p.Extension :=
  match hx : p.right? x, p.left? y with
  | some y', some x' => if y' = y ∧ x' = x then some ⟨p, .refl p⟩ else none
  | none, none =>
    match ha : left.get? x, right.get? y with
    | some a, some b =>
      if a.type.digest = b.type.digest then
        let hop (x' y' : Handle) (q : (p.add x y).Extension) : Option (p.add x y).Extension :=
          have : Pairing.unpaired left q.1 < Pairing.unpaired left p :=
            Nat.lt_of_le_of_lt (q.2.unpaired_le left)
              (Pairing.unpaired_add_lt hx ha y)
          (matchObject left right x' y' q.1).map fun r => ⟨r.1, q.2.trans r.2⟩
        (matchValues hop a.fields b.fields ⟨p.add x y, .refl _⟩).map fun q =>
          ⟨q.1, (p.extends_add x y).trans q.2⟩
      else none
    | _, _ => none
  | _, _ => none
termination_by Pairing.unpaired left p

/-- Matches two objects, whatever pairs there are. -/
def matchPair (left right : ObjectGraph) (x y : Handle) (p : Pairing) : Option Pairing :=
  (matchObject left right x y p).map (·.1)

/-- Whether two values, each in its graph, match. -/
def sameStructure (left : ObjectGraph) (a : Value) (right : ObjectGraph) (b : Value) : Bool :=
  (matchValue (matchPair left right) a b .empty).isSome

end ObjectGraph

end ObjectEnvelope
