import Mathlib.Data.Set.Function
import ObjectEnvelope.Proofs.Graph.Matches

/-!
# Isomorphic graphs

Matching decides whether two rooted graphs are isomorphic (`sameStructure_iff`). That it finds only
isomorphisms is a matter of what a pairing owes: objects become partners before their fields are
looked at, so what a match leaves behind is that the fields of every pair it has added match along
the pairing it ends with (`Settles`). That it finds every isomorphism is a matter of what a pairing
contains: as long as all pairs belong to an isomorphism, the next ones do (`Follows`).
-/

namespace ObjectEnvelope.ObjectGraph

open Pairing (unpaired)

variable {link : Handle → Handle → Prop} {v w a b : Value} {left right : ObjectGraph}
  {p q r : Pairing} {x y : Handle}

/-- The objects that the two roots lead to correspond one to one, and they and the roots match along
that correspondence. -/
structure IsIsomorphism (left : ObjectGraph) (a : Value) (right : ObjectGraph) (b : Value)
    (image : Handle → Handle) : Prop where
  bijective : Set.BijOn image {x | left.Reaches a (.object x)} {y | right.Reaches b (.object y)}
  root_matches : a.Matches (fun x y => image x = y) b
  object_matches : ∀ x, left.Reaches a (.object x) → ∃ o o', left.get? x = some o ∧
    right.get? (image x) = some o' ∧ o.Matches (fun x y => image x = y) o'

/-! ## What a match leaves behind -/

/-- The second pairing extends the first by pairs whose objects match along the second, and gives
nobody a second partner. -/
structure Settles (left right : ObjectGraph) (p q : Pairing) : Prop where
  grown : p.Extends q
  oneToOne : p.OneToOne → q.OneToOne
  added : ∀ x y, q.Linked x y → p.Linked x y ∨
    ∃ o o', left.get? x = some o ∧ right.get? y = some o' ∧ o.Matches q.Linked o'

theorem Settles.refl (p : Pairing) : Settles left right p p :=
  ⟨.refl p, id, fun _ _ => .inl⟩

theorem Settles.trans (hpq : Settles left right p q) (hqr : Settles left right q r) :
    Settles left right p r where
  grown := hpq.grown.trans hqr.grown
  oneToOne h := hqr.oneToOne (hpq.oneToOne h)
  added x y hxy := by
    rcases hqr.added x y hxy with hxy | hmatch
    · rcases hpq.added x y hxy with hxy | ⟨o, o', ho, ho', hmatch⟩
      · exact .inl hxy
      · exact .inr ⟨o, o', ho, ho', hmatch.mono fun _ _ h => h.extends hqr.grown⟩
    · exact .inr hmatch

section Settling

variable {n : Nat} {hop : Handle → Handle → Pairing → Option Pairing} {xs ys : List Value}

/-- Lists leave behind what their items do. -/
theorem matchValues_settles
    (hitems : ∀ v ∈ xs, ∀ w p q, unpaired left p < n → matchValue hop v w p = some q →
      Settles left right p q ∧ v.Matches q.Linked w)
    (hn : unpaired left p < n) (h : matchValues hop xs ys p = some q) :
    Settles left right p q ∧ List.Forall₂ (Value.Matches q.Linked) xs ys := by
  induction xs generalizing ys p with
  | nil =>
    obtain ⟨rfl, rfl⟩ := matchValues_nil_eq_some_iff.mp h
    exact ⟨.refl p, .nil⟩
  | cons x xs ih =>
    obtain ⟨hx, hxs⟩ := List.forall_mem_cons.mp hitems
    obtain ⟨y, rest, rfl, mid, hfirst, hrest⟩ := matchValues_cons_eq_some_iff.mp h
    obtain ⟨hpm, hxy⟩ := hx y p mid hn hfirst
    obtain ⟨hmq, hmatch⟩ := ih hxs ((hpm.grown.unpaired_le left).trans_lt hn) hrest
    exact ⟨hpm.trans hmq, .cons (hxy.mono fun _ _ h => h.extends hmq.grown) hmatch⟩

/-- Values leave behind what the objects in them do. -/
theorem matchValue_settles
    (hhop : ∀ x y p q, unpaired left p < n → hop x y p = some q →
      Settles left right p q ∧ q.Linked x y)
    (hn : unpaired left p < n) (h : matchValue hop v w p = some q) :
    Settles left right p q ∧ v.Matches q.Linked w := by
  induction v using Value.induct generalizing w p q with
  | list items ih =>
    rcases matchValue_eq_some_iff.mp h with ⟨hleaf, -⟩ | ⟨xs, ys, heq, rfl, h⟩ | ⟨x, y, heq, -⟩
    · cases hleaf
    · cases heq
      obtain ⟨hpq, hmatch⟩ := matchValues_settles (fun v hv w p q hn h => ih v hv hn h) hn h
      exact ⟨hpq, .list hmatch⟩
    · cases heq
  | object x =>
    rcases matchValue_eq_some_iff.mp h with ⟨hleaf, -⟩ | ⟨xs, ys, heq, -⟩ | ⟨x, y, heq, rfl, h⟩
    · cases hleaf
    · cases heq
    · cases heq
      obtain ⟨hpq, hxy⟩ := hhop x y p q hn h
      exact ⟨hpq, .object hxy⟩
  | null | primitive | constant =>
    rcases matchValue_eq_some_iff.mp h with ⟨hleaf, hsame, rfl⟩ | ⟨xs, ys, heq, -⟩ | ⟨x, y, heq, -⟩
    · exact ⟨.refl p, .leaf hleaf hsame⟩
    · cases heq
    · cases heq

end Settling

/-- Objects that match have become partners, and so have all that were met with them. The induction
is on the objects left to pair: the fields are looked at with one pair more. -/
theorem matchPair_settles (h : matchPair left right x y p = some q) :
    Settles left right p q ∧ q.Linked x y := by
  induction hn : unpaired left p using Nat.strong_induction_on generalizing x y p q with
  | _ n ih =>
    rcases matchPair_eq_some_iff.mp h with
      ⟨hx, -, rfl⟩ | ⟨hx, hy, o, o', ho, ho', hdigest, hfields⟩
    · exact ⟨.refl p, Pairing.linked_of_right? hx⟩
    · have hlt : unpaired left (p.add x y) < n := hn ▸ Pairing.unpaired_add_lt hx ho y
      have hhop : ∀ x y p q, unpaired left p < n → matchPair left right x y p = some q →
          Settles left right p q ∧ q.Linked x y := fun x y p q hp h => ih _ hp h rfl
      obtain ⟨hpq, hmatch⟩ :=
        matchValues_settles (fun v _ w p q hp h => matchValue_settles hhop hp h) hlt hfields
      have hxy : q.Linked x y := (Pairing.linked_add_iff.mpr (.inl ⟨rfl, rfl⟩)).extends hpq.grown
      refine ⟨⟨(p.extends_add x y).trans hpq.grown, fun hp => hpq.oneToOne (hp.add hx hy), ?_⟩, hxy⟩
      intro x' y' hxy'
      rcases hpq.added x' y' hxy' with hxy' | hmatch'
      · rcases Pairing.linked_add_iff.mp hxy' with ⟨rfl, rfl⟩ | hxy'
        · exact .inr ⟨o, o', ho, ho', hdigest, hmatch⟩
        · exact .inl hxy'
      · exact .inr hmatch'

/-! ## Matches are isomorphisms -/

/-- Linked objects are there, and match. -/
def Simulates (left right : ObjectGraph) (link : Handle → Handle → Prop) : Prop :=
  ∀ x y, link x y → ∃ o o', left.get? x = some o ∧ right.get? y = some o' ∧ o.Matches link o'

/-- Whatever the first of two matching values leads to matches something that the second leads
to. -/
theorem Simulates.exists_right (hlink : Simulates left right link) {u : Value}
    (hreach : left.Reaches v u) (hmatch : v.Matches link w) :
    ∃ u', right.Reaches w u' ∧ u.Matches link u' := by
  induction hreach generalizing w with
  | self v => exact ⟨w, .self w, hmatch⟩
  | item hv _ ih =>
    cases hmatch with
    | leaf hleaf => cases hleaf
    | list hitems =>
      obtain ⟨y, hy, hvy⟩ := forall₂_exists_right hitems hv
      obtain ⟨u', hu', huu'⟩ := ih hvy
      exact ⟨u', .item hy hu', huu'⟩
  | field hget hv _ ih =>
    cases hmatch with
    | leaf hleaf => cases hleaf
    | object hxy =>
      obtain ⟨o, o', ho, ho', hfields⟩ := hlink _ _ hxy
      rw [hget] at ho
      cases ho
      obtain ⟨y, hy, hvy⟩ := forall₂_exists_right hfields.fields hv
      obtain ⟨u', hu', huu'⟩ := ih hvy
      exact ⟨u', .field ho' hy hu', huu'⟩

/-- Whatever the second of two matching values leads to is matched by something that the first
leads to. -/
theorem Simulates.exists_left (hlink : Simulates left right link) {u' : Value}
    (hreach : right.Reaches w u') (hmatch : v.Matches link w) :
    ∃ u, left.Reaches v u ∧ u.Matches link u' := by
  induction hreach generalizing v with
  | self w => exact ⟨v, .self v, hmatch⟩
  | item hw _ ih =>
    cases hmatch with
    | leaf hleaf hsame => cases hleaf <;> cases hsame
    | list hitems =>
      obtain ⟨x, hx, hxw⟩ := forall₂_exists_left hitems hw
      obtain ⟨u, hu, huu'⟩ := ih hxw
      exact ⟨u, .item hx hu, huu'⟩
  | field hget hw _ ih =>
    cases hmatch with
    | leaf hleaf hsame => cases hleaf <;> cases hsame
    | object hxy =>
      obtain ⟨o, o', ho, ho', hfields⟩ := hlink _ _ hxy
      rw [hget] at ho'
      cases ho'
      obtain ⟨x, hx, hxw⟩ := forall₂_exists_left hfields.fields hw
      obtain ⟨u, hu, huu'⟩ := ih hxw
      exact ⟨u, .field ho hx hu, huu'⟩

/-- Matching values are isomorphic: what has been paired is all that they lead to. -/
theorem exists_isIsomorphism (h : left.sameStructure a right b = true) :
    ∃ image, IsIsomorphism left a right b image := by
  obtain ⟨q, hq⟩ := Option.isSome_iff_exists.mp h
  obtain ⟨hsettles, hroot⟩ := matchValue_settles (n := unpaired left .empty + 1)
    (fun x y p q _ h => matchPair_settles h) (Nat.lt_succ_self _) hq
  have hone : q.OneToOne := hsettles.oneToOne fun _ _ _ _ h => by cases h
  have hlink : Simulates left right q.Linked := fun x y hxy =>
    (hsettles.added x y hxy).resolve_left fun h => by cases h
  obtain ⟨image, himage⟩ := hone.exists_image
  have hright : ∀ x, left.Reaches a (.object x) → ∃ y, right.Reaches b (.object y) ∧
      q.Linked x y := by
    intro x hx
    obtain ⟨w, hw, hmatch⟩ := hlink.exists_right hx hroot
    cases hmatch with
    | leaf hleaf => cases hleaf
    | object hxy => exact ⟨_, hw, hxy⟩
  refine ⟨image, ⟨fun x hx => ?_, fun x hx x' hx' heq => ?_, fun y hy => ?_⟩,
    hroot.mono himage, fun x hx => ?_⟩
  · obtain ⟨y, hy, hxy⟩ := hright x hx
    exact himage x y hxy ▸ hy
  · obtain ⟨y, -, hxy⟩ := hright x hx
    obtain ⟨y', -, hxy'⟩ := hright x' hx'
    rw [himage x y hxy, himage x' y' hxy'] at heq
    exact (hone x y x' y' hxy hxy').mpr heq
  · obtain ⟨v, hv, hmatch⟩ := hlink.exists_left hy hroot
    cases hmatch with
    | leaf hleaf hsame => cases hleaf <;> cases hsame
    | object hxy => exact ⟨_, hv, himage _ _ hxy⟩
  · obtain ⟨y, -, hxy⟩ := hright x hx
    obtain ⟨o, o', ho, ho', hmatch⟩ := hlink x y hxy
    rw [himage x y hxy]
    exact ⟨o, o', ho, ho', hmatch.mono himage⟩

/-! ## Isomorphisms are found -/

/-- All pairs belong to the correspondence, and have been reached. -/
def Follows (left : ObjectGraph) (a : Value) (image : Handle → Handle) (p : Pairing) : Prop :=
  ∀ x y, p.Linked x y → left.Reaches a (.object x) ∧ image x = y

/-- The match succeeds, all pairs still belong to the correspondence, and no more objects are left
to pair than before. -/
def Proceeds (left : ObjectGraph) (a : Value) (image : Handle → Handle) (p : Pairing)
    (result : Option Pairing) : Prop :=
  ∃ q, result = some q ∧ Follows left a image q ∧ unpaired left q ≤ unpaired left p

section Following

variable {image : Handle → Handle} {n : Nat} {hop : Handle → Handle → Pairing → Option Pairing}
  {xs ys : List Value}

/-- Lists that match along the correspondence are matched, if their items are. -/
theorem matchValues_follows
    (hitems : ∀ v ∈ xs, ∀ w p, v.Matches (fun x y => image x = y) w → Follows left a image p →
      unpaired left p < n → Proceeds left a image p (matchValue hop v w p))
    (hmatch : List.Forall₂ (Value.Matches fun x y => image x = y) xs ys)
    (hp : Follows left a image p) (hn : unpaired left p < n) :
    Proceeds left a image p (matchValues hop xs ys p) := by
  induction hmatch generalizing p with
  | nil => exact ⟨p, matchValues_nil_eq_some_iff.mpr ⟨rfl, rfl⟩, hp, le_rfl⟩
  | cons hxy _ ih =>
    obtain ⟨hx, hxs⟩ := List.forall_mem_cons.mp hitems
    obtain ⟨mid, hfirst, hmid, hle⟩ := hx _ p hxy hp hn
    obtain ⟨q, hrest, hq, hle'⟩ := ih hxs hmid (hle.trans_lt hn)
    exact ⟨q, matchValues_cons_eq_some_iff.mpr ⟨_, _, rfl, mid, hfirst, hrest⟩, hq, hle'.trans hle⟩

/-- Values that match along the correspondence are matched, if objects are. -/
theorem matchValue_follows
    (hhop : ∀ x p, left.Reaches a (.object x) → Follows left a image p → unpaired left p < n →
      Proceeds left a image p (hop x (image x) p))
    (hreach : left.Reaches a v) (hmatch : v.Matches (fun x y => image x = y) w)
    (hp : Follows left a image p) (hn : unpaired left p < n) :
    Proceeds left a image p (matchValue hop v w p) := by
  induction v using Value.induct generalizing w p with
  | list items ih =>
    cases hmatch with
    | leaf hleaf => cases hleaf
    | list hmatch =>
      have hitems : ∀ v ∈ items, ∀ w p, v.Matches (fun x y => image x = y) w →
          Follows left a image p → unpaired left p < n →
          Proceeds left a image p (matchValue hop v w p) :=
        fun v hv w p hvw => ih v hv (hreach.trans (.item hv (.self v))) hvw
      obtain ⟨q, hq, hfollows⟩ := matchValues_follows hitems hmatch hp hn
      exact ⟨q, matchValue_eq_some_iff.mpr (.inr (.inl ⟨_, _, rfl, rfl, hq⟩)), hfollows⟩
  | object x =>
    cases hmatch with
    | leaf hleaf => cases hleaf
    | object hxy =>
      obtain ⟨q, hq, hfollows⟩ := hhop x p hreach hp hn
      exact ⟨q, matchValue_eq_some_iff.mpr (.inr (.inr ⟨_, _, rfl, rfl, hxy ▸ hq⟩)), hfollows⟩
  | null | primitive | constant =>
    cases hmatch with
    | leaf hleaf hsame =>
      exact ⟨p, matchValue_eq_some_iff.mpr (.inl ⟨hleaf, hsame, rfl⟩), hp, le_rfl⟩

end Following

/-- Partners in a pairing that follows an isomorphism are found from either side. -/
theorem Follows.left? {image : Handle → Handle} (hiso : IsIsomorphism left a right b image)
    (hreach : left.Reaches a (.object x)) (hp : Follows left a image p) :
    p.left? (image x) = (p.right? x).map fun _ => x := by
  cases hy : p.left? (image x) with
  | none =>
    cases hx : p.right? x with
    | none => rfl
    | some y =>
      have hxy := Pairing.linked_of_right? hx
      obtain ⟨-, rfl⟩ := hp x y hxy
      exact absurd hxy (Pairing.not_linked_of_left? hy x)
  | some x' =>
    have hxy := Pairing.linked_of_left? hy
    obtain ⟨hreach', heq⟩ := hp x' _ hxy
    obtain rfl : x' = x := hiso.bijective.injOn hreach' hreach heq
    cases hx : p.right? x' with
    | none => exact absurd hxy (Pairing.not_linked_of_right? hx _)
    | some y => rfl

theorem Follows.add {image : Handle → Handle} (hp : Follows left a image p)
    (hreach : left.Reaches a (.object x)) : Follows left a image (p.add x (image x)) := by
  intro x' y' hxy'
  rcases Pairing.linked_add_iff.mp hxy' with ⟨rfl, rfl⟩ | hxy'
  · exact ⟨hreach, rfl⟩
  · exact hp x' y' hxy'

/-- An object and its image are matched, whatever pairs of the correspondence there are: either both
have partners, and these are they, or neither has one. -/
theorem matchPair_follows {image : Handle → Handle} (hiso : IsIsomorphism left a right b image)
    (hreach : left.Reaches a (.object x)) (hp : Follows left a image p) :
    Proceeds left a image p (matchPair left right x (image x) p) := by
  induction hn : unpaired left p using Nat.strong_induction_on generalizing x p with
  | _ n ih =>
    have hy := hp.left? hiso hreach
    cases hx : p.right? x with
    | some y =>
      obtain ⟨-, rfl⟩ := hp x y (Pairing.linked_of_right? hx)
      rw [hx, Option.map_some] at hy
      exact ⟨p, matchPair_eq_some_iff.mpr (.inl ⟨hx, hy, rfl⟩), hp, le_rfl⟩
    | none =>
      rw [hx, Option.map_none] at hy
      obtain ⟨o, o', ho, ho', hmatch⟩ := hiso.object_matches x hreach
      have hlt : unpaired left (p.add x (image x)) < n := hn ▸ Pairing.unpaired_add_lt hx ho _
      have hfields : ∀ v ∈ o.fields, ∀ w p, v.Matches (fun x y => image x = y) w →
          Follows left a image p → unpaired left p < n →
          Proceeds left a image p (matchValue (matchPair left right) v w p) :=
        fun v hv w p hvw => matchValue_follows
          (fun x p hreach hp hlt => ih _ hlt hreach hp rfl)
          (hreach.trans (.field ho hv (.self v))) hvw
      obtain ⟨q, hq, hfollows, hle⟩ :=
        matchValues_follows hfields hmatch.fields (hp.add hreach) hlt
      exact ⟨q, matchPair_eq_some_iff.mpr (.inr ⟨hx, hy, o, o', ho, ho', hmatch.digest, hq⟩),
        hfollows, hle.trans (hlt.le.trans hn.ge)⟩

/-- **Matching decides isomorphism.** For all graphs, with cycles and dangling handles and also for
one graph twice, the walk ends, and says yes exactly if the objects that the roots lead to are all
there and correspond one to one, so that the roots match and so do objects that correspond. -/
theorem sameStructure_iff : left.sameStructure a right b = true ↔
    ∃ image, IsIsomorphism left a right b image := by
  refine ⟨exists_isIsomorphism, ?_⟩
  rintro ⟨image, hiso⟩
  have hempty : Follows left a image .empty := fun _ _ h => by cases h
  obtain ⟨q, hq, -⟩ := matchValue_follows (fun x p hreach hp _ => matchPair_follows hiso hreach hp)
    (.self a) hiso.root_matches hempty (Nat.lt_succ_self _)
  exact Option.isSome_iff_exists.mpr ⟨q, hq⟩

/-- A bead refers to the next bead. -/
def bead : Descriptor :=
  ⟨Declaration.toLevel
      ⟨"Bead", .composite, [⟨"next", .reference "Bead", true, fun _ => rfl⟩], []⟩ [], [],
    Declaration.sealed_toLevel (by decide) (by decide) trivial⟩

/-- A closed necklace. -/
def necklace (beads : Nat) : ObjectGraph :=
  ⟨(Array.range beads).map fun index =>
    ⟨.ofDescriptor ⟨.known, 0, 0⟩ bead.digest bead (by decide),
      [.object ⟨(index + 1) % beads⟩]⟩⟩

/-- A necklace may be turned, but goes around once as the other does. -/
example : (necklace 3).sameStructure (.object ⟨0⟩) (necklace 3) (.object ⟨1⟩) = true ∧
    (necklace 1).sameStructure (.object ⟨0⟩) (necklace 2) (.object ⟨0⟩) = false := by
  decide +kernel

end ObjectEnvelope.ObjectGraph
