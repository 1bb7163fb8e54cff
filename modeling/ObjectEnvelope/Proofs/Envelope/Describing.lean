import Mathlib.Data.List.Nodup
import ObjectEnvelope.Envelope.Entry
import ObjectEnvelope.Proofs.Schema.Alike

/-!
# What entries describe

An entry describes a descriptor when the two say the same of the type itself, and the entries found
by the names of supertypes say the same of its supertypes (`SchemaEntry.Describes`). In a schema
that has each name once, an entry describes one descriptor only, up to the order of interfaces
(`Describes.alike`).
-/

namespace ObjectEnvelope

/-- Supertypes of descriptors that are alike are alike. -/
theorem Descriptor.Alike.exists_parent? {a b p : Descriptor} (h : a.Alike b)
    (hp : a.parent? = some p) : ∃ q, b.parent? = some q ∧ p.Alike q := by
  obtain ⟨bottom, above, hsealed⟩ := b
  have habove := (List.forall₂_cons.mp h).2
  rw [Descriptor.parent?_eq_some_iff.mp hp] at habove
  cases habove with
  | @cons _ next _ rest hnext hrest =>
    exact ⟨⟨next, rest, hsealed.2.2.2⟩, Descriptor.parent?_eq_some_iff.mpr rfl, .cons hnext hrest⟩

namespace SchemaEntry

/-- The entry says the same of the type, its supertypes aside, as the descriptor. -/
structure Outlines (entry : SchemaEntry) (d : Descriptor) : Prop where
  name : entry.name = d.name
  kind : entry.kind = d.kind
  fields : entry.fields = d.fields
  interfaces : ∀ name, name ∈ entry.interfaces ↔ name ∈ d.interfaces

/-- The entry outlines the descriptor, and so on for the supertypes, whose entries have their
names. -/
inductive Describes (schema : List SchemaEntry) : SchemaEntry → Descriptor → Prop
  | top {entry : SchemaEntry} {d : Descriptor} (h : entry.Outlines d)
      (hentry : entry.parent? = none) (hd : d.parent? = none) : Describes schema entry d
  | under {entry parent : SchemaEntry} {d p : Descriptor} (h : entry.Outlines d)
      (hentry : entry.parent? = some p.name) (hd : d.parent? = some p) (hmem : parent ∈ schema)
      (hparent : Describes schema parent p) : Describes schema entry d

variable {schema : List SchemaEntry} {entry : SchemaEntry} {a b d : Descriptor}

theorem Outlines.ofDescriptor (d : Descriptor) : (ofDescriptor d).Outlines d :=
  ⟨rfl, rfl, rfl, fun _ => .rfl⟩

/-- What is declared for an entry is outlined by it. -/
theorem Outlines.of_level {above : List Level}
    (h : d.level = Declaration.toLevel
      ⟨entry.name, entry.kind, entry.fields, entry.interfaces.eraseDups⟩ above) :
    entry.Outlines d := by
  refine ⟨?_, ?_, ?_, fun name => ?_⟩
  · rw [Descriptor.name, h, Declaration.toLevel]
  · rw [Descriptor.kind, h, Declaration.toLevel]
  · rw [Descriptor.fields, h, Declaration.toLevel]
  · rw [Descriptor.interfaces, h, Declaration.toLevel]
    exact List.mem_eraseDups.symm

/-- The supertypes do not matter. -/
theorem Outlines.of_level_alike (h : entry.Outlines a) (hlevel : a.level.Alike b.level) :
    entry.Outlines b where
  name := h.name.trans hlevel.name
  kind := h.kind.trans hlevel.kind
  fields := h.fields.trans hlevel.fields
  interfaces name := (h.interfaces name).trans hlevel.interfaces.mem_iff

theorem Outlines.of_alike (h : entry.Outlines a) (halike : a.Alike b) : entry.Outlines b :=
  h.of_level_alike halike.level

/-- Descriptors have each interface once, so that only the order is left open. -/
theorem Outlines.level_alike (ha : entry.Outlines a) (hb : entry.Outlines b) :
    a.level.Alike b.level := by
  refine ⟨ha.name.symm.trans hb.name, ha.kind.symm.trans hb.kind, ha.fields.symm.trans hb.fields,
    ?_⟩
  have hmem : ∀ name, name ∈ a.interfaces ↔ name ∈ b.interfaces :=
    fun name => (ha.interfaces name).symm.trans (hb.interfaces name)
  exact (List.perm_ext_iff_of_nodup a.isSealed.2.2.1 b.isSealed.2.2.1).mpr hmem

theorem Describes.outlines (h : Describes schema entry d) : entry.Outlines d := by
  cases h with
  | top h => exact h
  | under h => exact h

/-- Entries describe the supertypes of what they describe. -/
theorem Describes.exists_of_mem_lineage {e : Descriptor} (h : Describes schema entry d)
    (hentry : entry ∈ schema) (he : e ∈ d.lineage) :
    ∃ other ∈ schema, Describes schema other e := by
  induction h with
  | top h hup hd =>
    rw [Descriptor.lineage, Descriptor.ancestors_eq_nil hd, List.mem_singleton] at he
    exact ⟨_, hentry, he ▸ .top h hup hd⟩
  | under h hup hd hmem hparent ih =>
    rw [Descriptor.lineage, Descriptor.ancestors_of_parent? hd] at he
    rcases List.mem_cons.mp he with rfl | he
    · exact ⟨_, hentry, .under h hup hd hmem hparent⟩
    · exact ih hmem he

/-- An entry describes one descriptor, up to the order of interfaces. -/
theorem Describes.alike (hnames : (schema.map (·.name)).Nodup) (ha : Describes schema entry a)
    (hb : Describes schema entry b) : a.Alike b := by
  induction ha generalizing b with
  | top h hentry ha =>
    cases hb with
    | top h' _ hb =>
      have habove := Descriptor.parent?_eq_none_iff.mp ha
      have habove' := Descriptor.parent?_eq_none_iff.mp hb
      rw [Descriptor.Alike, habove, habove']
      exact .cons (h.level_alike h') .nil
    | under _ hentry' => simp [hentry] at hentry'
  | @under _ parent _ p h hentry ha hmem hparent ih =>
    cases hb with
    | top _ hentry' => simp [hentry] at hentry'
    | @under _ parent' _ q h' hentry' hb hmem' hparent' =>
      -- the two supertypes have one name, hence one entry
      have hname : p.name = q.name := Option.some_inj.mp (hentry.symm.trans hentry')
      have hsame : parent.name = parent'.name := by
        rw [hparent.outlines.name, hparent'.outlines.name, hname]
      obtain rfl := List.inj_on_of_nodup_map hnames hmem hmem' hsame
      rw [Descriptor.Alike, Descriptor.parent?_eq_some_iff.mp ha,
        Descriptor.parent?_eq_some_iff.mp hb]
      exact .cons (h.level_alike h') (ih hparent')

end SchemaEntry

end ObjectEnvelope
