import ObjectEnvelope.Proofs.Bytes.FixedWidth
import ObjectEnvelope.Proofs.Schema.Declaring

/-!
# Signatures

A signature can be read back: whatever is put into it is told from what follows it, without end
marks, since names and lists are preceded by their lengths and everything else by the number of its
form (`Signature.Delimited`). So descriptors of one signature have one structure, and a signature
stands for a structure (`Descriptor.same_iff_signature_eq`). Lengths take eight bytes, which is
enough for everything that a byte string in memory can hold.
-/

namespace ObjectEnvelope

/-! ## Digests as text -/

namespace Hex

/-- Hexadecimal digits are ASCII. -/
theorem utf8Size_digitChar : ∀ n < 16, (Nat.digitChar n).utf8Size = 1 := by
  decide

theorem digitChar_inj : ∀ m < 16, ∀ n < 16, Nat.digitChar m = Nat.digitChar n → m = n := by
  decide

theorem ofByte_injective {a b : UInt8} (h : ofByte a = ofByte b) : a = b := by
  have ha : a.toNat < 256 := a.toNat_lt
  have hb : b.toNat < 256 := b.toNat_lt
  simp only [ofByte, List.cons.injEq, and_true] at h
  have hhigh := digitChar_inj _ (by omega) _ (by omega) h.1
  have hlow := digitChar_inj _ (by omega) _ (by omega) h.2
  apply UInt8.toNat_inj.mp
  omega

theorem ofBytes_injective {xs ys : List UInt8} (h : ofBytes xs = ofBytes ys) : xs = ys := by
  have hdigits := String.ofList_injective h
  clear h
  induction xs generalizing ys with
  | nil =>
    cases ys with
    | nil => rfl
    | cons y ys => simp [ofByte] at hdigits
  | cons x xs ih =>
    cases ys with
    | nil => simp [ofByte] at hdigits
    | cons y ys =>
      rw [List.flatMap_cons, List.flatMap_cons] at hdigits
      obtain ⟨hbyte, hrest⟩ := List.append_inj hdigits rfl
      rw [ofByte_injective hbyte, ih hrest]

theorem utf8ByteSize_ofBytes (bytes : List UInt8) :
    (ofBytes bytes).utf8ByteSize = 2 * bytes.length := by
  unfold ofBytes
  induction bytes with
  | nil => rfl
  | cons b rest ih =>
    have hb : b.toNat < 256 := b.toNat_lt
    rw [List.flatMap_cons, String.ofList_append, String.utf8ByteSize_append, ih, ofByte,
      String.ofList_cons, String.ofList_cons, String.utf8ByteSize_append,
      String.utf8ByteSize_append, String.utf8ByteSize_singleton, String.utf8ByteSize_singleton,
      utf8Size_digitChar _ (by omega), utf8Size_digitChar _ (by omega), List.length_cons]
    show 1 + (1 + 0) + 2 * rest.length = 2 * (rest.length + 1)
    omega

end Hex

theorem Digest.text_injective {a b : Digest} (h : a.text = b.text) : a = b := by
  cases a
  cases b
  rw [Digest.mk.injEq]
  exact Hex.ofBytes_injective h

/-- Every digest takes thirty-two digits. -/
theorem Digest.utf8ByteSize_text (d : Digest) : d.text.utf8ByteSize = 32 := by
  rw [text, Hex.utf8ByteSize_ofBytes, d.length_bytes]

/-! ## Codes -/

theorem PrimitiveKind.code_injective {k l : PrimitiveKind} (h : k.code = l.code) : k = l := by
  have hk := PrimitiveKind.ofCode?_code k
  rw [h, PrimitiveKind.ofCode?_code] at hk
  exact (Option.some_inj.mp hk).symm

theorem TypeKind.code_injective {k l : TypeKind} (h : k.code = l.code) : k = l := by
  have hk := TypeKind.ofCode?_code k
  rw [h, TypeKind.ofCode?_code] at hk
  exact (Option.some_inj.mp hk).symm

/-! ## Items of a signature -/

namespace Signature

variable {α : Type} {item : α → List UInt8} {r s : List UInt8}

/-- Bytes that eight bytes can count begin with one of the items at most. -/
def Delimited (item : α → List UInt8) : Prop :=
  ∀ ⦃a b : α⦄ ⦃r s : List UInt8⦄, item a ++ r = item b ++ s → (item a ++ r).length < 2 ^ 64 →
    a = b ∧ r = s

theorem ofLength_append_inj {m n : Nat} (h : ofLength m ++ r = ofLength n ++ s)
    (hm : m < 2 ^ 64) (hn : n < 2 ^ 64) : m = n ∧ r = s := by
  obtain ⟨hword, hrest⟩ := List.append_inj h (by simp [ofLength])
  have hnumber := congrArg LittleEndian.toNat hword
  rw [ofLength, ofLength, LittleEndian.toNat_ofNat_of_lt (by omega),
    LittleEndian.toNat_ofNat_of_lt (by omega)] at hnumber
  exact ⟨hnumber, hrest⟩

theorem length_ofName (name : String) : (ofName name).length = 8 + name.utf8ByteSize := by
  simp [ofName, ofLength]

theorem delimited_ofName : Delimited ofName := by
  intro a b r s h hlength
  have hlength' := congrArg List.length h
  rw [List.length_append, List.length_append, length_ofName, length_ofName] at hlength'
  rw [List.length_append, length_ofName] at hlength
  simp only [ofName, List.append_assoc] at h
  obtain ⟨hsize, hrest⟩ := ofLength_append_inj h (by omega) (by omega)
  obtain ⟨htext, hrest⟩ := List.append_inj hrest (by simp [hsize])
  exact ⟨Utf8.encode_injective htext, hrest⟩

/-- The number of the form comes first; only lists go on to another type. -/
theorem delimited_ofValueType : Delimited ofValueType := by
  intro a
  induction a with
  | primitive kind =>
    intro b r s h hlength
    cases b with
    | primitive kind' =>
      simp only [ofValueType, List.cons_append, List.nil_append, List.cons.injEq, true_and] at h
      exact ⟨congrArg _ (PrimitiveKind.code_injective h.1), h.2⟩
    | _ => simp [ofValueType] at h
  | reference name =>
    intro b r s h hlength
    cases b with
    | reference name' =>
      simp only [ofValueType, List.cons_append, List.cons.injEq, true_and] at h
      rw [ofValueType, List.cons_append, List.length_cons] at hlength
      obtain ⟨rfl, hrest⟩ := delimited_ofName h (by omega)
      exact ⟨rfl, hrest⟩
    | _ => simp [ofValueType] at h
  | list element ih =>
    intro b r s h hlength
    cases b with
    | list element' =>
      simp only [ofValueType, List.cons_append, List.cons.injEq, true_and] at h
      rw [ofValueType, List.cons_append, List.length_cons] at hlength
      obtain ⟨rfl, hrest⟩ := ih h (by omega)
      exact ⟨rfl, hrest⟩
    | _ => simp [ofValueType] at h
  | any =>
    intro b r s h hlength
    cases b with
    | any => exact ⟨rfl, by simpa [ofValueType] using h⟩
    | _ => simp [ofValueType] at h

theorem delimited_ofField : Delimited ofField := by
  intro f g r s h hlength
  simp only [ofField, List.append_assoc] at h
  simp only [ofField, List.length_append] at hlength
  obtain ⟨hname, h⟩ := delimited_ofName h (by simp only [List.length_append]; omega)
  obtain ⟨htype, h⟩ := delimited_ofValueType h (by simp only [List.length_append]; omega)
  obtain ⟨hflag, hrest⟩ := List.append_inj h rfl
  have hnullable : f.nullable = g.nullable := by
    cases hf : f.nullable <;> cases hg : g.nullable <;> simp [hf, hg] at hflag ⊢
  cases f
  cases g
  rw [Field.mk.injEq]
  exact ⟨⟨hname, htype, hnullable⟩, hrest⟩

theorem delimited_ofParent : Delimited ofParent := by
  intro p q r s h _
  cases p with
  | none =>
    cases q with
    | none => exact ⟨rfl, List.cons_inj_right _ |>.mp h⟩
    | some digest => simp [ofParent] at h
  | some digest =>
    cases q with
    | none => simp [ofParent] at h
    | some digest' =>
      simp only [ofParent, List.cons_append, List.cons.injEq, true_and] at h
      obtain ⟨htext, hrest⟩ := List.append_inj h (by simp [Digest.utf8ByteSize_text])
      exact ⟨congrArg some (Digest.text_injective (Utf8.encode_injective htext)), hrest⟩

theorem flatMap_append_inj (h : Delimited item) {xs ys : List α} (hcount : xs.length = ys.length)
    (hbytes : xs.flatMap item ++ r = ys.flatMap item ++ s)
    (hlength : (xs.flatMap item ++ r).length < 2 ^ 64) : xs = ys ∧ r = s := by
  induction xs generalizing ys with
  | nil =>
    obtain rfl := List.length_eq_zero_iff.mp hcount.symm
    exact ⟨rfl, hbytes⟩
  | cons x xs ih =>
    cases ys with
    | nil => cases hcount
    | cons y ys =>
      simp only [List.flatMap_cons, List.append_assoc] at hbytes hlength
      obtain ⟨hx, htail⟩ := h hbytes hlength
      rw [List.length_append] at hlength
      obtain ⟨hxs, hrest⟩ := ih (Nat.succ.inj hcount) htail (by omega)
      exact ⟨by rw [hx, hxs], hrest⟩

/-- Items that take at least a byte each are not more than their bytes. -/
theorem length_le_length_flatMap (hpos : ∀ a, 0 < (item a).length) (xs : List α) :
    xs.length ≤ (xs.flatMap item).length := by
  induction xs with
  | nil => exact Nat.zero_le _
  | cons x xs ih =>
    have hx := hpos x
    rw [List.flatMap_cons, List.length_append, List.length_cons]
    omega

/-- The number that precedes a list tells where it ends. -/
theorem Delimited.ofList (h : Delimited item) (hpos : ∀ a, 0 < (item a).length) :
    Delimited (ofList item) := by
  intro xs ys r s hbytes hlength
  have hxs := length_le_length_flatMap hpos xs
  have hys := length_le_length_flatMap hpos ys
  have hlength' := congrArg List.length hbytes
  simp only [Signature.ofList, ofLength, List.length_append, LittleEndian.length_ofNat]
    at hlength hlength'
  simp only [Signature.ofList, List.append_assoc] at hbytes
  obtain ⟨hcount, hrest⟩ := ofLength_append_inj hbytes (by omega) (by omega)
  exact flatMap_append_inj h hcount hrest (by rw [List.length_append]; omega)

end Signature

/-! ## Signatures of levels -/

/-- A level is told from its signature, up to the order of the interfaces, and so is the digest of
the supertype. -/
theorem Level.alike_of_signature_eq {a b : Level} {p q : Option Digest}
    (h : a.signature p = b.signature q) (hlength : (a.signature p).length < 2 ^ 64) :
    a.Alike b ∧ p = q := by
  simp only [Declaration.signature, List.append_assoc] at h
  simp only [Declaration.signature, List.length_append] at hlength
  obtain ⟨hname, h⟩ := Signature.delimited_ofName h (by simp only [List.length_append]; omega)
  obtain ⟨hkind, h⟩ := List.append_inj h rfl
  obtain ⟨hparent, h⟩ :=
    Signature.delimited_ofParent h (by simp only [List.length_append]; omega)
  have hnames : ∀ name, 0 < (Signature.ofName name).length := by
    intro name
    rw [Signature.length_ofName]
    omega
  have hfields : ∀ f, 0 < (Signature.ofField f).length := by
    intro f
    simp only [Signature.ofField, List.length_append, List.length_singleton]
    omega
  obtain ⟨hinterfaces, h⟩ := Signature.delimited_ofName.ofList hnames h
    (by simp only [List.length_append]; omega)
  have hlast : Signature.ofList Signature.ofField a.fields ++ [] =
      Signature.ofList Signature.ofField b.fields ++ [] := by
    rw [h]
  obtain ⟨hown, -⟩ := Signature.delimited_ofField.ofList hfields hlast
    (by rw [List.append_nil]; omega)
  have hsorted : a.interfaces.Perm b.interfaces :=
    (List.mergeSort_perm a.interfaces _).symm.trans
      ((List.Perm.of_eq hinterfaces).trans (List.mergeSort_perm b.interfaces _))
  exact ⟨⟨hname, TypeKind.code_injective (List.cons.inj hkind).1, hown, hsorted⟩, hparent⟩

/-! ## Signatures of descriptors -/

namespace Descriptor

variable {a b : Descriptor}

theorem signature_eq_of_same (h : a.same b = true) : a.signature = b.signature := by
  obtain ⟨hlevel, hparent⟩ := same_iff.mp h
  rw [signature, signature, hparent, hlevel.signature]

/-- The signature stands for the structure. Its length is one that a byte string can have. -/
theorem same_iff_signature_eq (hlength : a.signature.length < 2 ^ 64) :
    a.same b = true ↔ a.signature = b.signature :=
  ⟨signature_eq_of_same, fun h => same_iff.mpr (Level.alike_of_signature_eq h hlength)⟩

theorem equivalence_same : Equivalence fun a b : Descriptor => a.same b = true :=
  ⟨same_self, same_symm, same_trans⟩

theorem same_congr_left (h : a.same b = true) (d : Descriptor) : a.same d = b.same d := by
  rw [Bool.eq_iff_iff]
  exact ⟨same_trans (same_symm h), same_trans h⟩

/-- To list the interfaces in another order, or some of them repeatedly, makes no difference. -/
theorem exists_declare_rearranged {c : Declaration} {names : List String}
    (hnames : ∀ name, name ∈ names ↔ name ∈ c.interfaces)
    (hfields : (c.fields.map (·.name)).Nodup) (parent : Option Descriptor) :
    ∃ a b, declare c parent = .ok a ∧ declare { c with interfaces := names } parent = .ok b ∧
      a.same b = true := by
  obtain ⟨a, ha, habove, hlevel⟩ := exists_declare_of_nodup hfields parent
  obtain ⟨b, hb, habove', hlevel'⟩ :=
    exists_declare_of_nodup (c := { c with interfaces := names }) hfields parent
  have hperm : c.interfaces.eraseDups.Perm names.eraseDups := by
    refine (List.perm_ext_iff_of_nodup (nodup_eraseDups _) (nodup_eraseDups _)).mpr ?_
    intro name
    rw [List.mem_eraseDups, List.mem_eraseDups, hnames]
  refine ⟨a, b, ha, hb, same_iff.mpr ⟨?_, by rw [habove, habove']⟩⟩
  rw [hlevel, hlevel']
  exact ⟨rfl, rfl, rfl, hperm⟩

/-- **Signatures are faithful.** Two descriptors have one structure exactly if they have one
signature; so descriptors of one structure have one digest, to have one structure is an equivalence,
and the order in which interfaces are listed, and how often, changes neither structure nor
signature. A signature is a byte string in memory, of less than `2 ^ 64` bytes. -/
theorem signature_faithful :
    (∀ a b : Descriptor, a.signature.length < 2 ^ 64 →
      (a.same b = true ↔ a.signature = b.signature)) ∧
    (∀ a b : Descriptor, a.same b = true → a.digest = b.digest) ∧
    (Equivalence fun a b : Descriptor => a.same b = true) ∧
    ∀ (c : Declaration) (names : List String) (parent : Option Descriptor),
      (∀ name, name ∈ names ↔ name ∈ c.interfaces) → (c.fields.map (·.name)).Nodup →
      ∃ a b, declare c parent = .ok a ∧ declare { c with interfaces := names } parent = .ok b ∧
        (∀ d : Descriptor, a.same d = b.same d) ∧ a.signature = b.signature := by
  refine ⟨fun a b => same_iff_signature_eq, fun a b => digest_eq_of_same, equivalence_same,
    fun c names parent hnames hfields => ?_⟩
  obtain ⟨a, b, ha, hb, hsame⟩ := exists_declare_rearranged hnames hfields parent
  exact ⟨a, b, ha, hb, same_congr_left hsame, signature_eq_of_same hsame⟩

/-- A type with the interfaces `A` and `B`. -/
def paired : Descriptor :=
  ⟨Declaration.toLevel ⟨"T", .composite, [], ["A", "B"]⟩ [], [],
    Declaration.sealed_toLevel (by decide) (by decide) trivial⟩

/-- The same with one interface, whose name has the bytes that stand between the two names. -/
def joined : Descriptor :=
  ⟨Declaration.toLevel ⟨"T", .composite, [], ["A\x01\x00\x00\x00\x00\x00\x00\x00B"]⟩ [], [],
    Declaration.sealed_toLevel (by decide) (by decide) trivial⟩

/-- Names that hold the bytes of a length do not run into each other. Below a supertype, two
interfaces make one type in either order, and when one of them is repeated. -/
theorem signature_faithful_joined :
    joined.signature ≠ paired.signature ∧
      ∃ a b, declare ⟨"U", .composite, [], ["A", "B", "A"]⟩ (some joined) = .ok a ∧
        declare ⟨"U", .composite, [], ["B", "A"]⟩ (some joined) = .ok b ∧
        a.same b = true ∧ a.signature = b.signature := by
  obtain ⟨hfaithful, -, -, hrearranged⟩ := signature_faithful
  constructor
  · have hlength : joined.signature.length < 2 ^ 64 := by decide +kernel
    exact mt (hfaithful joined paired hlength).mpr (by decide)
  · obtain ⟨a, b, ha, hb, hsame, hsignature⟩ := hrearranged
      ⟨"U", .composite, [], ["A", "B", "A"]⟩ ["B", "A"] (some joined) (by simp [or_comm]) (by simp)
    exact ⟨a, b, ha, hb, by rw [hsame, same_self], hsignature⟩

end Descriptor

end ObjectEnvelope
