import ObjectEnvelope.Proofs.Endpoint.DecodedGraphs
import ObjectEnvelope.Proofs.Payload.BackReferences

/-!
# What back-references mean

A back-reference names a body by its position in the order of completion, whatever objects stand
between in the graph. A body is complete only when all that it contains has been read, so what
contains the back-reference is never among the objects that it can name.
-/

namespace ObjectEnvelope.Endpoint

open Event (bodies objects)

/-- **Back-references.** Recording the history of a decoding changes nothing in it. Behind the tag
of every back-reference in that history, an id below the number of bodies that became complete
before names the body with this position, which is older than every object that becomes complete
later; any other id ends the decoding with an integrity violation. So no object leads back to
itself. -/
theorem decode_backReferences {settings : Settings} {envelope : Envelope} {s u : Endpoint}
    {types : List RuntimeType} (expected : ValueType)
    (hresolve : resolve settings envelope.schema s = .ok types u) :
    let d : Decoder := ⟨settings, types⟩
    let start : Decoding := ⟨Progress.start envelope.payload, u.codecs⟩
    Recording.forget (d.recordRoot ⟨start, []⟩) = d.readRoot start ∧
    (∀ before met after, d.log start = before ++ .reference met :: after →
      ∀ id r, Read.number 4 met.reader = .ok id r →
        (∀ hlt : id < (bodies before).length,
          Decode.referent met = .ok (bodies before)[id] { met with reader := r } ∧
          ∀ k ∈ objects after, (bodies before)[id].index < k.index) ∧
        ((bodies before).length ≤ id → ∃ v, decode settings envelope expected s =
          .error (.referenceIntegrityViolation id (bodies before).length) v)) ∧
    ∀ root after, d.readRoot start = .ok root after → ∀ h, ¬ after.graph.OnCycle h := by
  intro d start
  refine ⟨d.recordRoot_erases ⟨start, []⟩, ?_, ?_⟩
  · intro before met after hlog id r hid
    obtain ⟨⟨hnumbered, hnamed, hlater⟩, hends⟩ := Decoder.meets_of_log hlog
    have hget : met.numbered[id]? = (bodies before)[id]? := by
      rw [← hnumbered, Array.getElem?_toList]
    constructor
    · intro hlt
      have hfound : met.numbered[id]? = some (bodies before)[id] := by
        rw [hget, List.getElem?_eq_getElem hlt]
      refine ⟨Decode.referent_eq_ok hid hfound, fun k hk => ?_⟩
      exact Nat.lt_of_lt_of_le (hnamed _ (Array.mem_of_getElem? hfound)) (hlater k hk)
    · intro hle
      have hfails := Decode.referent_eq_error hid (hget.trans (List.getElem?_eq_none hle))
      rw [← Array.length_toList, hnumbered] at hfails
      rcases hends with ⟨h, t, hok⟩ | ⟨-, e, t, after, herror, hroot⟩
      · cases hok.symm.trans hfails
      · cases herror.symm.trans hfails
        exact ⟨_, decode_eq_error_of_readRoot hresolve hroot⟩
  · intro root after hroot
    obtain ⟨hvalue, -⟩ := Decoder.readRoot_eq_ok_iff.mp hroot
    exact (Decoder.readValue_keeps hvalue (Decoder.sound_start _ _ _)).sound.layered.not_onCycle

/-- A list of an inline pair, a pair, a reference to the pair, and one to an object that is not
there. -/
def driftedEnvelope : Envelope where
  payload :=
    [0x10, 4, 0, 0, 0] ++ [0x13, 0, 0, 0, 0, 2, 0, 0, 0, 0x00, 0x00] ++
      [0x12, 0, 0, 0, 0, 2, 0, 0, 0, 0x00, 0x00] ++ [0x14, 0, 0, 0, 0] ++ [0x14, 7, 0, 0, 0]
  schema := [pairEntry]

/-- Whether the history is that of the drifted list: the pair, which has the first number, is the
second object. -/
def isDrifted : List Event → Bool
  | [.inlineBody ⟨0⟩, .body ⟨1⟩, .reference first, .reference second] =>
    (Step.outcome (Read.number 4) first.reader).toOption == some 0 &&
      (Step.outcome (Read.number 4) second.reader).toOption == some 7
  | _ => false

/-- In the drifted list, the first reference names the second object, and the other one ends the
decoding. -/
theorem decode_backReferences_drifted :
    ∃ types u first second, resolve .standard driftedEnvelope.schema (.empty 0) = .ok types u ∧
      Decoder.log ⟨.standard, types⟩ ⟨Progress.start driftedEnvelope.payload, u.codecs⟩ =
        [.inlineBody ⟨0⟩, .body ⟨1⟩, .reference first, .reference second] ∧
      (∃ t, Decode.referent first = .ok ⟨1⟩ t) ∧
      ∃ v, decode .standard driftedEnvelope .any (.empty 0) =
        .error (.referenceIntegrityViolation 7 1) v := by
  obtain ⟨types, u, hresolve, hcheck⟩ := Step.exists_of_succeedsWith
    (show Step.succeedsWith (resolve .standard driftedEnvelope.schema) (.empty 0) (fun types u =>
      isDrifted (Decoder.log ⟨.standard, types⟩
        ⟨Progress.start driftedEnvelope.payload, u.codecs⟩)) = true by decide +kernel)
  obtain ⟨-, hmeans, -⟩ := decode_backReferences .any hresolve
  unfold isDrifted at hcheck
  split at hcheck
  · next first second hlog =>
    rw [Bool.and_eq_true, beq_iff_eq, beq_iff_eq] at hcheck
    obtain ⟨r, hfirst⟩ := Step.exists_of_outcome hcheck.1
    obtain ⟨r', hsecond⟩ := Step.exists_of_outcome hcheck.2
    obtain ⟨hnames, -⟩ :=
      hmeans [.inlineBody ⟨0⟩, .body ⟨1⟩] first [.reference second] hlog 0 r hfirst
    obtain ⟨-, hends⟩ :=
      hmeans [.inlineBody ⟨0⟩, .body ⟨1⟩, .reference first] second [] hlog 7 r' hsecond
    exact ⟨types, u, first, second, hresolve, hlog, ⟨_, (hnames (by decide)).1⟩,
      hends (show 1 ≤ 7 by decide)⟩
  · cases hcheck

end ObjectEnvelope.Endpoint
