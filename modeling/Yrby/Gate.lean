import Yrby.Reference.Crate
import Yrby.Serving
import Yrby.WireFormat

/- The gate in front of the decoders (classify_message), and what the decoders behind
   it make of the frames it lets through. -/
namespace Yrby.Gate
open Document Wire Yrs Protocol Serving WireFormat

variable {y : Yrs} {readers : Readers} {bytes : Bytes} {m : Spoken}

def kind : Spoken → Nat
  | .sync (.syncStep1 _) => 1
  | .sync (.syncStep2 _) | .sync (.update _) => 2
  | .awareness => 3
  | .awarenessQuery => 4

theorem kind_positive (m : Spoken) : kind m ≠ 0 := by
  unfold kind
  split <;> decide

/- The gate is the kind of what is decoded when nothing is left. -/
theorem classifyMessage_eq (y : Yrs) (bytes : Bytes) : classifyMessage y bytes =
    match decoded y bytes with
    | some (m, []) => kind m
    | _ => 0 := by
  unfold classifyMessage decoded
  cases y.messageDecode bytes with
  | error e => rfl
  | ok found =>
    obtain ⟨msg, rest⟩ := found
    cases rest with
    | cons r rest => cases msg <;> simp [spoken]
    | nil =>
      cases msg with
      | sync msg => cases msg <;> rfl
      | awareness clients => rfl
      | awarenessQuery => rfl
      | auth reason => rfl
      | custom tag data => rfl

theorem classifyMessage_frame (format : Format y readers) (frame : Frame y readers m bytes) :
    classifyMessage y bytes = kind m := by
  rw [classifyMessage_eq, (decoded_iff format).mpr frame]

theorem classifyMessage_ne_zero (format : Format y readers) :
    classifyMessage y bytes ≠ 0 ↔ ∃ m, Frame y readers m bytes := by
  constructor
  · intro accepted
    rw [classifyMessage_eq] at accepted
    split at accepted
    · rename_i m read
      exact ⟨m, (decoded_iff format).mp read⟩
    · exact absurd rfl accepted
  · rintro ⟨m, frame⟩
    rw [classifyMessage_frame format frame]
    exact kind_positive m

theorem classifyMessage_extended (format : Format y readers) (frame : Frame y readers m bytes)
    {r : Bytes} (more : r ≠ []) : classifyMessage y (bytes ++ r) = 0 := by
  by_contra accepted
  obtain ⟨m', longer⟩ := (classifyMessage_ne_zero format).mp accepted
  exact more (frame.prefix_free format longer)

theorem classifyMessage_cut (format : Format y readers) (frame : Frame y readers m bytes)
    {p : Bytes} (cut : p <+: bytes) (strict : p ≠ bytes) : classifyMessage y p = 0 := by
  by_contra accepted
  obtain ⟨m', shorter⟩ := (classifyMessage_ne_zero format).mp accepted
  obtain ⟨rest, rfl⟩ := cut
  obtain rfl := shorter.prefix_free format frame
  exact strict (List.append_nil p).symm

/-- What update_from_message makes of a delta frame. -/
structure Extracts (y : Yrs) (payload bytes : Bytes) : Prop where
  sees : readUpdates y (bytes.length + 1) bytes = .ok [payload]
  returns : ∀ u, y.decodeV1 payload = .ok u → mergedDocUpdate y bytes = .ok (some payload) ∨
    mergedDocUpdate y bytes = .ok none ∧ (y.content u).IsEmpty
  raises : ∀ e, y.decodeV1 payload = .error e → mergedDocUpdate y bytes = .error e

theorem docFrame_extracts (laws : y.Laws) {payload : Bytes} (frame : IsDocFrame y bytes payload) :
    Extracts y payload bytes where
  sees := readUpdates_docFrame laws.toRules frame
  returns _ decoded := mergedDocUpdate_decoded laws.toRules frame decoded
  raises _ failed := mergedDocUpdate_undecodable laws.toRules frame failed

/-- The gate and the decoders behind it read one and the same message. -/
theorem gate_agrees (laws : y.Laws) (format : Format y readers) :
    (∀ bytes, classifyMessage y bytes ≠ 0 ↔ ∃ m, Frame y readers m bytes) ∧
    (∀ msg r, (spoken msg).isSome = true → r ≠ [] →
      classifyMessage y (y.messageEncode msg ++ r) = 0) ∧
    (∀ msg p, (spoken msg).isSome = true → p <+: y.messageEncode msg → p ≠ y.messageEncode msg →
      classifyMessage y p = 0) ∧
    (∀ bytes, classifyMessage y bytes = 2 → ∃ payload,
      (Frame y readers (.sync (.syncStep2 payload)) bytes ∨
        Frame y readers (.sync (.update payload)) bytes) ∧ Extracts y payload bytes) ∧
    ∀ bytes doc, classifyMessage y bytes = 1 → ∃ sv update,
      Frame y readers (.sync (.syncStep1 sv)) bytes ∧ integratedUpdate y doc sv = .ok update ∧
        handleSyncMessage y doc bytes =
          (doc, .ok (0, 0, y.messageEncode (.sync (.syncStep2 update)))) := by
  refine ⟨fun bytes => classifyMessage_ne_zero format, ?_, ?_, ?_, ?_⟩
  · intro msg r travels more
    obtain ⟨m, frame⟩ := encoded_frame laws format travels
    exact classifyMessage_extended format frame more
  · intro msg p travels cut strict
    obtain ⟨m, frame⟩ := encoded_frame laws format travels
    exact classifyMessage_cut format frame cut strict
  · intro bytes delta
    obtain ⟨m, frame⟩ := (classifyMessage_ne_zero format).mp (by rw [delta]; decide)
    rw [classifyMessage_frame format frame] at delta
    match m with
    | .sync (.syncStep1 _) => simp [kind] at delta
    | .sync (.syncStep2 payload) =>
      exact ⟨payload, .inl frame, docFrame_extracts laws (.inl (frame_decodes format frame))⟩
    | .sync (.update payload) =>
      exact ⟨payload, .inr frame, docFrame_extracts laws (.inr (frame_decodes format frame))⟩
    | .awareness => simp [kind] at delta
    | .awarenessQuery => simp [kind] at delta
  · intro bytes doc asks
    obtain ⟨m, frame⟩ := (classifyMessage_ne_zero format).mp (by rw [asks]; decide)
    rw [classifyMessage_frame format frame] at asks
    match m with
    | .sync (.syncStep1 sv) =>
      obtain ⟨update, _, integrated, _, _⟩ := integratedUpdate_spec laws.toRules doc sv
      refine ⟨sv, update, frame, integrated, ?_⟩
      simp only [handleSyncMessage, frame_decodes format frame, integrated]
      rfl
    | .sync (.syncStep2 _) => simp [kind] at asks
    | .sync (.update _) => simp [kind] at asks
    | .awareness => simp [kind] at asks
    | .awarenessQuery => simp [kind] at asks

theorem padded_query_dropped :
    classifyMessage Reference.crate (Reference.crate.messageEncode .awarenessQuery ++ [0]) = 0 :=
  (gate_agrees Reference.crate_laws Reference.crate_format).2.1 .awarenessQuery [0] rfl (by simp)

end Yrby.Gate
