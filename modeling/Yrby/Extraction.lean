import Yrby.Gate

/- update_from_message (merged_doc_update): what is extracted from messages packed one
   after another, whole or cut inside the last of them. -/
namespace Yrby.Extraction
open Causal Document Wire Yrs Protocol Reference

def delta : Message → Option Bytes
  | .sync (.syncStep2 update) | .sync (.update update) => some update
  | _ => none

def deltas (ms : List Message) : List Bytes := ms.filterMap delta

variable (y : Yrs)

/-- The bytes of one message: the crate reads it from them, whatever follows. -/
def Whole (m : Message) (front : Bytes) : Prop :=
  ∀ rest, y.messageDecode (front ++ rest) = .ok (m, rest)

/-- Messages one after another, each with bytes of its own. -/
inductive Packed : List Message → Bytes → Prop where
  | nil : Packed [] []
  | cons {m : Message} {ms : List Message} {front rest : Bytes} (whole : Whole y m front)
      (more : Packed ms rest) : Packed (m :: ms) (front ++ rest)

/-- The merge refuses what its inputs do not decode to. -/
def Refuses : Prop := ∀ updates, (∃ update ∈ updates, ∃ e, y.decodeV1 update = .error e) →
  ∃ e, y.mergeUpdatesV1 updates = .error e

/-- MessageReader ends where the bytes run out in the middle of a message. -/
def EndsAtCut : Prop := ∀ m whole p, Whole y m whole → p <+: whole → p ≠ whole →
  ∃ message, y.messageDecode p = .error ⟨true, message⟩

variable {y} {m : Message} {ms : List Message} {bytes front tail merged : Bytes}
  {updates : List Bytes}

theorem syncFrame_whole (laws : y.Laws) {msg : SyncMessage} {payload : Bytes}
    (carries : y.Carries msg payload) : Whole y (.sync msg) (syncFrame msg.syncType payload) :=
  fun rest => laws.decode_syncFrame msg payload rest carries

theorem Whole.positive (laws : y.Laws) (whole : Whole y m front) : 0 < front.length := by
  have shorter := laws.decode_shorter _ m [] (whole [])
  rwa [List.append_nil] at shorter

theorem readUpdates_step {rest : Bytes} (read : y.messageDecode bytes = .ok (m, rest))
    (fuel : Nat) : readUpdates y (fuel + 1) bytes =
      (readUpdates y fuel rest).map ((delta m).toList ++ ·) := by
  have skipped : readUpdates y fuel rest = (readUpdates y fuel rest).map ([] ++ ·) := by
    cases readUpdates y fuel rest <;> rfl
  rw [readUpdates, read]
  cases m with
  | sync msg =>
    cases msg with
    | syncStep1 sv => exact skipped
    | syncStep2 update => rfl
    | update update => rfl
  | awareness clients => exact skipped
  | awarenessQuery => exact skipped
  | auth reason => exact skipped
  | custom tag data => exact skipped

/-- The loop collects the deltas of whole messages, and stops at a tail that ends it. -/
theorem readUpdates_packed (laws : y.Laws) (packed : Packed y ms front) {message : String}
    (ended : y.messageDecode tail = .error ⟨true, message⟩) {fuel : Nat}
    (enough : front.length < fuel) : readUpdates y fuel (front ++ tail) = .ok (deltas ms) := by
  induction packed generalizing fuel with
  | nil =>
    obtain ⟨fuel, rfl⟩ := Nat.exists_eq_add_of_lt enough
    simp [readUpdates, ended, deltas]
  | @cons m ms front rest whole more ih =>
    have positive := whole.positive laws
    rw [List.length_append] at enough
    obtain ⟨fuel, rfl⟩ : ∃ n, fuel = n + 1 := ⟨fuel - 1, by omega⟩
    rw [List.append_assoc, readUpdates_step (whole _), ih (by omega)]
    simp only [Except.map, deltas, List.filterMap_cons]
    cases delta m <;> rfl

theorem readUpdates_whole (laws : y.Laws) (packed : Packed y ms bytes) :
    readUpdates y (bytes.length + 1) bytes = .ok (deltas ms) := by
  obtain ⟨message, ended⟩ := laws.decode_nil
  have read := readUpdates_packed laws packed ended (Nat.lt_succ_self bytes.length)
  rwa [List.append_nil] at read

theorem mergedDocUpdate_packed (laws : y.Laws) (packed : Packed y ms front) {message : String}
    (ended : y.messageDecode tail = .error ⟨true, message⟩) :
    readUpdates y ((front ++ tail).length + 1) (front ++ tail) = .ok (deltas ms) ∧
      mergedDocUpdate y (front ++ tail) = mergedDocUpdate y front := by
  have cut : readUpdates y ((front ++ tail).length + 1) (front ++ tail) = .ok (deltas ms) :=
    readUpdates_packed laws packed ended (by rw [List.length_append]; omega)
  exact ⟨cut, by rw [mergedDocUpdate, mergedDocUpdate, cut, readUpdates_whole laws packed]⟩

theorem contents_of (decodable : ∀ update ∈ updates, ∃ u, y.decodeV1 update = .ok u) :
    ∃ contents : List Content, updates.map y.contentOf = contents.map some := by
  induction updates with
  | nil => exact ⟨[], rfl⟩
  | cons update updates ih =>
    obtain ⟨u, decoded⟩ := decodable update (by simp)
    obtain ⟨contents, rest⟩ := ih fun later mem => decodable later (by simp [mem])
    exact ⟨y.content u :: contents, by rw [List.map_cons, rest, contentOf_ok decoded]; rfl⟩

def Chosen (y : Yrs) (updates : List Bytes) (chosen : Except String Bytes) : Prop :=
  (∃ update, updates = [update] ∧ chosen = .ok update) ∨
    (∃ one two rest, updates = one :: two :: rest) ∧ chosen = y.mergeUpdatesV1 updates

theorem chosen_exists (y : Yrs) (some_ : updates ≠ []) : ∃ chosen, Chosen y updates chosen := by
  match updates, some_ with
  | [update], _ => exact ⟨_, .inl ⟨update, rfl, rfl⟩⟩
  | one :: two :: rest, _ => exact ⟨_, .inr ⟨⟨one, two, rest, rfl⟩, rfl⟩⟩

theorem mergedDocUpdate_chosen {chosen : Except String Bytes} (choice : Chosen y updates chosen)
    (read : readUpdates y (bytes.length + 1) bytes = .ok updates) :
    mergedDocUpdate y bytes = chosen.bind fun merged => (y.decodeV1 merged).bind fun u =>
      if (y.updateStateVector u).isEmpty && y.deleteSetIsEmpty u &&
        (y.updateStateVectorLower u).isEmpty then .ok none else .ok (some merged) := by
  rcases choice with ⟨update, rfl, rfl⟩ | ⟨⟨one, two, rest, rfl⟩, rfl⟩
  · simp only [mergedDocUpdate, read, bind, Except.bind, List.isEmpty_cons, Bool.false_eq_true,
      ↓reduceIte, pure, Except.pure]
  · simp only [mergedDocUpdate, read, bind, Except.bind, List.isEmpty_cons, Bool.false_eq_true,
      ↓reduceIte, pure, Except.pure]

theorem chosen_content (laws : y.Laws) {chosen : Except String Bytes}
    (choice : Chosen y updates chosen) {contents : List Content}
    (carried : updates.map y.contentOf = contents.map some) :
    ∃ merged u, chosen = .ok merged ∧ y.decodeV1 merged = .ok u ∧
      y.content u = Content.join contents := by
  rcases choice with ⟨update, rfl, rfl⟩ | ⟨_, rfl⟩
  · obtain ⟨c, rfl⟩ : ∃ c, contents = [c] := by
      have one := congrArg List.length carried
      rw [List.length_map, List.length_map, List.length_singleton] at one
      exact List.length_eq_one_iff.mp one.symm
    obtain ⟨u, decoded, content⟩ := contentOf_some (List.cons.inj carried).1
    exact ⟨update, u, rfl, decoded, by rw [content, join_singleton]⟩
  · obtain ⟨merged, ok, joined⟩ := laws.merge_joins _ _ carried
    obtain ⟨u, decoded, content⟩ := contentOf_some joined
    exact ⟨merged, u, ok, decoded, content⟩

theorem extracted (laws : y.Laws) (read : readUpdates y (bytes.length + 1) bytes = .ok updates)
    {contents : List Content} (carried : updates.map y.contentOf = contents.map some) :
    (Content.join contents).IsEmpty ∧ mergedDocUpdate y bytes = .ok none ∨
      ¬ (Content.join contents).IsEmpty ∧ ∃ merged u, mergedDocUpdate y bytes = .ok (some merged) ∧
        y.decodeV1 merged = .ok u ∧ y.content u = Content.join contents := by
  by_cases none : updates = []
  · subst none
    obtain rfl : contents = [] := by simpa using carried.symm
    left
    constructor
    · simp [Content.IsEmpty, Content.join]
    · simp [mergedDocUpdate, read, bind, Except.bind, pure, Except.pure]
  · obtain ⟨chosen, choice⟩ := chosen_exists y none
    obtain ⟨merged, u, rfl, decoded, content⟩ := chosen_content laws choice carried
    have result := mergedDocUpdate_chosen choice read
    simp only [Except.bind, decoded] at result
    by_cases empty : (y.content u).IsEmpty
    · left
      rw [if_pos ((noop_iff laws.toRules u).mpr empty)] at result
      exact ⟨content ▸ empty, result⟩
    · right
      rw [if_neg fun noop => empty ((noop_iff laws.toRules u).mp noop)] at result
      exact ⟨content ▸ empty, merged, u, result, decoded, content⟩

def typing : Bytes := encodeDelta ⟨[typed 1 0 none], []⟩

/- An edit that hangs on a block nobody sent, and a deletion of one. -/
def hanging : Bytes := encodeDelta ⟨[typed 2 3 (some ⟨1, 2⟩)], []⟩

/-- A cut frame is read as the messages before the cut, and raises only where one of their
    deltas is not an update. -/
theorem cut_raises_iff (laws : y.Laws) (refuses : Refuses y) (ends : EndsAtCut y)
    (packed : Packed y ms front) {whole p : Bytes} (next : Whole y m whole) (cut : p <+: whole)
    (strict : p ≠ whole) : mergedDocUpdate y (front ++ p) = mergedDocUpdate y front ∧
      ((∃ e, mergedDocUpdate y (front ++ p) = .error e) ↔
        ∃ update ∈ deltas ms, ∃ e, y.decodeV1 update = .error e) := by
  obtain ⟨message, ended⟩ := ends m whole p next cut strict
  obtain ⟨read, same⟩ := mergedDocUpdate_packed laws packed ended
  refine ⟨same, ?_, ?_⟩
  · rintro ⟨e, raised⟩
    by_contra all
    have decodable : ∀ update ∈ deltas ms, ∃ u, y.decodeV1 update = .ok u := by
      intro update came
      cases decoded : y.decodeV1 update with
      | ok u => exact ⟨u, rfl⟩
      | error e => exact absurd ⟨update, came, e, decoded⟩ all
    obtain ⟨contents, carried⟩ := contents_of decodable
    rcases extracted laws read carried with ⟨_, result⟩ | ⟨_, _, _, result, _⟩
    · simp [result] at raised
    · simp [result] at raised
  · rintro ⟨update, came, e, failed⟩
    obtain ⟨chosen, choice⟩ := chosen_exists y (List.ne_nil_of_mem came)
    rw [mergedDocUpdate_chosen choice read]
    rcases choice with ⟨only, single, rfl⟩ | ⟨_, rfl⟩
    · obtain rfl : update = only := by simpa [single] using came
      exact ⟨e, by simp [Except.bind, failed]⟩
    · obtain ⟨e', refused⟩ := refuses _ ⟨update, came, e, failed⟩
      exact ⟨e', by simp [Except.bind, refused]⟩

theorem mapM_fails {updates : List Bytes} {update : Bytes} {e : String} (came : update ∈ updates)
    (failed : decodeDelta update = .error e) : ∃ e', updates.mapM decodeDelta = .error e' := by
  induction updates with
  | nil => simp at came
  | cons first updates ih =>
    rw [List.mapM_cons]
    cases decoded : decodeDelta first with
    | error e' => exact ⟨e', rfl⟩
    | ok u =>
      rcases List.mem_cons.mp came with rfl | later
      · simp [decoded] at failed
      · obtain ⟨e', refused⟩ := ih later
        exact ⟨e', by rw [refused]; rfl⟩

theorem crate_refuses : Refuses crate := by
  rintro updates ⟨update, came, e, failed⟩
  obtain ⟨e', refused⟩ := mapM_fails came failed
  exact ⟨e', by change (updates.mapM decodeDelta).map _ = _; rw [refused]; rfl⟩

theorem crate_endsAtCut : EndsAtCut Reference.crate := by
  intro m whole p next cut strict
  obtain ⟨rest, rfl⟩ := cut
  have read := next []
  rw [List.append_nil] at read
  have parsed := decodeMessage_ok read
  cases short : runsOut p with
  | true =>
    refine ⟨"failed to decode message", ?_⟩
    change decodeMessage p = _
    rw [decodeMessage, parseMessage_runsOut short, short]
  | false =>
    rw [parseMessage_append short, Option.map_eq_some_iff] at parsed
    obtain ⟨read, _, same⟩ := parsed
    have none : rest = [] := (List.append_eq_nil_iff.mp (Prod.mk.inj same).2).2
    rw [none, List.append_nil] at strict
    exact absurd rfl strict

theorem typing_whole : Whole crate (.sync (.update typing)) (syncFrame 2 typing) :=
  syncFrame_whole crate_laws rfl

theorem typing_cut : [0] <+: syncFrame 2 typing ∧ [0] ≠ syncFrame 2 typing := by
  decide +kernel

theorem spoilt_then_cut_raises :
    ∃ e, mergedDocUpdate crate (syncFrame 2 [1] ++ [] ++ [0]) = .error e := by
  have whole : Whole crate (.sync (.update [1])) (syncFrame 2 [1]) := syncFrame_whole crate_laws rfl
  have packed : Packed crate [.sync (.update [1])] (syncFrame 2 [1] ++ []) := Packed.cons whole Packed.nil
  apply (cut_raises_iff crate_laws crate_refuses crate_endsAtCut packed typing_whole typing_cut.1
    typing_cut.2).2.mpr
  exact ⟨[1], by simp [deltas, delta], _, rfl⟩

theorem cut_frame_accepted : mergedDocUpdate crate [0] = .ok none ∧
    mergedDocUpdate crate (syncFrame 2 typing ++ [0]) = .ok (some typing) ∧
    ¬ ∀ ms front m whole p, Packed crate ms front → Whole crate m whole → p <+: whole → p ≠ [] →
      p ≠ whole → ∃ e, mergedDocUpdate crate (front ++ p) = .error e := by
  refine ⟨rfl, rfl, fun raises => ?_⟩
  obtain ⟨e, raised⟩ := raises [] [] _ _ [0] Packed.nil typing_whole typing_cut.1 (by simp)
    typing_cut.2
  have read : mergedDocUpdate crate ([] ++ [0]) = .ok none := rfl
  rw [read] at raised
  simp at raised

end Yrby.Extraction
