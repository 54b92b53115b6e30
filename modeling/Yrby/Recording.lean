import Yrby.DurableLog
import Yrby.Reference.Crate

/- What any interleaving of calls leaves in the log, and what it has sent by then. -/
namespace Yrby.Recording
open Causal Document Wire Yrs Protocol Serving Readiness Channel Effects History DurableLog

variable {y : Yrs} {stored : String → List Bytes}

/-- Entries that are each ready over the ones before them leave nothing pending. -/
theorem replay_clean (laws : y.Laws) {base more : List Bytes}
    (start : (y.view (replay y base)).NothingParked)
    (ready : ∀ p update rest, more = p ++ update :: rest → ∃ content,
      y.contentOf update = some content ∧ (y.view (replay y (base ++ p))).Ready content) :
    ∀ p, p <+: more → (y.view (replay y (base ++ p))).NothingParked := by
  induction more generalizing base with
  | nil =>
    intro p sub
    obtain rfl := List.prefix_nil.mp sub
    simpa using start
  | cons update more ih =>
    intro p sub
    cases p with
    | nil => simpa using start
    | cons first p =>
      obtain ⟨rfl, sub⟩ := List.cons_prefix_cons.mp sub
      obtain ⟨content, carried, head⟩ := ready [] first more rfl
      rw [List.append_nil] at head
      have step := replay_content laws base carried
      have clean := (step.clean_iff_ready start).mpr head
      have rest := ih clean (fun q next rest eq => by
        simpa using ready (first :: q) next rest (by simp [eq]))
      simpa using rest p (by simpa using sub)

theorem entry_recorded {h : Trace} {key : String} {p rest : List Bytes} {update : Bytes}
    (eq : h.filterMap (recordedUnder key) = p ++ update :: rest) :
    ∃ before c after, h = before ++ (c, .recorded key update) :: after ∧
      before.filterMap (recordedUnder key) = p := by
  obtain ⟨before, others, rfl, first, second⟩ := List.filterMap_eq_append_iff.mp eq
  obtain ⟨skipped, e, after, rfl, none, entry, _⟩ := List.filterMap_eq_cons_iff.mp second
  obtain ⟨c, event⟩ := e
  refine ⟨before ++ skipped, c, after, ?_, ?_⟩
  · unfold recordedUnder at entry
    split at entry
    · rename_i k u is
      split at entry
      · rename_i same
        obtain rfl := Option.some.inj entry
        simp only at is
        simp [is, same]
      · simp at entry
    · simp at entry
  · rw [List.filterMap_append, first, List.filterMap_eq_nil_iff.mpr none, List.append_nil]

theorem entry_ready (laws : y.Laws) {server : Server} (reached : Reached y stored server)
    {key : String} {p rest : List Bytes} {update : Bytes}
    (eq : server.world.filterMap (recordedUnder key) = p ++ update :: rest) :
    ∃ content, y.contentOf update = some content ∧
      (y.view (replay y (stored key ++ p))).Ready content := by
  obtain ⟨before, c, after, split, rfl⟩ := entry_recorded eq
  exact (reached_inOrder laws reached).ready before c key update after split

theorem prefix_clean (laws : y.Laws) {key : String}
    (start : hasPending y (replay y (stored key)) = false) {server : Server}
    (reached : Reached y stored server) {p : List Bytes} (onward : stored key <+: p)
    (sub : p <+: logOf stored server.world key) : hasPending y (replay y p) = false := by
  obtain ⟨p, rfl⟩ := onward
  rw [logOf, List.prefix_append_right_inj] at sub
  rw [hasPending_eq_false_iff laws.toRules] at start ⊢
  exact replay_clean laws start (fun _ _ _ => entry_ready laws reached) p sub

/-- A log that starts with nothing pending never goes gappy: in every run of any
    calls, every entry is ready over the entries before it, and every prefix of
    the log replays with nothing pending. -/
theorem log_never_gappy (laws : y.Laws) {key : String}
    (start : hasPending y (replay y (stored key)) = false) {server : Server}
    (reached : Reached y stored server) :
    (∀ p update rest, logOf stored server.world key = stored key ++ (p ++ update :: rest) →
      ∃ content, y.contentOf update = some content ∧
        (y.view (replay y (stored key ++ p))).Ready content) ∧
    (∀ p, stored key <+: p → p <+: logOf stored server.world key →
      hasPending y (replay y p) = false) ∧
    ((∀ p, p <+: stored key → hasPending y (replay y p) = false) →
      ∀ p, p <+: logOf stored server.world key → hasPending y (replay y p) = false) := by
  have later : ∀ p, stored key <+: p → p <+: logOf stored server.world key →
      hasPending y (replay y p) = false := fun p => prefix_clean laws start reached
  refine ⟨fun p update rest eq => ?_, later, fun earlier p sub => ?_⟩
  · exact entry_ready laws reached (List.append_cancel_left eq)
  · rcases List.prefix_or_prefix_of_prefix sub (List.prefix_append _ _) with inside | beyond
    · exact earlier p inside
    · exact later p beyond sub

def typing (client clock id : Nat) (origin : Option ID) : Call where
  connection := client
  channel := ⟨none, true, true, none, false⟩
  request := .receive (.obj [("update", .str (Base64.strictEncode64 (syncFrame 2
    (Reference.encodeDelta ⟨[Reference.typed client clock origin], []⟩)))), ("id", .int id)])
    (some "doc")

/-- Client 2 writes after a character of client 1, and its frame comes in again. -/
def conversation : List Call :=
  [typing 1 0 1 none, typing 2 0 1 (some ⟨1, 0⟩), typing 2 0 1 (some ⟨1, 0⟩)]

def conversed : Trace := inTurn Reference.crate (fun _ => []) 0 conversation []

theorem conversed_reached :
    ∃ tasks, Reached Reference.crate (fun _ => []) ⟨conversed, tasks⟩ :=
  @reached_inTurn _ _ Reference.crate_laws conversation (Pool.initial []) 0
    Relation.ReflTransGen.refl (by simp [Pool.initial]) fun _ _ => rfl

theorem conversed_never_gappy : (logOf (fun _ => []) conversed "doc").length = 2 ∧
    ∀ p, p <+: logOf (fun _ => []) conversed "doc" →
      hasPending Reference.crate (replay Reference.crate p) = false := by
  obtain ⟨tasks, reached⟩ := conversed_reached
  have whole := @log_never_gappy _ _ Reference.crate_laws "doc" rfl _ reached
  refine ⟨by decide +kernel, whole.2.2 fun p sub => ?_⟩
  obtain rfl := List.prefix_nil.mp sub
  rfl

theorem acked_because {h : Trace} {c : Nat} {id : Value}
    (transmits : Transmits y stored h c (ackEnvelope id)) :
    ∃ key encoded bytes update, Received h c key encoded bytes id ∧ IsDocFrame y bytes update ∧
      Relayed y stored h c key encoded update ∧ NoChangeRaised h c := by
  cases transmits with
  | @ack key encoded bytes id' update before after received frame content relayed held unraised =>
    obtain rfl := ackEnvelope_injective content
    exact ⟨key, encoded, bytes, update, received, frame, ⟨before, after, relayed, held⟩,
      unraised⟩
  | opening _ _ _ _ content => exact absurd content (ackEnvelope_ne _ _)
  | resync _ _ _ _ _ _ content => exact absurd content (ackEnvelope_ne _ _)
  | answer _ _ _ _ _ content => exact absurd content (ackEnvelope_ne _ _)

end Yrby.Recording
