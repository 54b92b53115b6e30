import Yrby.Yrs

/- The extension's protocol functions (protocol.rs) and the methods of Y::Doc and
   Y built on them (lib.rs). An error is the text Y::Error is raised with. -/
namespace Yrby.Protocol
open Causal Document Wire

variable (y : Yrs)

/- txn.apply_update(u)? on a document that is thrown away on an error -/
def applied (doc : y.Doc) (u : y.Update) : Except String y.Doc :=
  (y.applyUpdate doc u).2.map fun _ => (y.applyUpdate doc u).1

def classifyMessage (bytes : Bytes) : Nat :=
  match y.messageDecode bytes with
  | .error _ => 0
  | .ok (msg, rest) =>
    if !rest.isEmpty then 0
    else match msg with
      | .sync (.syncStep1 _) => 1
      | .sync (.syncStep2 _) | .sync (.update _) => 2
      | .awareness _ => 3
      | .awarenessQuery => 4
      | _ => 0

/- The for loop over MessageReader. A message takes at least one byte, so the
   length of the buffer is fuel enough. -/
def readUpdates : Nat → Bytes → Except String (List Bytes)
  | 0, _ => .ok []
  | fuel + 1, bytes =>
    match y.messageDecode bytes with
    | .error e => if e.endOfBuffer then .ok [] else .error e.message
    | .ok (.sync (.update u), rest) => (readUpdates fuel rest).map (u :: ·)
    | .ok (.sync (.syncStep2 u), rest) => (readUpdates fuel rest).map (u :: ·)
    | .ok (_, rest) => readUpdates fuel rest

def mergedDocUpdate (bytes : Bytes) : Except String (Option Bytes) := do
  let updates ← readUpdates y (bytes.length + 1) bytes
  if updates.isEmpty then return none
  let merged ← match updates with
    | [u] => .ok u
    | updates => y.mergeUpdatesV1 updates
  let update ← y.decodeV1 merged
  if (y.updateStateVector update).isEmpty && y.deleteSetIsEmpty update &&
      (y.updateStateVectorLower update).isEmpty then
    return none
  return some merged

def hasPending (doc : y.Doc) : Bool := y.pendingUpdateIsSome doc || y.pendingDsIsSome doc

/- The slow path of integrated_update: rebuild into a throwaway document, prune
   what parks there, encode again. -/
def rebuiltUpdate (doc : y.Doc) (sv : StateVector) : Except String Bytes := do
  let full := y.encodeStateAsUpdateV1 doc .default
  let update ← y.decodeV1 full
  let clean ← applied y y.newDoc update
  return y.encodeStateAsUpdateV1 (y.prunePending clean) sv

def integratedUpdate (doc : y.Doc) (sv : StateVector) : Except String Bytes :=
  if !y.pendingUpdateIsSome doc && !y.pendingDsIsSome doc then
    .ok (y.encodeStateAsUpdateV1 doc sv)
  else rebuiltUpdate y doc sv

def updateIsReady (doc : y.Doc) (updateBytes : Bytes) : Except String Bool := do
  let update ← y.decodeV1 updateBytes
  let lowerCovered := (y.stateVector doc).covers (y.updateStateVectorLower update)
  if !lowerCovered then return false
  let seed ← integratedUpdate y doc .default
  let seedUpdate ← y.decodeV1 seed
  let probe ← applied y y.newDoc seedUpdate
  let probe ← applied y probe update
  return !hasPending y probe

def updateAdvancesDoc (doc : y.Doc) (updateBytes : Bytes) : Except String Bool := do
  let update ← y.decodeV1 updateBytes
  let hasDeletes := !y.deleteSetIsEmpty update
  if !hasDeletes && !(y.stateVector doc).covers (y.updateStateVector update) then return true
  let current := y.encodeStateAsUpdateV1 doc .default
  let currentUpdate ← y.decodeV1 current
  let probe ← applied y y.newDoc currentUpdate
  let pendingBefore := y.pendingUpdateIsSome probe || y.pendingDsIsSome probe
  if hasDeletes then
    let before := y.encodeStateAsUpdateV1 probe .default
    let probe ← applied y probe update
    let after := y.encodeStateAsUpdateV1 probe .default
    return before != after
  else
    let before := y.stateVector probe
    let probe ← applied y probe update
    let after := y.stateVector probe
    if !before.same after then return true
    let pendingAfter := y.pendingUpdateIsSome probe || y.pendingDsIsSome probe
    return pendingAfter != pendingBefore

/- The methods of Y::Doc: the document afterwards, and the result or the error.
   What was applied before an error stays applied. -/
def docApplyUpdate (doc : y.Doc) (updateBytes : Bytes) : y.Doc × Except String Unit :=
  match y.decodeV1 updateBytes with
  | .error e => (doc, .error e)
  | .ok update => y.applyUpdate doc update

def encodeStateVector (doc : y.Doc) : Bytes := y.stateVectorEncodeV1 (y.stateVector doc)

/- Diffed against a state vector when one is given; lossless, what is parked included. -/
def encodeStateAsUpdate (doc : y.Doc) (svBytes : Option Bytes) : Except String Bytes := do
  let sv ← match svBytes with
    | none => .ok .default
    | some bytes => y.stateVectorDecodeV1 bytes
  return y.encodeStateAsUpdateV1 doc sv

def compactedStateUpdate (doc : y.Doc) : Except String Bytes := integratedUpdate y doc .default

def syncStep1 (doc : y.Doc) : Bytes := y.messageEncode (.sync (.syncStep1 (y.stateVector doc)))

def handleSyncMessage (doc : y.Doc) (data : Bytes) : y.Doc × Except String (Nat × Nat × Bytes) :=
  match y.messageDecode data with
  | .error e => (doc, .error e.message)
  | .ok (.sync (.syncStep1 sv), _) =>
    (doc, (integratedUpdate y doc sv).map fun update =>
      (0, 0, y.messageEncode (.sync (.syncStep2 update))))
  | .ok (.sync (.syncStep2 updateBytes), _) =>
    let (doc, result) := docApplyUpdate y doc updateBytes
    (doc, result.map fun _ => (0, 1, []))
  | .ok (.sync (.update updateBytes), _) =>
    let (doc, result) := docApplyUpdate y doc updateBytes
    (doc, result.map fun _ => (0, 2, []))
  | .ok (.awareness _, _) => (doc, .ok (1, 0, []))
  | .ok (_, _) => (doc, .error "unsupported message type")

/- Wraps a raw document update in a sync Update frame. -/
def wrapUpdate (updateBytes : Bytes) : Bytes := y.messageEncode (.sync (.update updateBytes))

/-- One SyncStep2 or Update message with this payload, and nothing after it. -/
def IsDocFrame (bytes update : Bytes) : Prop :=
  y.messageDecode bytes = .ok (.sync (.syncStep2 update), []) ∨
    y.messageDecode bytes = .ok (.sync (.update update), [])

variable {y}

theorem classifyMessage_update {bytes : Bytes} (kind : classifyMessage y bytes = 2) :
    ∃ update, IsDocFrame y bytes update := by
  unfold classifyMessage at kind
  cases decoded : y.messageDecode bytes with
  | error e => simp [decoded] at kind
  | ok read =>
    obtain ⟨msg, rest⟩ := read
    cases rest with
    | cons r rest => simp [decoded] at kind
    | nil =>
      match msg with
      | .sync (.syncStep1 sv) => simp [decoded] at kind
      | .sync (.syncStep2 update) => exact ⟨update, Or.inl decoded⟩
      | .sync (.update update) => exact ⟨update, Or.inr decoded⟩
      | .awareness _ => simp [decoded] at kind
      | .awarenessQuery => simp [decoded] at kind
      | .auth _ => simp [decoded] at kind
      | .custom _ _ => simp [decoded] at kind

theorem classifyMessage_syncStep1 {bytes : Bytes} (kind : classifyMessage y bytes = 1) :
    ∃ sv, y.messageDecode bytes = .ok (.sync (.syncStep1 sv), []) := by
  unfold classifyMessage at kind
  cases decoded : y.messageDecode bytes with
  | error e => simp [decoded] at kind
  | ok read =>
    obtain ⟨msg, rest⟩ := read
    cases rest with
    | cons r rest => simp [decoded] at kind
    | nil =>
      match msg with
      | .sync (.syncStep1 sv) => exact ⟨sv, rfl⟩
      | .sync (.syncStep2 _) => simp [decoded] at kind
      | .sync (.update _) => simp [decoded] at kind
      | .awareness _ => simp [decoded] at kind
      | .awarenessQuery => simp [decoded] at kind
      | .auth _ => simp [decoded] at kind
      | .custom _ _ => simp [decoded] at kind

theorem classifyMessage_awareness {bytes : Bytes} (kind : classifyMessage y bytes = 3) :
    ∃ clients, y.messageDecode bytes = .ok (.awareness clients, []) := by
  unfold classifyMessage at kind
  cases decoded : y.messageDecode bytes with
  | error e => simp [decoded] at kind
  | ok read =>
    obtain ⟨msg, rest⟩ := read
    cases rest with
    | cons r rest => simp [decoded] at kind
    | nil =>
      match msg with
      | .sync (.syncStep1 _) => simp [decoded] at kind
      | .sync (.syncStep2 _) => simp [decoded] at kind
      | .sync (.update _) => simp [decoded] at kind
      | .awareness clients => exact ⟨clients, rfl⟩
      | .awarenessQuery => simp [decoded] at kind
      | .auth _ => simp [decoded] at kind
      | .custom _ _ => simp [decoded] at kind

theorem classifyMessage_docFrame {bytes update : Bytes} (frame : IsDocFrame y bytes update) :
    classifyMessage y bytes = 2 := by
  rcases frame with decoded | decoded <;> simp [classifyMessage, decoded]

theorem docFrame_unique {bytes update update' : Bytes} (frame : IsDocFrame y bytes update)
    (again : IsDocFrame y bytes update') : update = update' := by
  rcases frame with decoded | decoded <;> rcases again with decoded' | decoded' <;>
    simp_all

theorem docFrame_syncStep2 (laws : y.Laws) (update : Bytes) : IsDocFrame y (syncFrame 1 update) update := by
  have decoded := laws.decode_syncFrame (.syncStep2 update) update [] rfl
  rw [List.append_nil] at decoded
  exact Or.inl decoded

theorem docFrame_update (laws : y.Laws) (update : Bytes) : IsDocFrame y (syncFrame 2 update) update := by
  have decoded := laws.decode_syncFrame (.update update) update [] rfl
  rw [List.append_nil] at decoded
  exact Or.inr decoded

theorem readUpdates_docFrame (rules : y.Rules) {bytes update : Bytes}
    (frame : IsDocFrame y bytes update) : readUpdates y (bytes.length + 1) bytes = .ok [update] := by
  obtain ⟨message, ended⟩ := rules.decode_nil
  have last : readUpdates y bytes.length [] = .ok [] := by
    cases bytes.length <;> simp [readUpdates, ended]
  rcases frame with decoded | decoded <;> simp [readUpdates, decoded, last, Except.map]

theorem mergedDocUpdate_docFrame (rules : y.Rules) {bytes update : Bytes} {merged : Option Bytes}
    (frame : IsDocFrame y bytes update) (ok : mergedDocUpdate y bytes = .ok merged) :
    ∃ u, y.decodeV1 update = .ok u ∧ (merged = some update ∨ merged = none) := by
  cases decoded : y.decodeV1 update with
  | error e =>
    simp [mergedDocUpdate, readUpdates_docFrame rules frame, decoded, bind, Except.bind] at ok
  | ok u =>
    refine ⟨u, rfl, ?_⟩
    simp only [mergedDocUpdate, readUpdates_docFrame rules frame, decoded, bind, Except.bind] at ok
    simp only [List.isEmpty_cons, Bool.false_eq_true, ↓reduceIte, pure, Except.pure] at ok
    split at ok
    · exact Or.inr (Except.ok.inj ok).symm
    · exact Or.inl (Except.ok.inj ok).symm

theorem mergedDocUpdate_undecodable (rules : y.Rules) {bytes update : Bytes} {e : String}
    (frame : IsDocFrame y bytes update) (undecodable : y.decodeV1 update = .error e) :
    mergedDocUpdate y bytes = .error e := by
  simp [mergedDocUpdate, readUpdates_docFrame rules frame, undecodable, bind, Except.bind]

theorem noop_iff (rules : y.Rules) (u : y.Update) :
    ((y.updateStateVector u).isEmpty && y.deleteSetIsEmpty u &&
      (y.updateStateVectorLower u).isEmpty) = true ↔ (y.content u).IsEmpty := by
  simp only [Bool.and_eq_true, StateVector.isEmpty_iff_lookup, rules.deleteSet_iff, Content.IsEmpty]
  constructor
  · rintro ⟨⟨_, deletes⟩, lower⟩
    refine ⟨?_, deletes⟩
    apply Set.eq_empty_of_forall_notMem
    exact fun b mem => (rules.lower_absent u b.id.client).mp (lower _) b mem rfl
  · rintro ⟨blocks, deletes⟩
    refine ⟨⟨fun client => ?_, deletes⟩, fun client => ?_⟩
    · cases found : (y.updateStateVector u).entries.lookup client with
      | none => rfl
      | some clock =>
        have positive := rules.updateStateVector_positive u client
        have counted := (rules.updateStateVector_counts u client 0).mp
        rw [StateVector.get, found, Option.getD_some, blocks, keys_empty] at counted
        have zero : clock ≠ 0 := fun zero => positive (by rw [found, zero])
        exact (counted (by omega) 0 (Nat.le_refl 0)).elim
    · rw [rules.lower_absent, blocks]
      exact fun b mem => mem.elim

theorem mergedDocUpdate_decoded (rules : y.Rules) {bytes update : Bytes} {u : y.Update}
    (frame : IsDocFrame y bytes update) (decoded : y.decodeV1 update = .ok u) :
    mergedDocUpdate y bytes = .ok (some update) ∨
      mergedDocUpdate y bytes = .ok none ∧ (y.content u).IsEmpty := by
  simp only [mergedDocUpdate, readUpdates_docFrame rules frame, decoded, bind, Except.bind,
    List.isEmpty_cons, Bool.false_eq_true, ↓reduceIte, pure, Except.pure]
  split
  · rename_i empty
    exact Or.inr ⟨rfl, (noop_iff rules u).mp empty⟩
  · exact Or.inl rfl

theorem mergedDocUpdate_nothing (rules : y.Rules) {bytes update : Bytes} {u : y.Update}
    (frame : IsDocFrame y bytes update) (decoded : y.decodeV1 update = .ok u)
    (empty : (y.content u).IsEmpty) : mergedDocUpdate y bytes = .ok none := by
  simp only [mergedDocUpdate, readUpdates_docFrame rules frame, decoded, bind, Except.bind,
    List.isEmpty_cons, Bool.false_eq_true, ↓reduceIte, pure, Except.pure]
  rw [if_pos ((noop_iff rules u).mpr empty)]

theorem applied_ok {doc : y.Doc} {u : y.Update} (takes : y.Takes doc u) :
    applied y doc u = .ok (y.applyUpdate doc u).1 := by
  simp only [Yrs.Takes] at takes
  simp [applied, takes, Except.map]

theorem applied_refused {doc : y.Doc} {u : y.Update} (refused : ¬ y.Takes doc u) :
    ∃ e, applied y doc u = .error e := by
  unfold Yrs.Takes at refused
  unfold applied
  cases result : (y.applyUpdate doc u).2 with
  | error e => exact ⟨e, rfl⟩
  | ok _ => exact absurd result refused

theorem hasPending_eq_false_iff (rules : y.Rules) (doc : y.Doc) :
    hasPending y doc = false ↔ (y.view doc).NothingParked := by
  rw [hasPending, Bool.or_eq_false_iff, DocState.NothingParked]
  have structs := rules.pendingUpdate_iff doc
  have deletes := rules.pendingDs_iff doc
  constructor
  · rintro ⟨hs, hd⟩
    constructor
    · by_contra ne; simp [structs.mpr ne] at hs
    · by_contra ne; simp [deletes.mpr ne] at hd
  · rintro ⟨hs, hd⟩
    constructor
    · by_contra ne; exact structs.mp (by simpa using ne) hs
    · by_contra ne; exact deletes.mp (by simpa using ne) hd

end Yrby.Protocol
