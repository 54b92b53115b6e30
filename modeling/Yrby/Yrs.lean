import Yrby.Wire

/- The yrs crate as the extension uses it. Its code is not in the repository, so
   its operations are parameters; view and content say what a document and a
   decoded update hold, and Laws states what the extension relies on. -/
namespace Yrby
open Causal Document Wire

/-- A map from clients to clocks; a client that is absent counts as clock zero. -/
structure StateVector where
  entries : List (Nat × Nat)
  deriving DecidableEq, Repr

namespace StateVector

def default : StateVector := ⟨[]⟩

def get (sv : StateVector) (client : Nat) : Nat := (sv.entries.lookup client).getD 0

def isEmpty (sv : StateVector) : Bool := sv.entries.isEmpty

/- a >= b in the partial order of state vectors; false when incomparable -/
def covers (a b : StateVector) : Bool := b.entries.all fun e => decide (b.get e.1 ≤ a.get e.1)

def same (a b : StateVector) : Bool :=
  (a.entries ++ b.entries).all fun e => a.entries.lookup e.1 == b.entries.lookup e.1

theorem lookup_some_mem {entries : List (Nat × Nat)} {client clock : Nat}
    (found : entries.lookup client = some clock) : (client, clock) ∈ entries := by
  induction entries with
  | nil => simp at found
  | cons e rest ih =>
    obtain ⟨c, k⟩ := e
    rw [List.lookup_cons] at found
    split at found
    · rename_i eq
      simp_all
    · exact List.mem_cons_of_mem _ (ih found)

theorem covers_iff (a b : StateVector) :
    a.covers b = true ↔ ∀ client, b.get client ≤ a.get client := by
  simp only [covers, List.all_eq_true, decide_eq_true_eq]
  constructor
  · intro le client
    cases found : b.entries.lookup client with
    | none => simp [get, found]
    | some clock => exact le _ (lookup_some_mem found)
  · intro le e _
    exact le e.1

theorem same_iff (a b : StateVector) :
    a.same b = true ↔ ∀ client, a.entries.lookup client = b.entries.lookup client := by
  simp only [same, List.all_eq_true, beq_iff_eq, List.mem_append]
  constructor
  · intro eq client
    cases found : a.entries.lookup client with
    | none =>
      cases other : b.entries.lookup client with
      | none => rfl
      | some clock =>
        have := eq _ (Or.inr (lookup_some_mem other))
        simp_all
    | some clock =>
      have := eq _ (Or.inl (lookup_some_mem found))
      simp_all
  · intro eq e _
    exact eq e.1

/-- Without entries at zero, equal maps and equal clocks are the same thing. -/
theorem same_iff_get {a b : StateVector}
    (posA : ∀ client, a.entries.lookup client ≠ some 0)
    (posB : ∀ client, b.entries.lookup client ≠ some 0) :
    a.same b = true ↔ ∀ client, a.get client = b.get client := by
  rw [same_iff]
  refine forall_congr' fun client => ?_
  have pa := posA client
  have pb := posB client
  simp only [get]
  cases ha : a.entries.lookup client with
  | none =>
    cases hb : b.entries.lookup client with
    | none => simp
    | some k =>
      have : k ≠ 0 := fun zero => pb (by rw [hb, zero])
      simp only [reduceCtorEq, Option.getD_none, Option.getD_some, false_iff]
      omega
  | some j =>
    have : j ≠ 0 := fun zero => pa (by rw [ha, zero])
    cases hb : b.entries.lookup client with
    | none =>
      simp only [reduceCtorEq, Option.getD_none, Option.getD_some, false_iff]
      omega
    | some k => simp

@[simp] theorem get_default (client : Nat) : default.get client = 0 := rfl

theorem isEmpty_iff_lookup (sv : StateVector) :
    sv.isEmpty = true ↔ ∀ client, sv.entries.lookup client = none := by
  constructor
  · intro empty client
    rw [List.isEmpty_iff.mp empty]
    rfl
  · intro absent
    cases eq : sv.entries with
    | nil => simp [isEmpty, eq]
    | cons e rest =>
      have := absent e.1
      simp [eq] at this

end StateVector

inductive SyncMessage where
  | syncStep1 (sv : StateVector)
  | syncStep2 (update : Bytes)
  | update (update : Bytes)

structure AwarenessEntry where
  client : Nat
  clock : Nat
  json : String

inductive Message where
  | sync (msg : SyncMessage)
  | awareness (clients : List AwarenessEntry)
  | awarenessQuery
  | auth (reason : Option String)
  | custom (tag : Nat) (data : Bytes)

def SyncMessage.syncType : SyncMessage → Nat
  | .syncStep1 _ => 0
  | .syncStep2 _ => 1
  | .update _ => 2

/- endOfBuffer marks the error that ends a MessageReader without being yielded -/
structure ReadError where
  endOfBuffer : Bool
  message : String

structure Yrs where
  Doc : Type
  Update : Type
  newDoc : Doc
  decodeV1 : Bytes → Except String Update
  applyUpdate : Doc → Update → Doc × Except String Unit
  stateVector : Doc → StateVector
  encodeStateAsUpdateV1 : Doc → StateVector → Bytes
  pendingUpdateIsSome : Doc → Bool
  pendingDsIsSome : Doc → Bool
  prunePending : Doc → Doc
  updateStateVector : Update → StateVector
  updateStateVectorLower : Update → StateVector
  deleteSetIsEmpty : Update → Bool
  mergeUpdatesV1 : List Bytes → Except String Bytes
  stateVectorEncodeV1 : StateVector → Bytes
  stateVectorDecodeV1 : Bytes → Except String StateVector
  messageDecode : Bytes → Except ReadError (Message × Bytes)
  messageEncode : Message → Bytes
  view : Doc → DocState
  content : Update → Content

namespace Yrs
variable (y : Yrs)

/-- What a byte string carries as a v1 update, when it is one. -/
def contentOf (update : Bytes) : Option Content :=
  match y.decodeV1 update with
  | .ok u => some (y.content u)
  | .error _ => none

/-- The payload of a sync message on the wire. -/
def Carries : SyncMessage → Bytes → Prop
  | .syncStep1 sv, payload => y.stateVectorDecodeV1 payload = .ok sv
  | .syncStep2 update, payload => payload = update
  | .update update, payload => payload = update

/- Blocks of a document at or above a state vector, and all the parked ones. -/
def diff (d : DocState) (sv : StateVector) : Content where
  blocks := {b ∈ d.integrated | sv.get b.id.client ≤ b.id.clock} ∪ d.parked
  deletes := d.deletes ∪ d.parkedDeletes

/-- apply_update refuses no block of the update over this document. -/
def Takes (doc : y.Doc) (u : y.Update) : Prop := (y.applyUpdate doc u).2 = .ok ()

structure Rules : Prop where
  view_newDoc : y.view y.newDoc = DocState.empty
  /-- apply_update integrates what has its dependencies and parks the rest, where it
      refuses no block. -/
  apply_integrates : ∀ doc u, y.Takes doc u →
    Integrates (y.view doc) (y.content u) (y.view (y.applyUpdate doc u).1)
  /-- What a document has taken, a new one takes from its full encoding. -/
  reseeds : ∀ doc u, y.decodeV1 (y.encodeStateAsUpdateV1 doc .default) = .ok u →
    y.Takes y.newDoc u
  /-- state_vector counts integrated blocks only. -/
  stateVector_counts : ∀ doc client clock,
    (⟨client, clock⟩ : ID) ∈ (y.view doc).ids ↔ clock < (y.stateVector doc).get client
  stateVector_positive : ∀ doc client, (y.stateVector doc).entries.lookup client ≠ some 0
  pendingUpdate_iff : ∀ doc, y.pendingUpdateIsSome doc = true ↔ (y.view doc).parked ≠ ∅
  pendingDs_iff : ∀ doc, y.pendingDsIsSome doc = true ↔ (y.view doc).parkedDeletes ≠ ∅
  prune_view : ∀ doc, y.view (y.prunePending doc) = (y.view doc).pruned
  /-- encode_state_as_update is the integrated blocks at or above the state vector
      plus all deletes, merged with the parked content, and a function of the three. -/
  encode_decodes : ∀ doc sv, ∃ u,
    y.decodeV1 (y.encodeStateAsUpdateV1 doc sv) = .ok u ∧ y.content u = diff (y.view doc) sv
  encode_view : ∀ doc doc' sv, y.view doc = y.view doc' →
    y.encodeStateAsUpdateV1 doc sv = y.encodeStateAsUpdateV1 doc' sv
  /-- An update's state_vector counts, per client whose first block is at clock 0,
      the blocks up to the first Skip. -/
  updateStateVector_counts : ∀ u client clock,
    clock < (y.updateStateVector u).get client ↔
      ∀ j ≤ clock, (⟨client, j⟩ : ID) ∈ keys (y.content u).blocks
  updateStateVector_positive : ∀ u client, (y.updateStateVector u).entries.lookup client ≠ some 0
  /-- state_vector_lower is the first non-Skip clock per client. -/
  lower_absent : ∀ u client, (y.updateStateVectorLower u).entries.lookup client = none ↔
    ∀ b ∈ (y.content u).blocks, b.id.client ≠ client
  lower_least : ∀ u, ∀ b ∈ (y.content u).blocks,
    (y.updateStateVectorLower u).get b.id.client ≤ b.id.clock
  lower_attained : ∀ u, ∀ b ∈ (y.content u).blocks,
    (⟨b.id.client, (y.updateStateVectorLower u).get b.id.client⟩ : ID) ∈ keys (y.content u).blocks
  deleteSet_iff : ∀ u, y.deleteSetIsEmpty u = true ↔ (y.content u).deletes = ∅
  /-- merge_updates_v1 carries the union of its inputs. -/
  merge_joins : ∀ updates contents, updates.map y.contentOf = contents.map some →
    ∃ merged, y.mergeUpdatesV1 updates = .ok merged ∧
      y.contentOf merged = some (Content.join contents)
  stateVector_roundtrip : ∀ sv, ∃ sv', y.stateVectorDecodeV1 (y.stateVectorEncodeV1 sv) = .ok sv' ∧
    ∀ client, sv'.get client = sv.get client
  /-- Messages are read and written in the y-protocols wire format. -/
  decode_nil : ∃ message, y.messageDecode [] = .error ⟨true, message⟩
  decode_shorter : ∀ bytes msg rest, y.messageDecode bytes = .ok (msg, rest) →
    rest.length < bytes.length
  decode_syncFrame : ∀ msg payload rest, y.Carries msg payload →
    y.messageDecode (syncFrame msg.syncType payload ++ rest) = .ok (.sync msg, rest)
  decode_sync_shape : ∀ bytes msg, y.messageDecode bytes = .ok (.sync msg, []) →
    ∃ payload, y.Carries msg payload ∧ IsSyncFrame msg.syncType payload bytes
  decode_awareness_shape : ∀ bytes clients, y.messageDecode bytes = .ok (.awareness clients, []) →
    ∃ payload, IsAwarenessFrame payload bytes
  encode_syncStep1 : ∀ sv, y.messageEncode (.sync (.syncStep1 sv)) =
    syncFrame 0 (y.stateVectorEncodeV1 sv)
  encode_syncStep2 : ∀ update, y.messageEncode (.sync (.syncStep2 update)) = syncFrame 1 update
  encode_update : ∀ update, y.messageEncode (.sync (.update update)) = syncFrame 2 update

/-- The rules of a crate on updates no block of which it refuses. -/
structure Laws : Prop extends Rules y where
  takes : ∀ doc u, y.Takes doc u

variable {y}

theorem contentOf_ok {update : Bytes} {u : y.Update} (decoded : y.decodeV1 update = .ok u) :
    y.contentOf update = some (y.content u) := by simp [contentOf, decoded]

theorem contentOf_some {update : Bytes} {c : Content} (carried : y.contentOf update = some c) :
    ∃ u, y.decodeV1 update = .ok u ∧ y.content u = c := by
  unfold contentOf at carried
  split at carried
  · rename_i u decoded
    exact ⟨u, decoded, Option.some.inj carried⟩
  · simp at carried

theorem Laws.integrates (laws : y.Laws) (doc : y.Doc) (u : y.Update) :
    Integrates (y.view doc) (y.content u) (y.view (y.applyUpdate doc u).1) :=
  laws.apply_integrates doc u (laws.takes doc u)

theorem apply_eq (laws : y.Laws) (doc : y.Doc) (u : y.Update) :
    y.applyUpdate doc u = ((y.applyUpdate doc u).1, .ok ()) := by
  rw [← laws.takes doc u]

end Yrs

end Yrby
