import Yrby.Effects.Stateful
import Yrby.Yrs

/- Yjs, y-protocols/sync and y-protocols/awareness as the client uses them. Their
   code is not in the repository: the operations are parameters, and Laws states
   what is documented of them, over the update format they share with yrs. -/
namespace Yrby
open Causal Document Wire Effects

/-- What readSyncMessage works on: it takes from the decoder, writes its answer to
    the encoder, and applies updates to the document. -/
structure SyncCoders (Doc : Type) where
  decoder : Bytes
  encoder : Bytes
  doc : Doc

structure Yjs where
  Doc : Type
  Awareness : Type
  Presence : Type
  newDoc : Doc
  clientID : Doc → Nat
  applyUpdate : Doc → Bytes → Doc × Except JsError Unit
  encodeStateVector : Doc → Bytes
  encodeStateAsUpdate : Doc → Bytes → Except JsError Bytes
  mergeUpdates : List Bytes → Except JsError Bytes
  readSyncMessage : EStateM JsError (SyncCoders Doc) Number
  writeSyncStep1 : Doc → Bytes
  writeUpdate : Bytes → Bytes
  newAwareness : Doc → Awareness
  getLocalState : Awareness → Option Presence
  /- The awareness afterwards, and the clients its update event names -/
  setLocalState : Awareness → Option Presence → Awareness × List Nat
  getStates : Awareness → List Nat
  removeAwarenessStates : Awareness → List Nat → Awareness
  encodeAwarenessUpdate : Awareness → List Nat → Except JsError Bytes
  applyAwarenessUpdate : Awareness → Bytes → Awareness × Except JsError Unit
  view : Doc → DocState

def messageYjsSyncStep1 : Nat := 0

def messageYjsSyncStep2 : Nat := 1

def messageYjsUpdate : Nat := 2

namespace Yjs

section
variable (js : Yjs)

def onDecoder {α : Type} (reader : Reader α) : EStateM JsError (SyncCoders js.Doc) α :=
  zoom (·.decoder) (fun rest io => { io with decoder := rest }) reader

/- readSyncStep1: answer with writeSyncStep2(encoder, doc, encodedStateVector) -/
def documentedSyncStep1 : EStateM JsError (SyncCoders js.Doc) Unit := do
  let encodedStateVector ← js.onDecoder readVarUint8Array
  let io ← get
  match js.encodeStateAsUpdate io.doc encodedStateVector with
  | .error e => throw e
  | .ok update => set { io with encoder :=
      io.encoder ++ writeVarUint messageYjsSyncStep2 ++ writeVarUint8Array update }

/- readSyncStep2, which is readUpdate too: what is raised while reading or applying
   the update is only logged. -/
def documentedUpdate : EStateM JsError (SyncCoders js.Doc) Unit :=
  tryCatch (do
    let update ← js.onDecoder readVarUint8Array
    let io ← get
    set { io with doc := (js.applyUpdate io.doc update).1 }
    match (js.applyUpdate io.doc update).2 with
    | .error e => throw e
    | .ok _ => return ())
    fun _ => return ()

def documentedSync : EStateM JsError (SyncCoders js.Doc) Number := do
  let messageType ← js.onDecoder readVarUint
  if messageType = messageYjsSyncStep1 then
    js.documentedSyncStep1
  else if messageType = messageYjsSyncStep2 ∨ messageType = messageYjsUpdate then
    js.documentedUpdate
  else
    throw "Unknown message type"
  return messageType

end

/- Blocks of a document at or above a state vector, the parked ones among them. -/
def diff (d : DocState) (sv : StateVector) : Content where
  blocks := {b ∈ d.integrated ∪ d.parked | sv.get b.id.client ≤ b.id.clock}
  deletes := d.deletes ∪ d.parkedDeletes

structure Laws (js : Yjs) (y : Yrs) : Prop where
  /-- applyUpdate integrates what has its dependencies and parks the rest. -/
  apply_integrates : ∀ doc update content, y.contentOf update = some content →
    Integrates (js.view doc) content (js.view (js.applyUpdate doc update).1)
  /-- A state vector counts integrated blocks only. -/
  stateVector_counts : ∀ doc, ∃ sv, y.stateVectorDecodeV1 (js.encodeStateVector doc) = .ok sv ∧
    ∀ client clock, (⟨client, clock⟩ : ID) ∈ (js.view doc).ids ↔ clock < sv.get client
  /-- encodeStateAsUpdate merges the parked structs, cut at the state vector too, and the
      parked deletes into the diff. -/
  encode_decodes : ∀ doc encoded sv, y.stateVectorDecodeV1 encoded = .ok sv →
    ∃ update, js.encodeStateAsUpdate doc encoded = .ok update ∧
      y.contentOf update = some (diff (js.view doc) sv)
  /-- mergeUpdates carries the union of its inputs. -/
  merge_joins : ∀ updates contents, updates.map y.contentOf = contents.map some →
    ∃ merged, js.mergeUpdates updates = .ok merged ∧
      y.contentOf merged = some (Content.join contents)
  readSyncMessage_eq : js.readSyncMessage = js.documentedSync
  writeSyncStep1_eq : ∀ doc, js.writeSyncStep1 doc =
    writeVarUint messageYjsSyncStep1 ++ writeVarUint8Array (js.encodeStateVector doc)
  writeUpdate_eq : ∀ update, js.writeUpdate update =
    writeVarUint messageYjsUpdate ++ writeVarUint8Array update

end Yjs

end Yrby
