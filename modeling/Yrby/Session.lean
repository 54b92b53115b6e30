import Yrby.Json
import Yrby.ReliableSync
import Yrby.Yjs

/- The session (y_protocol_session.ts): y-protocols framing, the sync handshake and
   awareness on top of ReliableSync, bound to one document. The transport is
   injected; W is the state it acts on. -/
namespace Yrby
open Causal Document Wire Effects ReliableSync

/- attached: the listeners of the constructor are still on -/
structure Core (js : Yjs) where
  doc : js.Doc
  awareness : Option js.Awareness
  synced : Bool
  attached : Bool

abbrev State (js : Yjs) (W : Type) := ReliableSync × (Core js × W)

namespace Session
variable {js : Yjs} {W : Type}

def messageSync : Nat := 0

def messageAwareness : Nat := 1

structure Options (W : Type) where
  send : Bytes → Option Nat → EStateM JsError W Unit
  onError : JsError → String → W → W
  resendInterval : Nat
  setInterval : Nat → W → Nat × W
  clearInterval : Nat → W → W

abbrev Method (js : Yjs) (W α : Type) := EStateM JsError (State js W) α

def core : Method js W (Core js) := do return (← get).2.1

def assignCore (change : Core js → Core js) : Method js W Unit :=
  modify fun s => (s.1, change s.2.1, s.2.2)

def frameSyncStep1 (doc : js.Doc) : Bytes := writeVarUint messageSync ++ js.writeSyncStep1 doc

def frameUpdate (js : Yjs) (update : Bytes) : Bytes :=
  writeVarUint messageSync ++ js.writeUpdate update

def frameAwareness (awareness : js.Awareness) (clients : List Nat) : Except JsError Bytes :=
  (js.encodeAwarenessUpdate awareness clients).map fun update =>
    writeVarUint messageAwareness ++ writeVarUint8Array update

/- JSON.parse(readVarString(inner)) for each state, after its client and its clock -/
def validateEntries : Nat → Reader Unit
  | 0 => return ()
  | count + 1 => do
    let _clientID ← readVarUint
    let _clock ← readVarUint
    match Json.parse (← Json.readVarString) with
    | .error e => throw e
    | .ok _ => validateEntries count

def validateAwareness : Reader Unit := do
  let count ← readVarUint
  validateEntries (rounds count (← get))
  if hasContent (← get) then throw "awareness payload has trailing bytes"

/- readSyncMessage on a scratch document -/
def dryRun (js : Yjs) : Reader Unit := fun decoder =>
  match js.readSyncMessage ⟨decoder, writeVarUint messageSync, js.newDoc⟩ with
  | .ok _ io => .ok () io.decoder
  | .error e io => .error e io.decoder

/- One message per frame: anything left after a complete message is malformed. -/
def validateFrame (js : Yjs) : Reader (Option Number) := do
  let type ← readVarUint
  if type = messageSync then
    dryRun js
  else if type = messageAwareness then
    let payload ← readVarUint8Array
    match validateAwareness payload with
    | .error e _ => throw e
    | .ok _ _ => pure ()
  else
    return none
  if hasContent (← get) then throw "frame has trailing bytes after a complete message"
  return some type

variable (opts : Options W)

def transmit (frame : Bytes) (id : Option Nat) : Method js W Unit :=
  zoom (·.2.2) (fun world s => (s.1, s.2.1, world)) (opts.send frame id)

def delivery (js : Yjs) : ReliableSync.Options (Core js × W) where
  send update id := transmit opts (frameUpdate js update) (some id)
  merge := js.mergeUpdates
  resendInterval := opts.resendInterval
  setInterval ms s :=
    let (handle, world) := opts.setInterval ms s.2
    (handle, s.1, world)
  clearInterval handle s := (s.1, opts.clearInterval handle s.2)

/- The update event of the document; an update applied from the server is not
   echoed back. -/
def onDocUpdate (update : Bytes) (originIsThis : Bool) : Method js W Unit := do
  if originIsThis then return ()
  enqueue (delivery opts js) update

/- The update event of the awareness; only our own presence changes go out. -/
def onAwarenessUpdate (changed : List Nat) (originIsThis : Bool) : Method js W Unit := do
  if originIsThis then return ()
  let self ← core
  match self.awareness with
  | none => return ()
  | some awareness =>
    match frameAwareness awareness changed with
    | .error e => throw e
    | .ok frame => transmit opts frame none

/- A transaction of the application: the document changes and its event fires. -/
def transact (doc : js.Doc) (update : Bytes) : Method js W Unit := do
  assignCore fun self => { self with doc := doc }
  let self ← core
  if self.attached then onDocUpdate opts update false

/- The application or the awareness itself changes presence, and its event fires. -/
def changePresence (awareness : js.Awareness) (changed : List Nat) : Method js W Unit := do
  assignCore fun self => { self with awareness := some awareness }
  let self ← core
  if self.attached then onAwarenessUpdate opts changed false

def synced (s : State js W) : Bool := s.2.1.synced

def hasPending (s : State js W) : Bool := s.1.hasPending

def onConnect : Method js W Unit := do
  let self ← core
  transmit opts (frameSyncStep1 self.doc) none
  match self.awareness with
  | none => pure ()
  | some awareness =>
    if (js.getLocalState awareness).isSome then
      match frameAwareness awareness [js.clientID self.doc] with
      | .error e => throw e
      | .ok frame => transmit opts frame none
  ReliableSync.onConnect (delivery opts js)

def onDisconnect : Method js W Unit := do
  assignCore fun self => { self with synced := false }
  ReliableSync.onDisconnect (delivery opts js)
  assignCore fun self => { self with
    awareness := self.awareness.map fun awareness =>
      let remote := (js.getStates awareness).filter (· ≠ js.clientID self.doc)
      if remote.isEmpty then awareness else js.removeAwarenessStates awareness remote }

def removeLocalAwareness : Method js W Unit := do
  let self ← core
  match self.awareness with
  | none => return ()
  | some awareness =>
    if (js.getLocalState awareness).isSome then
      let (awareness, changed) := js.setLocalState awareness none
      changePresence opts awareness changed

def ack (id : Value) : Method js W Unit := onAck (delivery opts js) id

def applyRemoteUpdate (update : Bytes) : Method js W Unit := do
  let self ← core
  let (doc, result) := js.applyUpdate self.doc update
  assignCore fun self => { self with doc := doc }
  match result with
  | .error e => throw e
  | .ok _ => return ()

/- encoding.length(encoder) > 1 ? encoding.toUint8Array(encoder) : null -/
def replyOf (encoder : Bytes) : Option Bytes := if 1 < encoder.length then some encoder else none

def receiveSync (decoder : Bytes) : Method js W (Option Bytes) := do
  let self ← core
  match js.readSyncMessage ⟨decoder, writeVarUint messageSync, self.doc⟩ with
  | .error e io =>
    assignCore fun self => { self with doc := io.doc }
    throw e
  | .ok syncType io =>
    assignCore fun self => { self with
      doc := io.doc
      synced := self.synced || syncType == (messageYjsSyncStep2 : Number) }
    return replyOf io.encoder

def receiveAwareness (decoder : Bytes) : Method js W (Option Bytes) := do
  let self ← core
  match self.awareness with
  | none => return none
  | some awareness =>
    match readVarUint8Array decoder with
    | .error e _ => throw e
    | .ok update _ =>
      let (awareness, result) := js.applyAwarenessUpdate awareness update
      assignCore fun self => { self with awareness := some awareness }
      match result with
      | .error e => throw e
      | .ok _ => return none

def dispatch (frame : Bytes) : Method js W (Option Bytes) :=
  match validateFrame js frame with
  | .error e _ => throw e
  | .ok none _ => return none
  | .ok (some _) _ =>
    match readVarUint frame with
    | .error e _ => throw e
    | .ok type decoder =>
      if type = messageSync then receiveSync decoder
      else if type = messageAwareness then receiveAwareness decoder
      else return none

/- A malformed frame never takes down the transport callback: it is dropped. -/
def receive (frame : Bytes) : Method js W (Option Bytes) :=
  tryCatch (dispatch frame) fun e => do
    modify fun s => (s.1, s.2.1, opts.onError e "receive" s.2.2)
    return none

def destroy : Method js W Unit := do
  assignCore fun self => { self with attached := false }
  ReliableSync.destroy (delivery opts js)

def construct (doc : js.Doc) (awareness : Option js.Awareness) (world : W) : State js W :=
  (ReliableSync.initial, ⟨doc, awareness, false, true⟩, world)

@[simp] theorem ends_core {post : Core js → State js W → Prop} {raised : State js W → Prop}
    {s : State js W} : Ends core post raised s ↔ post s.2.1 s := Iff.rfl

@[simp] theorem ends_assignCore {change : Core js → Core js} {post : Unit → State js W → Prop}
    {raised : State js W → Prop} {s : State js W} :
    Ends (assignCore change) post raised s ↔ post () (s.1, change s.2.1, s.2.2) := Iff.rfl

end Session

end Yrby
