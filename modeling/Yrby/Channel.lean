import Yrby.Base64
import Yrby.Effects.Program
import Yrby.Protocol
import Yrby.Value

/- y-websocket over ActionCable (sync.rb): what a channel does with a message, as
   a program over the hooks, the cable and the logger. A raise carries the text
   of the exception. -/
namespace Yrby.Channel
open Document Effects Protocol Base64

variable (y : Yrs)

/-- The key of an instance, and what its class is configured with. -/
structure Instance where
  syncKey : Option String
  onLoad : Bool
  onChange : Bool
  maxFrameBytes : Option Nat
  respondsToWhispersTo : Bool

def defaultMaxFrameBytes : Nat := 8 * 1024 * 1024

inductive Level where
  | warn
  | debug

inductive Action where
  | onLoad (key : String)
  | onChange (key : String) (update : Bytes)
  | broadcast (stream : String) (message : Value)
  | transmit (message : Value)
  | streamFrom (stream : String) (whisper : Bool)
  | logDrop (level : Level) (reason : String) (id : Value)

abbrev Reply : Action → Type
  | .onLoad _ => Option Bytes
  | _ => Unit

abbrev Handler := Program Action Reply String

inductive Outcome where
  | recorded
  | applied
  | gap
  | noop
  deriving DecidableEq, Repr

def msgKindSyncStep1 : Nat := 1

def msgKindUpdate : Nat := 2

def msgKindAwareness : Nat := 3

def syncStreamName (key : String) : String := "yrby:" ++ key

def syncAwarenessStreamName (key : String) : String := syncStreamName key ++ ":awareness"

def syncEnvelope (encoded : String) : Value := .obj [("update", .str encoded)]

def ackEnvelope (id : Value) : Value := .obj [("ack", id)]

def syncDistribute (key : String) (encoded : String) : Handler Unit :=
  Program.act (Action.broadcast (syncStreamName key) (syncEnvelope encoded))

def syncTransmit (bytes : Bytes) : Handler Unit :=
  Program.act (Action.transmit (syncEnvelope (strictEncode64 bytes)))

def syncRequestResync (doc : y.Doc) : Handler Unit := syncTransmit (syncStep1 y doc)

def syncSendAck (id : Value) (outcome : Outcome) : Handler Unit :=
  if id.isNil then return ()
  else if outcome = .recorded ∨ outcome = .applied then Program.act (Action.transmit (ackEnvelope id))
  else return ()

def syncValidateRequiredHooks (self : Instance) : Except String Unit :=
  let missing := (if self.onLoad then [] else ["on_load"]) ++
    (if self.onChange then [] else ["on_change"])
  if missing.isEmpty then .ok ()
  else .error ("Y::ActionCable::Sync requires " ++ " and ".intercalate missing ++
    ". Updates are acked as durably recorded; without a loader and recorder, an ack would " ++
    "claim a persistence that never happened, and a cold load would lose the edit.")

def syncValidateKey (self : Instance) : Except String String :=
  match self.syncKey with
  | some key => if key.isEmpty then .error noKey else .ok key
  | none => .error noKey
where noKey := "Y::ActionCable::Sync has no document key. Call sync_subscribed(key) in " ++
  "subscribed, and pass the key to sync_receive(data, key) when the transport " ++
  "doesn't keep the channel instance alive across actions (e.g. AnyCable)."

/- doc.apply_update(state) if state, on a fresh document -/
def docOfState (state : Option Bytes) : Except String y.Doc :=
  match state with
  | none => .ok y.newDoc
  | some bytes =>
    let (doc, result) := docApplyUpdate y y.newDoc bytes
    result.map fun _ => doc

def syncLoadDoc (key : String) : Handler y.Doc := do
  let state ← Program.act (Action.onLoad key)
  Program.ofExcept (docOfState y state)

def syncRecordChange (key : String) (update : Bytes) : Handler Unit :=
  Program.act (Action.onChange key update)

/- Don't record a causally-incomplete update; resync instead. A lost-ack retry is
   already recorded: skip on_change, but do broadcast again. Record before relay. -/
def syncHandleUpdate (key : String) (encoded : String) (update : Bytes) : Handler Outcome := do
  let doc ← syncLoadDoc y key
  let ready ← Program.ofExcept (updateIsReady y doc update)
  if !ready then
    syncRequestResync y doc
    return .gap
  else
    let advances ← Program.ofExcept (updateAdvancesDoc y doc update)
    if !advances then
      syncDistribute key encoded
      return .applied
    else
      syncRecordChange key update
      syncDistribute key encoded
      return .recorded

def syncHandleFrame (self : Instance) (encoded : String) (bytes : Bytes) : Handler Outcome := do
  Program.ofExcept (syncValidateRequiredHooks self)
  let key ← Program.ofExcept (syncValidateKey self)
  let kind := classifyMessage y bytes
  if kind = msgKindSyncStep1 then
    let doc ← syncLoadDoc y key
    let result ← Program.ofExcept (handleSyncMessage y doc bytes).2
    syncTransmit result.2.2
    return .noop
  else if kind = msgKindUpdate then
    match ← Program.ofExcept (mergedDocUpdate y bytes) with
    | none => return .noop
    | some update => syncHandleUpdate y key encoded update
  else if kind = msgKindAwareness then
    syncDistribute key encoded
    return .noop
  else
    return .noop

/- The encoded form is about 4/3 of the decoded size. -/
def exceedsEncoded (self : Instance) (encoded : String) : Bool :=
  match self.maxFrameBytes with
  | some cap => decide (cap * 4 / 3 + 4 < encoded.utf8ByteSize)
  | none => false

def exceedsDecoded (self : Instance) (bytes : Bytes) : Bool :=
  match self.maxFrameBytes with
  | some cap => decide (cap < bytes.length)
  | none => false

def capReason (self : Instance) (stage : String) (size : Nat) : String :=
  stage ++ " " ++ toString size ++ "B exceeds max_frame_bytes " ++
    (self.maxFrameBytes.map toString).getD "" ++ "B"

def syncReceive (self : Instance) (data : Value) (key : Option String) : Handler Unit :=
  let self := { self with syncKey := key.or self.syncKey }
  match data.fetch "update" with
  | .str encoded =>
    let id := data.fetch "id"
    if exceedsEncoded self encoded then
      Program.act (Action.logDrop .warn (capReason self "encoded" encoded.utf8ByteSize) id)
    else match strictDecode64 encoded with
      | none => Program.act (Action.logDrop .debug "not valid base64" id)
      | some bytes =>
        if exceedsDecoded self bytes then
          Program.act (Action.logDrop .warn (capReason self "decoded" bytes.length) id)
        else do
          let outcome ← syncHandleFrame y self encoded bytes
          syncSendAck id outcome
  | _ => return ()

/- Streams broadcasts for this document and transmits the opening handshake. -/
def syncSubscribed (self : Instance) (key : String) : Handler Unit := do
  let self := { self with syncKey := some key }
  Program.ofExcept (syncValidateRequiredHooks self)
  Program.act (Action.streamFrom (syncStreamName key) false)
  if self.respondsToWhispersTo then
    Program.act (Action.streamFrom (syncAwarenessStreamName key) true)
  let doc ← syncLoadDoc y key
  syncTransmit (syncStep1 y doc)

theorem ackEnvelope_ne (id : Value) (encoded : String) : ackEnvelope id ≠ syncEnvelope encoded := by
  simp [ackEnvelope, syncEnvelope]

theorem ackEnvelope_injective {id id' : Value} (same : ackEnvelope id = ackEnvelope id') :
    id = id' := by simpa [ackEnvelope] using same

section
variable {y} {allowed : Action → Prop} {key : String}

/-- What a handler on a key may ask for, whatever it answers. -/
structure Permits (allowed : Action → Prop) (key : String) : Prop where
  loads : allowed (.onLoad key)
  records : ∀ update, allowed (.onChange key update)
  broadcasts : ∀ message, allowed (.broadcast (syncStreamName key) message)
  transmits : ∀ message, allowed (.transmit message)

theorem loadDoc_only (loads : allowed (.onLoad key)) : (syncLoadDoc y key).Only allowed := by
  apply Program.only_bind (Program.only_act loads)
  intro state
  exact Program.only_ofExcept _

theorem handleUpdate_only (permits : Permits allowed key) (encoded : String) (update : Bytes) :
    (syncHandleUpdate y key encoded update).Only allowed := by
  have distributes : (syncDistribute key encoded).Only allowed :=
    Program.only_act (permits.broadcasts _)
  apply Program.only_bind (loadDoc_only permits.loads)
  intro doc
  apply Program.only_bind (Program.only_ofExcept _)
  intro ready
  split
  · exact Program.only_bind (Program.only_act (permits.transmits _)) fun _ => Program.only_pure _
  · apply Program.only_bind (Program.only_ofExcept _)
    intro advances
    split
    · exact Program.only_bind distributes fun _ => Program.only_pure _
    · apply Program.only_bind (Program.only_act (permits.records update))
      intro _
      exact Program.only_bind distributes fun _ => Program.only_pure _

theorem handleFrame_only {self : Instance}
    (permits : ∀ key, syncValidateKey self = .ok key → Permits allowed key)
    (encoded : String) (bytes : Bytes) : (syncHandleFrame y self encoded bytes).Only allowed := by
  apply Program.only_bind (Program.only_ofExcept _)
  intro _
  cases validated : syncValidateKey self with
  | error e => trivial
  | ok key =>
    have permits := permits key validated
    rw [Program.ok_bind]
    dsimp only
    split
    · apply Program.only_bind (loadDoc_only permits.loads)
      intro doc
      apply Program.only_bind (Program.only_ofExcept _)
      intro result
      exact Program.only_bind (Program.only_act (permits.transmits _)) fun _ => Program.only_pure _
    · split
      · apply Program.only_bind (Program.only_ofExcept _)
        intro merged
        cases merged with
        | none => exact Program.only_pure _
        | some update => exact handleUpdate_only permits encoded update
      · split
        · apply Program.only_bind (Program.only_act (permits.broadcasts _))
          exact fun _ => Program.only_pure _
        · exact Program.only_pure _

theorem sendAck_only (transmits : ∀ message, allowed (.transmit message)) (id : Value)
    (outcome : Outcome) : (syncSendAck id outcome).Only allowed := by
  unfold syncSendAck
  split
  · exact Program.only_pure _
  · split
    · exact Program.only_act (transmits _)
    · exact Program.only_pure _

theorem subscribed_only {self : Instance} (loads : allowed (.onLoad key))
    (transmits : ∀ message, allowed (.transmit message))
    (follows : allowed (.streamFrom (syncStreamName key) false))
    (whispers : self.respondsToWhispersTo = true →
      allowed (.streamFrom (syncAwarenessStreamName key) true)) :
    (syncSubscribed y self key).Only allowed := by
  have opening : (syncLoadDoc y key >>= fun doc => syncTransmit (syncStep1 y doc)).Only allowed :=
    Program.only_bind (loadDoc_only loads) fun _ => Program.only_act (transmits _)
  apply Program.only_bind (Program.only_ofExcept _)
  intro _
  apply Program.only_bind (Program.only_act follows)
  intro _
  split
  · rename_i responds
    exact Program.only_bind (Program.only_act (whispers responds)) fun _ => opening
  · exact opening

end

end Yrby.Channel
