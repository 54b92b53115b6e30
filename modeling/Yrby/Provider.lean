import Yrby.Base64
import Yrby.Frames

/- The provider (actioncable_provider.ts): a session on a subscription of the cable.
   Cable is what lies around it: the consumer with its subscriptions, the microtask
   queue, the timers and the page. -/
namespace Yrby
open Document Wire Effects

namespace Provider

inductive ProviderStatus where
  | connecting
  | connected
  | synced
  | disconnected
  deriving DecidableEq, Repr

/-- What a subscription was handed, through send or through whisper. -/
structure Handed where
  subscription : Nat
  whispered : Bool
  data : Value

/- Subscriptions are numbered as they are created; creating holds those whose create
   has not returned, the innermost first. faults: which of the next calls throw. -/
structure Cable where
  whispers : Bool
  window : Bool
  created : Nat
  creating : List Nat
  handed : List Handed
  faults : List Bool
  microtasks : List Nat
  unsubscribed : List Nat
  timers : List Nat
  nextTimer : Nat
  errors : List (JsError × String)
  told : List (Nat × ProviderStatus)

/- onUnload: the pagehide and the pageshow handler are installed -/
structure Fields (js : Yjs) where
  subscription : Option Nat
  connected : Bool
  status : ProviderStatus
  statusListeners : List Nat
  onUnload : Bool
  stashedPresence : Option js.Presence
  cable : Cable

abbrev ActionCableProvider (js : Yjs) := State js (Fields js)

abbrev Method (js : Yjs) (α : Type) := Session.Method js (Fields js) α

section
variable {js : Yjs}

def Fields.onError (e : JsError) (context : String) (self : Fields js) : Fields js :=
  { self with cable := { self.cable with errors := self.cable.errors ++ [(e, context)] } }

def Fields.hand (self : Fields js) (handed : Handed) : Fields js :=
  { self with cable := { self.cable with
      handed := self.cable.handed ++ [handed]
      faults := self.cable.faults.tail } }

/- sub.send(data) or sub.whisper(data); a promise it returns is settled later, by
   the input rejection. -/
def call (handed : Handed) : EStateM JsError (Fields js) Unit := do
  let self ← get
  set (self.hand handed)
  if self.cable.faults.headD false then throw "send failed"

/- id === undefined ? { update } : { update, id } -/
def envelope (update : Value) : Option Nat → Value
  | none => .obj [("update", update)]
  | some id => .obj [("update", update), ("id", .int id)]

def isAwareness (frame : Bytes) : Bool :=
  frame[0]?.map UInt8.toNat = some Session.messageAwareness

/- Awareness is whispered where the subscription can. -/
def Fields.addressed (self : Fields js) (sub : Nat) (frame : Bytes) (id : Option Nat) : Handed :=
  let update := Value.str (Base64.toBase64 frame)
  if isAwareness frame && self.cable.whispers then ⟨sub, true, .obj [("awareness", update)]⟩
  else ⟨sub, false, envelope update id⟩

/- A no-op without a subscription. What the transport throws is reported, and never
   reaches the update handlers. -/
def send (frame : Bytes) (id : Option Nat) : EStateM JsError (Fields js) Unit := do
  let self ← get
  match self.subscription with
  | none => return ()
  | some sub => tryCatch (call (self.addressed sub frame id)) fun e => modify (·.onError e "send")

def transport : Session.Options (Fields js) where
  send := send
  onError := Fields.onError
  resendInterval := 1000
  setInterval _ self := (self.cable.nextTimer, { self with cable := { self.cable with
    timers := self.cable.nextTimer :: self.cable.timers
    nextTimer := self.cable.nextTimer + 1 } })
  clearInterval handle self := { self with cable := { self.cable with
    timers := self.cable.timers.filter (· ≠ handle) } }

def fields : Method js (Fields js) := do return (← get).2.2

def assign (change : Fields js → Fields js) : Method js Unit :=
  modify fun s => (s.1, s.2.1, change s.2.2)

def computeStatus (subscription : Option Nat) (connected synced : Bool) : ProviderStatus :=
  if subscription.isNone then .disconnected
  else if !connected then .connecting
  else if synced then .synced else .connected

def refreshStatus : Method js Unit := do
  let self ← fields
  let next := computeStatus self.subscription self.connected (Session.synced (← get))
  if next = self.status then return ()
  assign fun self => { self with
    status := next
    cable := { self.cable with
      told := self.cable.told ++ self.statusListeners.map fun listener => (listener, next) } }

def installUnloadHandler : Method js Unit :=
  assign fun self => { self with onUnload := self.onUnload || self.cable.window }

def removeUnloadHandler : Method js Unit :=
  assign fun self => { self with onUnload := self.onUnload && !self.cable.window }

/- connect() up to its call of subscriptions.create, inside which the consumer may
   already call back. -/
def connect : Method js Unit := do
  let self ← fields
  if self.subscription.isSome then return ()
  assign fun self => { self with cable := { self.cable with
    created := self.cable.created + 1
    creating := self.cable.created :: self.cable.creating } }

/- The rest of connect(), when create has returned. -/
def created : Method js Unit := do
  let self ← fields
  match self.cable.creating with
  | [] => return ()
  | sub :: outer =>
    assign fun self => { self with
      subscription := some sub
      cable := { self.cable with creating := outer } }
    installUnloadHandler
    refreshStatus

def disconnect : Method js Unit := do
  let self ← fields
  match self.subscription with
  | none => return ()
  | some sub =>
    Session.removeLocalAwareness transport
    Session.onDisconnect transport
    assign fun self => { self with connected := false, subscription := none }
    removeUnloadHandler
    assign fun self => { self with cable := { self.cable with
      microtasks := self.cable.microtasks ++ [sub] } }
    refreshStatus

/- awareness.destroy() clears the local state once more. -/
def destroyAwareness : Method js Unit := do
  let self ← Session.core
  match self.awareness with
  | none => return ()
  | some awareness =>
    let (awareness, changed) := js.setLocalState awareness none
    Session.changePresence transport awareness changed

def destroy : Method js Unit := do
  disconnect
  Session.destroy transport
  destroyAwareness
  assign fun self => { self with statusListeners := [] }

/-- What a message of the cable comes to. -/
inductive CableMessage where
  | ack (id : Value)
  | frame (frame : Bytes)
  | malformed (e : JsError)
  | ignored

/- awarenessPayload ?? message.update -/
def payloadOf (message : Value) : Value :=
  if (message.member "awareness").isNil then message.member "update" else message.member "awareness"

/- payload has to be a string that atob takes; under awareness the frame has to
   start with the awareness type. -/
def openPayload (awarenessPayload payload : Value) : CableMessage :=
  match payload with
  | .str text =>
    match Base64.fromBase64 text with
    | none => .malformed "InvalidCharacterError"
    | some frame =>
      if !awarenessPayload.isUndefined && !isAwareness frame then
        .malformed "awareness envelope carried a non-awareness frame"
      else .frame frame
  | _ => .ignored

/- message && … is message itself where message is falsy -/
def openMessage (message : Value) : CableMessage :=
  if message.falsy then openPayload message message
  else if (message.member "ack").isUndefined then
    openPayload (message.member "awareness") (payloadOf message)
  else .ack (message.member "ack")

def received (message : Value) : Method js Unit := do
  match openMessage message with
  | .ack id => Session.ack transport id
  | .ignored => return ()
  | .malformed e => assign (·.onError e "received")
  | .frame frame =>
    let reply ← Session.receive transport frame
    match reply with
    | some reply => Session.transmit transport reply none
    | none => pure ()
    refreshStatus

def connected : Method js Unit := do
  assign fun self => { self with connected := true }
  Session.onConnect transport
  refreshStatus

def disconnected : Method js Unit := do
  assign fun self => { self with connected := false }
  Session.onDisconnect transport
  refreshStatus

def rejected : Method js Unit := do
  assign (·.onError "subscription rejected by the server" "rejected")
  disconnect

/- pagehide: presence goes while the socket is still live -/
def onUnload : Method js Unit := do
  let self ← fields
  if self.onUnload then
    let core ← Session.core
    assign fun self => { self with stashedPresence := core.awareness.bind js.getLocalState }
    Session.removeLocalAwareness transport

/- pageshow: a page that comes back puts it on again -/
def onRestore (persisted : Bool) : Method js Unit := do
  let self ← fields
  if self.onUnload && persisted then
    match self.stashedPresence with
    | none => return ()
    | some presence =>
      let core ← Session.core
      match core.awareness with
      | none => pure ()
      | some awareness =>
        if (js.getLocalState awareness).isNone then
          let (awareness, changed) := js.setLocalState awareness (some presence)
          Session.changePresence transport awareness changed
      assign fun self => { self with stashedPresence := none }

/- queueMicrotask(() => sub.unsubscribe?.()) -/
def runMicrotask : Method js Unit := assign fun self => { self with cable := { self.cable with
  microtasks := self.cable.microtasks.tail
  unsubscribed := self.cable.unsubscribed ++ self.cable.microtasks.take 1 } }

/-- What a subscription calls. A whispered message comes from another client, any
    other from the server; received is not told which. -/
inductive Callback where
  | connected
  | disconnected
  | rejected
  | received (whispered : Bool) (message : Value)

inductive Input (js : Yjs) where
  | connect
  | created
  | disconnect
  | destroy
  | callback (subscription : Nat) (callback : Callback)
  | microtask
  | tick
  | transact (doc : js.Doc) (update : Bytes)
  | changePresence (awareness : js.Awareness) (changed : List Nat)
  | applyRemoteUpdate (update : Bytes)
  | pagehide
  | pageshow (persisted : Bool)
  | onStatusChange (listener : Nat)
  | unsubscribe (listener : Nat)
  | rejection (e : JsError)
  | fail (faults : List Bool)

/- No handler knows which subscription it was created for. -/
def answer : Callback → Method js Unit
  | .connected => connected
  | .disconnected => disconnected
  | .rejected => rejected
  | .received _ message => received message

def perform : Input js → Method js Unit
  | .connect => connect
  | .created => created
  | .disconnect => disconnect
  | .destroy => destroy
  | .callback _ callback => answer callback
  | .microtask => runMicrotask
  | .tick => ReliableSync.onTick (Session.delivery transport js)
  | .transact doc update => Session.transact transport doc update
  | .changePresence awareness changed => Session.changePresence transport awareness changed
  | .applyRemoteUpdate update => Session.applyRemoteUpdate update
  | .pagehide => onUnload
  | .pageshow persisted => onRestore persisted
  | .onStatusChange listener => assign fun self => { self with
      statusListeners := if listener ∈ self.statusListeners then self.statusListeners
        else self.statusListeners ++ [listener] }
  | .unsubscribe listener => assign fun self => { self with
      statusListeners := self.statusListeners.filter (· ≠ listener) }
  | .rejection e => assign (·.onError e "send")
  | .fail faults => assign fun self => { self with cable := { self.cable with faults := faults } }

def step (input : Input js) (p : ActionCableProvider js) : ActionCableProvider js :=
  after (perform input) p

def idle (whispers window : Bool) : Fields js :=
  ⟨none, false, .disconnected, [], false, none, ⟨whispers, window, 0, [], [], [], [], [], [], 0, [], []⟩⟩

def construct (doc : js.Doc) (whispers window : Bool) : ActionCableProvider js :=
  Session.construct doc (some (js.newAwareness doc)) (idle whispers window)

/-- The document and the queue, and whether edits still reach the queue. -/
structure Holding (js : Yjs) where
  doc : js.Doc
  pending : List Pending
  nextSeq : Nat
  attached : Bool

/-- What the status is computed from, and the status. -/
structure Link where
  subscription : Option Nat
  connected : Bool
  synced : Bool
  status : ProviderStatus
  deriving DecidableEq, Repr

def Link.refreshed (l : Link) : Link :=
  { l with status := computeStatus l.subscription l.connected l.synced }

def holding (s : ActionCableProvider js) : Holding js :=
  ⟨s.2.1.doc, s.1.pending, s.1.nextSeq, s.2.1.attached⟩

def link (s : ActionCableProvider js) : Link :=
  ⟨s.2.2.subscription, s.2.2.connected, s.2.1.synced, s.2.2.status⟩

/-- From s to t: what t holds and how it is linked, with no create begun or returned
    and nothing taken back that was handed out. -/
structure Moves (h : Holding js) (l : Link) (s t : ActionCableProvider js) : Prop where
  holding : holding t = h
  link : link t = l
  creating : t.2.2.cable.creating = s.2.2.cable.creating
  handed : s.2.2.cable.handed <+: t.2.2.cable.handed

abbrev Still (s t : ActionCableProvider js) : Prop := Moves (holding s) (link s) s t

theorem Still.refl (s : ActionCableProvider js) : Still s s := ⟨rfl, rfl, rfl, List.prefix_rfl⟩

theorem Moves.next {h h' : Holding js} {l l' : Link} {s t u : ActionCableProvider js}
    (one : Moves h l s t) (two : Moves h' l' t u) : Moves h' l' s u :=
  ⟨two.holding, two.link, two.creating.trans one.creating, one.handed.trans two.handed⟩

theorem Still.trans (s t u : ActionCableProvider js) (one : Still s t) (two : Still t u) :
    Still s u :=
  ⟨two.holding.trans one.holding, two.link.trans one.link, two.creating.trans one.creating,
    one.handed.trans two.handed⟩

theorem Moves.still {h : Holding js} {l : Link} {s t u : ActionCableProvider js}
    (one : Moves h l s t) (two : Still t u) : Moves h l s u := by
  have next := one.next two
  rwa [one.holding, one.link] at next

theorem send_ends {self : Fields js} {frame : Bytes} {id : Option Nat} {post : Fields js → Prop}
    (unsubscribed : self.subscription = none → post self)
    (handed : ∀ sub, self.subscription = some sub → ∀ errors, post { self with
      cable := { (self.hand (self.addressed sub frame id)).cable with errors := errors } }) :
    Ends (send frame id) (fun _ => post) (fun _ => False) self := by
  simp only [send, ends_bind, ends_get]
  cases subscribed : self.subscription with
  | none => exact unsubscribed subscribed
  | some sub =>
    have there := handed sub subscribed
    simp only [ends_tryCatch, call, bind, EStateM.bind, run_get, run_set]
    cases self.cable.faults.headD false with
    | true => exact there (self.cable.errors ++ [("send failed", "send")])
    | false => exact there self.cable.errors

theorem transmit_ends {s : ActionCableProvider js} {frame : Bytes} {id : Option Nat} :
    Ends (Session.transmit transport frame id) (fun _ t => Still s t ∧
      ∀ sub, s.2.2.subscription = some sub →
        s.2.2.addressed sub frame id ∈ t.2.2.cable.handed) (fun _ => False) s := by
  simp only [Session.transmit, ends_zoom]
  apply send_ends
  · intro unsubscribed
    refine ⟨Still.refl s, fun sub subscribed => ?_⟩
    simp [unsubscribed] at subscribed
  · intro sub subscribed errors
    refine ⟨⟨rfl, rfl, rfl, List.prefix_append _ _⟩, ?_⟩
    intro sub' subscribed'
    obtain rfl := Option.some.inj (subscribed.symm.trans subscribed')
    exact List.mem_append_right _ (List.mem_singleton_self _)

theorem transmit_still (frame : Bytes) (id : Option Nat) :
    Within Still (Session.transmit transport frame id : Method js Unit) := by
  intro s
  exact transmit_ends.mono (fun _ _ sent => sent.1) fun _ => False.elim

theorem still_bind {α β : Type} {program : Method js α} {next : α → Method js β}
    (first : Within Still program) (rest : ∀ a, Within Still (next a)) :
    Within Still (program >>= next) := Within.bind Still.trans first rest

theorem timerFree (h : Holding js) (l : Link) (s : ActionCableProvider js) :
    ReliableSync.TimerFree (Session.delivery transport js) (Moves h l s) where
  start _ _ _ _ moves eq := by
    obtain ⟨_, rfl⟩ := Prod.mk.inj eq
    exact moves.next ⟨moves.holding, moves.link, rfl, List.prefix_rfl⟩
  stop _ _ _ moves := moves.next ⟨moves.holding, moves.link, rfl, List.prefix_rfl⟩
  forget _ _ moves := moves.next ⟨moves.holding, moves.link, rfl, List.prefix_rfl⟩

theorem delivery_still : ReliableSync.DeliveryFree (Session.delivery transport js) Still where
  refl := Still.refl
  trans := Still.trans
  memo _ _ _ := ⟨rfl, rfl, rfl, List.prefix_rfl⟩
  connect _ _ := ⟨rfl, rfl, rfl, List.prefix_rfl⟩
  start self w handle world taken := (timerFree _ _ (self, w)).start self w handle world (Still.refl _) taken
  send _ _ := transmit_still _ _

theorem changePresence_still (awareness : js.Awareness) (changed : List Nat) :
    Within Still (Session.changePresence transport awareness changed) := by
  unfold Session.changePresence Session.onAwarenessUpdate
  refine still_bind (Within.modify fun s => ⟨rfl, rfl, rfl, List.prefix_rfl⟩) fun _ => ?_
  refine still_bind Still.refl fun self => ?_
  split
  · refine still_bind Still.refl fun self => ?_
    split
    · exact Still.refl
    · split
      · exact Still.refl
      · exact transmit_still _ _
  · exact Still.refl

def Removable (js : Yjs) : Prop := ∀ awareness, ∃ update,
  js.encodeAwarenessUpdate (js.setLocalState awareness none).1 (js.setLocalState awareness none).2
    = .ok update

theorem removeLocalAwareness_still :
    Within Still (Session.removeLocalAwareness transport : Method js Unit) := by
  unfold Session.removeLocalAwareness
  refine still_bind Still.refl fun self => ?_
  split
  · exact Still.refl
  · split
    · exact changePresence_still _ _
    · exact Still.refl

theorem removeLocalAwareness_returns (removable : Removable js) (s : ActionCableProvider js) :
    Ends (Session.removeLocalAwareness transport) (fun _ _ => True) (fun _ => False) s := by
  simp only [Session.removeLocalAwareness, ends_bind, Session.ends_core]
  cases s.2.1.awareness with
  | none => trivial
  | some awareness =>
    simp only [ends_ite]
    split
    · simp only [Session.changePresence, Session.onAwarenessUpdate, ends_bind,
        Session.ends_assignCore, Session.ends_core, ends_ite]
      split
      · obtain ⟨update, encoded⟩ := removable awareness
        simp only [Bool.false_eq_true, ↓reduceIte, Session.frameAwareness, encoded, Except.map]
        exact transmit_ends.mono (fun _ _ _ => trivial) fun _ => id
      · trivial
    · trivial

theorem removeLocalAwareness_ends (s : ActionCableProvider js) :
    Ends (Session.removeLocalAwareness transport) (fun _ => Still s)
      (fun t => ¬ Removable js ∧ Still s t) s := by
  by_cases removable : Removable js
  · have ends := Ends.and (removeLocalAwareness_returns removable s) (removeLocalAwareness_still s)
    exact ends.mono (fun _ _ both => both.2) fun _ both => both.1.elim
  · exact (removeLocalAwareness_still s).mono (fun _ _ => id) fun _ still => ⟨removable, still⟩

theorem onConnect_leaves (s : ActionCableProvider js) :
    Leaves (Session.onConnect transport) (fun t => Still s t ∧ ∀ sub,
      s.2.2.subscription = some sub →
        s.2.2.addressed sub (Session.frameSyncStep1 s.2.1.doc) none ∈ t.2.2.cable.handed) s := by
  simp only [Session.onConnect, ends_bind, Session.ends_core]
  refine transmit_ends.mono (fun _ t sent => ?_) fun _ => False.elim
  obtain ⟨still, handed⟩ := sent
  have onward : ∀ {α : Type} (program : Method js α), Within Still program →
      Leaves program (fun u => Still s u ∧ ∀ sub, s.2.2.subscription = some sub →
        s.2.2.addressed sub (Session.frameSyncStep1 s.2.1.doc) none ∈ u.2.2.cable.handed) t := by
    intro α program within
    have after : ∀ u, Still t u → Still s u ∧ ∀ sub, s.2.2.subscription = some sub →
        s.2.2.addressed sub (Session.frameSyncStep1 s.2.1.doc) none ∈ u.2.2.cable.handed :=
      fun u there => ⟨still.still there, fun sub subscribed => there.handed.subset (handed sub subscribed)⟩
    exact (within t).mono (fun _ => after) after
  apply onward
  split
  · exact delivery_still.onConnect
  · split
    · split
      · exact still_bind Still.refl fun _ => delivery_still.onConnect
      · exact still_bind (transmit_still _ _) fun _ => delivery_still.onConnect
    · exact delivery_still.onConnect

theorem onDisconnect_ends (s : ActionCableProvider js) :
    Ends (Session.onDisconnect transport)
      (fun _ t => Moves (holding s) { link s with synced := false } s t) (fun _ => False) s := by
  have down : Moves (holding s) { link s with synced := false } s
      ({ s.1 with connected := false }, { s.2.1 with synced := false }, s.2.2) :=
    ⟨rfl, rfl, rfl, List.prefix_rfl⟩
  simp only [Session.onDisconnect, ReliableSync.onDisconnect, ends_bind, Session.ends_assignCore,
    ReliableSync.ends_assign]
  refine (ReliableSync.stopTimer_ends (timerFree _ _ s) down).mono (fun _ t moves => ?_) fun _ => False.elim
  exact moves.next ⟨moves.holding, moves.link, rfl, List.prefix_rfl⟩

theorem enqueue_leaves (s : ActionCableProvider js) (update : Bytes) :
    Leaves (ReliableSync.enqueue (Session.delivery transport js) update)
      (fun t => Moves { holding s with
        pending := s.1.pending ++ [⟨s.1.nextSeq, update⟩]
        nextSeq := s.1.nextSeq + 1 } (link s) s t) s := by
  have rest : Within Still (do
      let self ← ReliableSync.this
      if self.connected then ReliableSync.startTimer (Session.delivery transport js)
      ReliableSync.flush (Session.delivery transport js) : Method js Unit) := by
    refine still_bind Still.refl fun self => ?_
    split
    · exact still_bind delivery_still.startTimer fun _ => delivery_still.flush
    · exact delivery_still.flush
  have pushed : Moves { holding s with
      pending := s.1.pending ++ [⟨s.1.nextSeq, update⟩]
      nextSeq := s.1.nextSeq + 1 } (link s) s ({ s.1 with
        pending := s.1.pending ++ [⟨s.1.nextSeq, update⟩]
        nextSeq := s.1.nextSeq + 1
        tailCache := none }, s.2) := ⟨rfl, rfl, rfl, List.prefix_rfl⟩
  unfold ReliableSync.enqueue
  refine ends_bind.mpr ?_
  exact (rest _).mono (fun _ _ => pushed.still) fun _ => pushed.still

def effect : Input js → Holding js → Holding js
  | .transact doc update, h =>
    if h.attached then { h with
      doc := doc
      pending := h.pending ++ [⟨h.nextSeq, update⟩]
      nextSeq := h.nextSeq + 1 }
    else { h with doc := doc }
  | .callback _ (.received _ message), h =>
    match openMessage message with
    | .ack id => { h with
      pending := ({ ReliableSync.initial with pending := h.pending }.acked id).pending }
    | .frame frame => { h with doc := Frames.changedDoc js frame h.doc }
    | _ => h
  | .applyRemoteUpdate update, h => { h with doc := (js.applyUpdate h.doc update).1 }
  | .destroy, h => { h with pending := [], attached := false }
  | _, h => h

theorem transact_leaves (s : ActionCableProvider js) (doc : js.Doc) (update : Bytes) :
    Leaves (Session.transact transport doc update)
      (Moves (effect (.transact doc update) (holding s)) (link s) s) s := by
  obtain ⟨self, ⟨old, awareness, synced, attached⟩, world⟩ := s
  have there : Moves ⟨doc, self.pending, self.nextSeq, attached⟩
      (link (self, ⟨old, awareness, synced, attached⟩, world))
      (self, ⟨old, awareness, synced, attached⟩, world)
      (self, ⟨doc, awareness, synced, attached⟩, world) := ⟨rfl, rfl, rfl, List.prefix_rfl⟩
  simp only [Session.transact, Session.onDocUpdate, ends_bind, Session.ends_assignCore,
    Session.ends_core, ends_ite, effect]
  cases attached with
  | false => exact there
  | true =>
    have sent := enqueue_leaves (self, ⟨doc, awareness, synced, true⟩, world) update
    exact sent.mono (fun _ _ => there.next) fun _ => there.next

theorem applyRemoteUpdate_leaves (s : ActionCableProvider js) (update : Bytes) :
    Leaves (Session.applyRemoteUpdate update)
      (Moves (effect (.applyRemoteUpdate update) (holding s)) (link s) s) s := by
  simp only [Session.applyRemoteUpdate, ends_bind, Session.ends_core, Session.ends_assignCore]
  split <;> exact ⟨rfl, rfl, rfl, List.prefix_rfl⟩

theorem acked_pending (self : ReliableSync) (id : Value) :
    (self.acked id).pending =
      ({ ReliableSync.initial with pending := self.pending }.acked id).pending := by
  unfold ReliableSync.acked ReliableSync.fromFuture ReliableSync.prune
  cases ReliableSync.ackedSeq id with
  | none => rfl
  | some n => dsimp only; split <;> rfl

theorem ack_leaves (s : ActionCableProvider js) (id : Value) :
    Leaves (Session.ack transport id) (Moves { holding s with
      pending := ({ ReliableSync.initial with pending := s.1.pending }.acked id).pending }
      (link s) s) s := by
  apply ReliableSync.onAck_leaves (timerFree _ _ s)
  refine ⟨?_, rfl, rfl, List.prefix_rfl⟩
  simp only [holding, ← acked_pending, (ReliableSync.acked_keeps s.1 id).1]

theorem refreshStatus_ends (s : ActionCableProvider js) :
    Ends refreshStatus (fun _ t => Moves (holding s) (link s).refreshed s t) (fun _ => False) s := by
  simp only [refreshStatus, fields, assign, ends_bind, ends_get, ends_pure, ends_ite, ends_modify]
  split
  · rename_i same
    have refreshed : (link s).refreshed = link s := by
      unfold Link.refreshed
      exact congrArg (fun status => { link s with status := status }) same
    rw [refreshed]
    exact Still.refl s
  · exact ⟨rfl, rfl, rfl, List.prefix_rfl⟩

theorem refreshes {h : Holding js} {l : Link} {s t : ActionCableProvider js} (moves : Moves h l s t) :
    Ends refreshStatus (fun _ u => Moves h l.refreshed s u) (fun _ => False) t := by
  refine (refreshStatus_ends t).mono (fun _ u refreshed => ?_) fun _ => id
  have next := moves.next refreshed
  rwa [moves.holding, moves.link] at next

theorem receive_ends {y : Yrs} (laws : js.Laws y) (frame : Bytes) (s : ActionCableProvider js) :
    Ends (Session.receive transport frame) (fun _ t =>
      Moves { holding s with doc := Frames.changedDoc js frame s.2.1.doc }
        { link s with synced := s.2.1.synced || Frames.isSyncStep2 frame } s t)
      (fun _ => False) s := by
  refine (Frames.receive_ends laws frame s).mono (fun reply t received => ?_) fun _ => id
  obtain ⟨queue, doc, synced, attached, world, _⟩ := received
  have linked : t.2.2.subscription = s.2.2.subscription ∧ t.2.2.connected = s.2.2.connected ∧
      t.2.2.status = s.2.2.status ∧ t.2.2.cable.creating = s.2.2.cable.creating ∧
      t.2.2.cable.handed = s.2.2.cable.handed := by
    rcases world with same | ⟨e, reported⟩
    · rw [same]
      exact ⟨rfl, rfl, rfl, rfl, rfl⟩
    · rw [reported]
      exact ⟨rfl, rfl, rfl, rfl, rfl⟩
  obtain ⟨subscription, connected, status, creating, handed⟩ := linked
  refine ⟨?_, ?_, creating, ?_⟩
  · simp only [holding, queue, doc, attached]
  · simp only [link, subscription, connected, synced, status]
  · simp only [handed, List.prefix_rfl]

def relinked (message : Value) (l : Link) : Link :=
  match openMessage message with
  | .frame frame => { l with synced := l.synced || Frames.isSyncStep2 frame }.refreshed
  | _ => l

theorem received_leaves {y : Yrs} (laws : js.Laws y) (s : ActionCableProvider js) (sub : Nat)
    (whispered : Bool) (message : Value) :
    Leaves (received message) (Moves (effect (.callback sub (.received whispered message)) (holding s))
      (relinked message (link s)) s) s := by
  unfold received relinked
  simp only [effect]
  cases openMessage message with
  | ack id => exact ack_leaves s id
  | ignored => exact Still.refl s
  | malformed e => exact ⟨rfl, rfl, rfl, List.prefix_rfl⟩
  | frame frame =>
    dsimp only
    refine ends_bind.mpr ((receive_ends laws frame s).mono (fun reply t moves => ?_) fun _ => False.elim)
    cases reply with
    | none => exact (refreshes moves).mono (fun _ _ => id) fun _ => False.elim
    | some reply =>
      refine ends_bind.mpr (transmit_ends.mono (fun _ u sent => ?_) fun _ => False.elim)
      exact (refreshes (moves.still sent.1)).mono (fun _ _ => id) fun _ => False.elim

theorem connected_leaves (s : ActionCableProvider js) :
    Leaves connected (fun t => (∃ l, (l = { link s with connected := true } ∨
        l = { link s with connected := true }.refreshed) ∧ Moves (holding s) l s t) ∧
      ∀ sub, s.2.2.subscription = some sub →
        s.2.2.addressed sub (Session.frameSyncStep1 s.2.1.doc) none ∈ t.2.2.cable.handed) s := by
  simp only [connected, assign, ends_bind, ends_modify]
  refine (onConnect_leaves _).mono (fun _ t there => ?_) fun t there => ?_
  · obtain ⟨still, handed⟩ := there
    have moves : Moves (holding s) { link s with connected := true } s t :=
      ⟨still.holding, still.link, still.creating, still.handed⟩
    have refreshed := Ends.and (refreshes moves) (refreshStatus_ends t)
    refine refreshed.mono (fun _ u both => ?_) fun _ both => both.1.elim
    refine ⟨⟨_, Or.inr rfl, both.1⟩, fun sub subscribed => ?_⟩
    exact both.2.handed.subset (handed sub subscribed)
  · obtain ⟨still, handed⟩ := there
    exact ⟨⟨_, Or.inl rfl, still.holding, still.link, still.creating, still.handed⟩, handed⟩

theorem disconnected_ends (s : ActionCableProvider js) :
    Ends disconnected (fun _ t => Moves (holding s)
      { link s with connected := false, synced := false }.refreshed s t) (fun _ => False) s := by
  simp only [disconnected, assign, ends_bind, ends_modify]
  refine (onDisconnect_ends _).mono (fun _ t down => ?_) fun _ => id
  exact refreshes ⟨down.holding, down.link, down.creating, down.handed⟩

def Link.down : Link := ⟨none, false, false, .disconnected⟩

theorem disconnect_ends (s : ActionCableProvider js) :
    Ends disconnect (fun _ t => Moves (holding s)
      (if s.2.2.subscription.isSome then Link.down else link s) s t)
      (fun t => ¬ Removable js ∧ Still s t) s := by
  simp only [disconnect, fields, ends_bind, ends_get, ends_pure]
  cases subscribed : s.2.2.subscription with
  | none => exact Still.refl s
  | some sub =>
    simp only [Option.isSome_some, ↓reduceIte, ends_bind]
    refine (removeLocalAwareness_ends s).mono (fun _ t still => ?_) fun _ => id
    refine (onDisconnect_ends t).mono (fun _ u off => ?_) fun _ => False.elim
    have moves := still.next off
    have synced : u.2.1.synced = false := congrArg Link.synced moves.link
    have held : holding u = holding s := moves.holding.trans still.holding
    simp only [assign, removeUnloadHandler, ends_modify]
    refine (refreshes (s := s) (h := holding s) (l := { Link.down with status := u.2.2.status })
      ?_).mono (fun _ _ => id) fun _ => False.elim
    refine ⟨held, ?_, moves.creating, moves.handed⟩
    simp only [link, Link.down, synced]

theorem disconnect_leaves (s : ActionCableProvider js) :
    Leaves disconnect (fun t => (¬ Removable js ∧ Still s t) ∨
      Moves (holding s) (if s.2.2.subscription.isSome then Link.down else link s) s t) s :=
  (disconnect_ends s).mono (fun _ _ moves => Or.inr moves) fun _ thrown => Or.inl thrown

theorem rejected_leaves (s : ActionCableProvider js) :
    Leaves rejected (fun t => (¬ Removable js ∧ Still s t) ∨
      Moves (holding s) (if s.2.2.subscription.isSome then Link.down else link s) s t) s := by
  simp only [rejected, assign, ends_bind, ends_modify]
  refine (disconnect_ends _).mono (fun _ t moves => Or.inr ?_) fun t thrown => Or.inl ⟨thrown.1, ?_⟩
  · exact ⟨moves.holding, moves.link, moves.creating, moves.handed⟩
  · exact ⟨thrown.2.holding, thrown.2.link, thrown.2.creating, thrown.2.handed⟩

theorem destroySession_ends (s : ActionCableProvider js) :
    Ends (Session.destroy transport)
      (fun _ t => Moves (effect .destroy (holding s)) (link s) s t) (fun _ => False) s := by
  have off : Moves { holding s with attached := false } (link s) s
      ({ s.1 with connected := false }, { s.2.1 with attached := false }, s.2.2) :=
    ⟨rfl, rfl, rfl, List.prefix_rfl⟩
  simp only [Session.destroy, ReliableSync.destroy, ends_bind, Session.ends_assignCore,
    ReliableSync.ends_assign]
  refine (ReliableSync.stopTimer_ends (timerFree _ _ s) off).mono (fun _ t moves => ?_) fun _ => id
  refine ⟨?_, moves.link, moves.creating, moves.handed⟩
  have held := moves.holding
  exact congrArg (fun h : Holding js => { h with pending := [] }) held

theorem destroyAwareness_still : Within Still (destroyAwareness : Method js Unit) := by
  unfold destroyAwareness
  refine still_bind Still.refl fun self => ?_
  split
  · exact Still.refl
  · exact changePresence_still _ _

theorem destroy_leaves (s : ActionCableProvider js) :
    Leaves destroy (fun t => (¬ Removable js ∧ Still s t) ∨ Moves (effect .destroy (holding s))
      (if s.2.2.subscription.isSome then Link.down else link s) s t) s := by
  simp only [destroy, ends_bind]
  refine (disconnect_ends s).mono (fun _ t moves => ?_) fun _ thrown => Or.inl thrown
  refine (destroySession_ends t).mono (fun _ u destroyed => ?_) fun _ => False.elim
  have gone := moves.next destroyed
  rw [moves.holding, moves.link] at gone
  refine (destroyAwareness_still u).mono (fun _ v still => ?_) fun v still => Or.inr (gone.still still)
  have there := gone.still still
  exact Or.inr ⟨there.holding, there.link, there.creating, there.handed⟩

theorem connect_leaves (s : ActionCableProvider js) :
    Leaves connect (fun t => holding t = holding s ∧ link t = link s ∧
      s.2.2.cable.creating <:+ t.2.2.cable.creating ∧
      s.2.2.cable.handed <+: t.2.2.cable.handed) s := by
  simp only [connect, fields, assign, ends_bind, ends_get, ends_pure, ends_ite, ends_modify]
  split
  · exact ⟨trivial, trivial, List.suffix_rfl, List.prefix_rfl⟩
  · exact ⟨rfl, rfl, List.suffix_cons _ _, List.prefix_rfl⟩

theorem created_leaves (s : ActionCableProvider js) :
    Leaves created (fun t => holding t = holding s ∧ s.2.2.cable.handed <+: t.2.2.cable.handed ∧
      match s.2.2.cable.creating with
      | [] => t = s
      | sub :: _ => link t = { link s with subscription := some sub }.refreshed) s := by
  simp only [created, fields, ends_bind, ends_get, ends_pure]
  cases creating : s.2.2.cable.creating with
  | nil => exact ⟨rfl, List.prefix_rfl, rfl⟩
  | cons sub outer =>
    simp only [assign, installUnloadHandler, ends_bind, ends_modify]
    refine (refreshStatus_ends _).mono (fun _ t moves => ?_) fun _ => False.elim
    exact ⟨moves.holding, moves.handed, moves.link⟩

theorem onUnload_still : Within Still (onUnload : Method js Unit) := by
  unfold onUnload
  refine still_bind Still.refl fun self => ?_
  split
  · refine still_bind Still.refl fun core => still_bind (Within.modify fun s => ?_) fun _ => ?_
    · exact ⟨rfl, rfl, rfl, List.prefix_rfl⟩
    · exact removeLocalAwareness_still
  · exact Still.refl

theorem onRestore_still (persisted : Bool) : Within Still (onRestore persisted : Method js Unit) := by
  have forget : Within Still (assign fun self => { self with stashedPresence := none } : Method js Unit) :=
    Within.modify fun s => ⟨rfl, rfl, rfl, List.prefix_rfl⟩
  unfold onRestore
  refine still_bind Still.refl fun self => ?_
  split
  · split
    · exact Still.refl
    · refine still_bind Still.refl fun core => ?_
      split
      · exact forget
      · split
        · exact still_bind (changePresence_still _ _) fun _ => forget
        · exact forget
  · exact Still.refl

def sameLink : Input js → Bool
  | .connect | .created | .disconnect | .destroy | .callback _ _ => false
  | _ => true

theorem step_sameLink (s : ActionCableProvider js) (input : Input js) (same : sameLink input = true) :
    Moves (effect input (holding s)) (link s) s (step input s) := by
  have still : ∀ {program : Method js Unit}, Within Still program → Still s (after program s) :=
    fun within => within.leaves s
  cases input with
  | microtask => exact ⟨rfl, rfl, rfl, List.prefix_rfl⟩
  | tick => exact still delivery_still.onTick
  | transact doc update => exact leaves_iff.mp (transact_leaves s doc update)
  | changePresence awareness changed => exact still (changePresence_still awareness changed)
  | applyRemoteUpdate update => exact leaves_iff.mp (applyRemoteUpdate_leaves s update)
  | pagehide => exact still onUnload_still
  | pageshow persisted => exact still (onRestore_still persisted)
  | onStatusChange listener => exact ⟨rfl, rfl, rfl, List.prefix_rfl⟩
  | unsubscribe listener => exact ⟨rfl, rfl, rfl, List.prefix_rfl⟩
  | rejection e => exact ⟨rfl, rfl, rfl, List.prefix_rfl⟩
  | fail faults => exact ⟨rfl, rfl, rfl, List.prefix_rfl⟩
  | _ => simp [sameLink] at same

end

end Provider

end Yrby
