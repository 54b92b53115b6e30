import Mathlib.Data.List.Infix
import Yrby.Frames

/- One client: a session on a transport that may fail and that keeps whatever it is
   handed. change says what an input does to the queue, the document and the
   flags; Emits says what may be handed to the transport meanwhile. -/
namespace Yrby.Client
open Causal Document Wire Effects ReliableSync Session Frames

/-- What the session handed to the transport while on a connection. -/
structure Sent where
  connection : Option Nat
  frame : Bytes
  id : Option Nat
  deriving DecidableEq, Repr

/- faults: which of the next sends throw -/
structure Host where
  connection : Option Nat
  sent : List Sent
  faults : List Bool
  timers : List Nat
  nextTimer : Nat
  errors : List (JsError × String)

def Host.idle : Host := ⟨none, [], [], [], 0, []⟩

def Host.handed (host : Host) (frame : Bytes) (id : Option Nat) : Host := { host with
  sent := host.sent ++ [⟨host.connection, frame, id⟩]
  faults := host.faults.tail }

def Host.send (frame : Bytes) (id : Option Nat) : EStateM JsError Host Unit := do
  let host ← get
  modify fun host => host.handed frame id
  if host.faults.headD false then throw "send failed"

def transport : Session.Options Host where
  send := Host.send
  onError e context host := { host with errors := host.errors ++ [(e, context)] }
  resendInterval := 1000
  setInterval _ host := (host.nextTimer, { host with
    timers := host.nextTimer :: host.timers
    nextTimer := host.nextTimer + 1 })
  clearInterval handle host := { host with timers := host.timers.filter (· ≠ handle) }

inductive Input (js : Yjs) where
  | transact (doc : js.Doc) (update : Bytes)
  | changePresence (awareness : js.Awareness) (changed : List Nat)
  | removePresence
  | connect (connection : Nat)
  | disconnect
  | tick
  | ack (id : Value)
  | receive (frame : Bytes)
  | applyRemoteUpdate (update : Bytes)
  | destroy
  | fail (faults : List Bool)

abbrev Session (js : Yjs) := State js Host

variable {js : Yjs}

def assignHost (change : Host → Host) : Session.Method js Host Unit :=
  modify fun s => (s.1, s.2.1, change s.2.2)

def hand (s : Session js) (frame : Bytes) (id : Option Nat) : Session js :=
  (s.1, s.2.1, s.2.2.handed frame id)

theorem ends_transmit {frame : Bytes} {id : Option Nat} {post : Unit → Session js → Prop}
    {raised : Session js → Prop} {s : Session js} :
    Ends (transmit transport frame id) post raised s ↔
      if s.2.2.faults.headD false = true then raised (hand s frame id) else post () (hand s frame id) := by
  simp only [transmit, ends_zoom, transport, Host.send, ends_bind, ends_get, ends_modify, ends_ite,
    ends_throw, ends_pure]
  rfl

def reply : Option Bytes → Session.Method js Host Unit
  | some frame => transmit transport frame none
  | none => return ()

def run : Input js → Session.Method js Host Unit
  | .transact doc update => transact transport doc update
  | .changePresence awareness changed => changePresence transport awareness changed
  | .removePresence => removeLocalAwareness transport
  | .connect connection => do
    assignHost fun host => { host with connection := some connection }
    Session.onConnect transport
  | .disconnect => do
    assignHost fun host => { host with connection := none }
    Session.onDisconnect transport
  | .tick => onTick (delivery transport js)
  | .ack id => ack transport id
  | .receive frame => do reply (← receive transport frame)
  | .applyRemoteUpdate update => applyRemoteUpdate update
  | .destroy => Session.destroy transport
  | .fail faults => assignHost fun host => { host with faults := faults }

def push (self : ReliableSync) (update : Bytes) : ReliableSync := { self with
  pending := self.pending ++ [⟨self.nextSeq, update⟩]
  nextSeq := self.nextSeq + 1
  tailCache := none }

/-- What an input does to the queue, the document and the flags. -/
def change : Input js → Session js → Session js
  | .transact doc update, s =>
    (if s.2.1.attached then push s.1 update else s.1, { s.2.1 with doc := doc }, s.2.2)
  | .connect connection, s => (s.1, s.2.1, { s.2.2 with connection := some connection })
  | .disconnect, s => (s.1, { s.2.1 with synced := false }, { s.2.2 with connection := none })
  | .ack id, s => (s.1.acked id, s.2)
  | .receive frame, s => (s.1, { s.2.1 with
      doc := changedDoc js frame s.2.1.doc
      synced := s.2.1.synced || isSyncStep2 frame }, s.2.2)
  | .applyRemoteUpdate update, s =>
    (s.1, { s.2.1 with doc := (js.applyUpdate s.2.1.doc update).1 }, s.2.2)
  | .destroy, s =>
    ({ s.1 with pending := [], tailCache := none }, { s.2.1 with attached := false }, s.2.2)
  | _, s => s

/-- The kinds of frame a session hands out, with the document and the queue it has. -/
inductive Emitted (doc : js.Doc) (pending : List Pending) (e : Sent) : Prop where
  | syncStep1 (frame : e.frame = frameSyncStep1 doc) (id : e.id = none)
  | awareness {payload : Bytes} (frame : e.frame = writeVarUint messageAwareness ++
      writeVarUint8Array payload) (id : e.id = none)
  | answer {update : Bytes} (frame : e.frame = syncFrame messageYjsSyncStep2 update)
      (id : e.id = none)
  | tail {update : Bytes} {last : Pending} (ends : pending.getLast? = some last)
      (merged : mergeTail js.mergeUpdates (pending.map Pending.update) = .ok update)
      (frame : e.frame = frameUpdate js update) (id : e.id = some last.seq)

/-- From s to t only frames went out, each on the connection there is. -/
structure Emits (s t : Session js) : Prop where
  pending : t.1.pending = s.1.pending
  nextSeq : t.1.nextSeq = s.1.nextSeq
  memo : Memoized js.mergeUpdates t.1
  doc : t.2.1.doc = s.2.1.doc
  synced : t.2.1.synced = s.2.1.synced
  attached : t.2.1.attached = s.2.1.attached
  connection : t.2.2.connection = s.2.2.connection
  sent : ∃ l, t.2.2.sent = s.2.2.sent ++ l ∧
    ∀ e ∈ l, e.connection = s.2.2.connection ∧ Emitted s.2.1.doc s.1.pending e

theorem Emits.refl {s : Session js} (memo : Memoized js.mergeUpdates s.1) : Emits s s :=
  ⟨rfl, rfl, memo, rfl, rfl, rfl, rfl, [], by simp, by simp⟩

theorem emits_timerFree (s : Session js) : TimerFree (delivery transport js) (Emits s) where
  start _ _ _ _ emits eq := by
    obtain ⟨_, rfl⟩ := Prod.mk.inj eq
    exact ⟨emits.pending, emits.nextSeq, emits.memo, emits.doc, emits.synced, emits.attached,
      emits.connection, emits.sent⟩
  stop _ _ _ emits := ⟨emits.pending, emits.nextSeq, emits.memo, emits.doc, emits.synced,
    emits.attached, emits.connection, emits.sent⟩
  forget _ _ emits := ⟨emits.pending, emits.nextSeq, emits.memo, emits.doc, emits.synced,
    emits.attached, emits.connection, emits.sent⟩

theorem send_leaves {frame : Bytes} {id : Option Nat} {fact : Host → Prop} {host : Host}
    (handed : fact (host.handed frame id)) : Leaves (Host.send frame id) fact host := by
  simp only [Host.send, ends_bind, ends_get, ends_modify, ends_ite, ends_throw, ends_pure]
  split <;> exact handed

theorem transmit_emits {s t : Session js} (emits : Emits s t) {frame : Bytes} {id : Option Nat}
    (kind : Emitted s.2.1.doc s.1.pending ⟨s.2.2.connection, frame, id⟩) :
    Leaves (transmit transport frame id) (Emits s) t := by
  simp only [transmit, ends_zoom]
  apply send_leaves
  obtain ⟨l, sent, kinds⟩ := emits.sent
  refine ⟨emits.pending, emits.nextSeq, emits.memo, emits.doc, emits.synced, emits.attached,
    emits.connection, l ++ [⟨s.2.2.connection, frame, id⟩], ?_, ?_⟩
  · simp [Host.handed, sent, emits.connection]
  · intro e mem
    rcases List.mem_append.mp mem with old | new
    · exact kinds e old
    · obtain rfl := List.mem_singleton.mp new
      exact ⟨rfl, kind⟩

theorem flush_emits {s t : Session js} (emits : Emits s t) :
    Leaves (flush (delivery transport js)) (Emits s) t := by
  obtain ⟨self, world⟩ := t
  apply flush_leaves emits.memo emits
  intro tail last _ ends merged
  have cached : Emits s ({ self with tailCache := some tail }, world) := by
    refine ⟨emits.pending, emits.nextSeq, fun other eq => ?_, emits.doc, emits.synced,
      emits.attached, emits.connection, emits.sent⟩
    obtain rfl := Option.some.inj eq
    exact merged
  have pending : self.pending = s.1.pending := emits.pending
  apply transmit_emits cached
  rw [updates, pending] at merged
  exact .tail (by rw [← pending, ends]) merged rfl rfl

theorem startTimer_emits {s t : Session js} (emits : Emits s t) :
    Leaves (startTimer (delivery transport js)) (Emits s) t :=
  startTimer_leaves (emits_timerFree s) emits

theorem enqueue_emits (s : Session js) (update : Bytes) :
    Leaves (enqueue (delivery transport js) update) (Emits (push s.1 update, s.2)) s := by
  have pushed : Emits (push s.1 update, s.2) (push s.1 update, s.2) :=
    Emits.refl fun _ eq => by simp [push] at eq
  simp only [enqueue, ends_bind, ends_assign, ends_this, ends_ite]
  split
  · exact (startTimer_emits pushed).mono (fun _ _ => flush_emits) fun _ => id
  · exact flush_emits pushed

theorem frameAwareness_ok {awareness : js.Awareness} {clients : List Nat} {update : Bytes}
    (encoded : js.encodeAwarenessUpdate awareness clients = .ok update) :
    frameAwareness awareness clients = .ok (awarenessFrame update) := by
  rw [frameAwareness, encoded]
  rfl

theorem frameAwareness_inv {awareness : js.Awareness} {clients : List Nat} {frame : Bytes}
    (framed : frameAwareness awareness clients = .ok frame) :
    ∃ update, js.encodeAwarenessUpdate awareness clients = .ok update ∧ frame = awarenessFrame update := by
  unfold frameAwareness at framed
  cases encoded : js.encodeAwarenessUpdate awareness clients with
  | error e =>
    rw [encoded] at framed
    cases framed
  | ok update =>
    rw [encoded] at framed
    exact ⟨update, rfl, (Except.ok.inj framed).symm⟩

theorem awareness_emits {s t : Session js} (emits : Emits s t) {awareness : js.Awareness}
    {clients : List Nat} {frame : Bytes} (framed : frameAwareness awareness clients = .ok frame) :
    Leaves (transmit transport frame none) (Emits s) t := by
  obtain ⟨update, _, same⟩ := frameAwareness_inv framed
  exact transmit_emits emits (.awareness same rfl)

theorem changePresence_emits {s t : Session js} (emits : Emits s t) (awareness : js.Awareness)
    (changed : List Nat) : Leaves (changePresence transport awareness changed) (Emits s) t := by
  have there : Emits s (t.1, { t.2.1 with awareness := some awareness }, t.2.2) :=
    ⟨emits.pending, emits.nextSeq, emits.memo, emits.doc, emits.synced, emits.attached,
      emits.connection, emits.sent⟩
  simp only [changePresence, onAwarenessUpdate, ends_bind, ends_assignCore, ends_core, ends_ite]
  split
  · simp only [Bool.false_eq_true, ↓reduceIte]
    cases framed : frameAwareness awareness changed with
    | error e => exact there
    | ok frame => exact awareness_emits there framed
  · exact there

theorem connect_emits (s : Session js) (memo : Memoized js.mergeUpdates s.1) :
    Leaves (Session.onConnect transport) (Emits s) s := by
  have start : Emits s s := Emits.refl memo
  have deliver : ∀ t, Emits s t → Leaves (ReliableSync.onConnect (delivery transport js)) (Emits s) t := by
    intro t emits
    have there : Emits s ({ t.1 with connected := true }, t.2) :=
      ⟨emits.pending, emits.nextSeq, emits.memo, emits.doc, emits.synced, emits.attached,
        emits.connection, emits.sent⟩
    simp only [ReliableSync.onConnect, ends_bind, ends_assign]
    refine (flush_emits there).mono (fun _ t emits => ?_) fun _ => id
    simp only [ends_this, ends_ite]
    split
    · exact startTimer_emits emits
    · exact emits
  simp only [Session.onConnect, ends_bind, ends_core]
  refine (transmit_emits start (.syncStep1 rfl rfl)).mono (fun _ t emits => ?_) fun _ => id
  cases s.2.1.awareness with
  | none => exact deliver t emits
  | some awareness =>
    simp only [ends_ite]
    split
    · cases framed : frameAwareness awareness [js.clientID s.2.1.doc] with
      | error e => exact emits
      | ok frame =>
        simp only [ends_bind]
        exact (awareness_emits emits framed).mono (fun _ => deliver) fun _ => id
    · exact deliver t emits

theorem disconnect_emits {s t : Session js}
    (emits : Emits s (t.1, { t.2.1 with synced := false }, t.2.2)) :
    Leaves (Session.onDisconnect transport) (Emits s) t := by
  have there : Emits s ({ t.1 with connected := false }, { t.2.1 with synced := false }, t.2.2) :=
    ⟨emits.pending, emits.nextSeq, emits.memo, emits.doc, emits.synced, emits.attached,
      emits.connection, emits.sent⟩
  simp only [Session.onDisconnect, ReliableSync.onDisconnect, ends_bind, ends_assignCore, ends_assign]
  refine (stopTimer_ends (emits_timerFree s) there).mono (fun _ u emits => ?_) fun _ => False.elim
  exact ⟨emits.pending, emits.nextSeq, emits.memo, emits.doc, emits.synced, emits.attached,
    emits.connection, emits.sent⟩

theorem destroy_emits {s : Session js} : Leaves (Session.destroy transport)
    (Emits (change .destroy s)) s := by
  have cleared : Emits (change .destroy s) (change .destroy s) :=
    Emits.refl fun _ eq => by simp [change] at eq
  have free := emits_timerFree (change .destroy s)
  simp only [Session.destroy, ReliableSync.destroy, ends_bind, ends_assignCore, ends_assign]
  -- the timer stops before the queue is dropped
  have still : TimerFree (delivery transport js) fun t =>
      Emits (change .destroy s) ({ t.1 with pending := [], tailCache := none }, t.2) :=
    ⟨fun _ w handle world emits eq => free.start _ w handle world emits eq,
      fun _ w handle emits => free.stop _ w handle emits, fun _ w emits => free.forget _ w emits⟩
  refine (stopTimer_ends still ?_).mono (fun _ _ => id) fun _ => False.elim
  exact ⟨cleared.pending, cleared.nextSeq, cleared.memo, cleared.doc, cleared.synced,
    cleared.attached, cleared.connection, cleared.sent⟩

theorem received_host {frame : Bytes} {s t : Session js} {answer : Option Bytes}
    (received : Received transport frame s answer t) :
    t.2.2.sent = s.2.2.sent ∧ t.2.2.connection = s.2.2.connection := by
  rcases received.world with same | ⟨e, reported⟩
  · rw [same]
    exact ⟨rfl, rfl⟩
  · rw [reported]
    exact ⟨rfl, rfl⟩

theorem receive_emits {y : Yrs} (laws : js.Laws y) {s : Session js}
    (memo : Memoized js.mergeUpdates s.1) (frame : Bytes) :
    Leaves (run (.receive frame)) (Emits (change (.receive frame) s)) s := by
  simp only [run, ends_bind]
  refine (receive_ends laws frame s).mono (fun answer t received => ?_) fun _ => False.elim
  have host := received_host received
  have emits : Emits (change (.receive frame) s) t := by
    refine ⟨by rw [received.queue]; rfl, by rw [received.queue]; rfl, by rw [received.queue]; exact memo,
      received.doc, received.synced, received.attached, host.2, [], ?_, by simp⟩
    simpa [change] using host.1
  cases answer with
  | none => exact emits
  | some answer =>
    obtain ⟨update, same⟩ := received.reply answer rfl
    exact transmit_emits emits (.answer same rfl)

/-- However an input ends, it did what change says, and only sent frames. -/
theorem run_emits {y : Yrs} (laws : js.Laws y) (input : Input js) {s : Session js}
    (memo : Memoized js.mergeUpdates s.1) :
    Emits (change input s) (after (run input) s) := by
  refine leaves_iff.mp ?_
  have start : Emits s s := Emits.refl memo
  cases input with
  | transact doc update =>
    simp only [run, transact, onDocUpdate, ends_bind, ends_assignCore, ends_core, ends_ite, change]
    split
    · simp only [Bool.false_eq_true, ↓reduceIte]
      exact enqueue_emits _ update
    · exact Emits.refl memo
  | changePresence awareness changed => exact changePresence_emits start awareness changed
  | removePresence =>
    simp only [run, removeLocalAwareness, ends_bind, ends_core]
    split
    · exact start
    · simp only [ends_ite]
      split
      · exact changePresence_emits start _ _
      · exact start
  | connect connection => exact connect_emits _ memo
  | disconnect => exact disconnect_emits (Emits.refl memo)
  | tick =>
    simp only [run, onTick, ends_bind, ends_this, ends_ite]
    split
    · exact start
    · exact flush_emits start
  | ack id =>
    apply onAck_leaves (emits_timerFree _)
    apply Emits.refl
    simp only [change, acked]
    split
    · split
      · exact memo
      · exact fun _ eq => by simp [prune] at eq
    · exact memo
  | receive frame => exact receive_emits laws memo frame
  | applyRemoteUpdate update =>
    simp only [run, applyRemoteUpdate, ends_bind, ends_core, ends_assignCore]
    split <;> exact Emits.refl memo
  | destroy => exact destroy_emits
  | fail faults =>
    simp only [run, assignHost, ends_modify]
    exact ⟨rfl, rfl, memo, rfl, rfl, rfl, rfl, [], by simp [change], by simp⟩

end Yrby.Client
