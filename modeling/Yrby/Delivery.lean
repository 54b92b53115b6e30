import Yrby.Calls
import Yrby.Client
import Yrby.Recording

/- One document between any number of sessions and any number of channel calls.
   Whatever either side sent may arrive late, twice, out of order or never, and a
   call may end between two of its actions. -/
namespace Yrby.Delivery
open Causal Document Wire Yrs Effects ReliableSync Session Channel History DurableLog Client
open Calls (Below)

/- enqueued: every update the session was told of as a local one; heard: every frame it
   received -/
structure Participant (js : Yjs) where
  session : Client.Session js
  enqueued : List Bytes
  heard : List Bytes

namespace Participant
variable {js : Yjs} (p : Participant js)

def doc : js.Doc := p.session.2.1.doc

def pending : List Pending := p.session.1.pending

def synced : Bool := p.session.2.1.synced

def attached : Bool := p.session.2.1.attached

def connection : Option Nat := p.session.2.2.connection

def sent : List Sent := p.session.2.2.sent

def takes (input : Input js) : Participant js where
  session := after (run input) p.session
  enqueued := match input with
    | .transact _ update => if p.attached then p.enqueued ++ [update] else p.enqueued
    | _ => p.enqueued
  heard := match input with
    | .receive frame => p.heard ++ [frame]
    | _ => p.heard

end Participant

structure World (js : Yjs) where
  server : Server
  participants : Nat → Option (Participant js)
  used : List Nat

def World.put {js : Yjs} (w : World js) (p : Nat) (participant : Participant js) : World js :=
  { w with participants := Function.update w.participants p (some participant) }

def claimed {js : Yjs} : Input js → List Nat → List Nat
  | .connect connection, used => connection :: used
  | _, used => used

def World.input {js : Yjs} (w : World js) (p : Nat) (participant : Participant js)
    (input : Input js) : World js :=
  { w.put p (participant.takes input) with used := claimed input w.used }

def Participant.fresh {js : Yjs} (doc : js.Doc) (awareness : Option js.Awareness) : Participant js :=
  ⟨Session.construct doc awareness Host.idle, [], []⟩

@[simp] theorem put_same {js : Yjs} (w : World js) (p : Nat) (participant : Participant js) :
    (w.put p participant).participants p = some participant := by simp [World.put]

theorem put_other {js : Yjs} (w : World js) {p p' : Nat} (participant : Participant js)
    (other : p' ≠ p) : (w.put p participant).participants p' = w.participants p' := by
  simp [World.put, Function.update_of_ne other]

/-- What the sessions of a run may meet: the document a session starts on, the edits
    made to it, the updates it is handed as remote ones, the frames that come in, and
    the session it is when its transport connects. -/
structure Setting (js : Yjs) where
  born : Trace → js.Doc → Prop
  edits : Trace → js.Doc → js.Doc → Bytes → Prop
  remote : Trace → Bytes → Prop
  frames : Trace → Nat → Participant js → Bytes → Prop
  connects : Participant js → Prop := fun _ => True

/- { update, id } or { update } -/
def envelope (e : Sent) : Value :=
  .obj (("update", .str (Base64.toBase64 e.frame)) ::
    match e.id with
    | some id => [("id", .int id)]
    | none => [])

section
variable (y : Yrs) (stored : String → List Bytes) (key : String) {js : Yjs}

/- The session that connections belong to; the others belong to anyone. -/
variable (holder : Nat → Option Nat) (setting : Setting js)

def World.initial (js : Yjs) : World js := ⟨Pool.initial [], fun _ => none, []⟩

/-- A call on the connection of a session comes from its subscription or from a frame
    the session sent there; other connections may send anything. -/
inductive Admissible (w : World js) (call : Call) : Prop where
  | outside (free : holder call.connection = none)
  | subscribe (request : call.request = .subscribed key)
  | frame {p : Nat} {participant : Participant js} {e : Sent} {room : Option String}
      (held : holder call.connection = some p) (there : w.participants p = some participant)
      (sent : e ∈ participant.sent) (on : e.connection = some call.connection)
      (request : call.request = .receive (envelope e) room) (keyed : call.key = some key)

/-- An ack that some call on a connection of the session sent. -/
def AckSent (h : Trace) (p : Nat) (id : Value) : Prop :=
  ∃ c call reply, (c, .began call) ∈ h ∧ holder call.connection = some p ∧
    (c, .did (.transmit (ackEnvelope id)) reply) ∈ h

def Allowed (w : World js) (p : Nat) (participant : Participant js) : Input js → Prop
  | .transact doc update => setting.edits w.server.world participant.doc doc update
  | .connect connection =>
    holder connection = some p ∧ connection ∉ w.used ∧ setting.connects participant
  | .ack id => AckSent holder w.server.world p id
  | .receive frame =>
    frame.length ≤ maxSafeInteger ∧ setting.frames w.server.world p participant frame
  | .applyRemoteUpdate update => setting.remote w.server.world update
  | _ => True

inductive Step : World js → World js → Prop where
  | construct {w : World js} {p : Nat} {doc : js.Doc} (awareness : Option js.Awareness)
      (absent : w.participants p = none) (born : setting.born w.server.world doc) :
      Step w (w.put p (.fresh doc awareness))
  | input {w : World js} {p : Nat} {participant : Participant js} (input : Input js)
      (there : w.participants p = some participant)
      (allowed : Allowed holder setting w p participant input) :
      Step w (w.input p participant input)
  | call {w : World js} {c : Nat} (call : Call) (absent : w.server.tasks c = none)
      (fresh : ∀ e ∈ w.server.world, e.1 ≠ c) (admissible : Admissible key holder w call) :
      Step w { w with server := ⟨w.server.world ++ [(c, .began call)],
        Function.update w.server.tasks c (some (call.program y))⟩ }
  | act {w : World js} {c : Nat} {action : Action}
      {next : Except String (Reply action) → Handler Unit} {reply : Except String (Reply action)}
      {h : Trace} (task : w.server.tasks c = some (.perform action next))
      (served : Serves y stored c w.server.world action reply h) :
      Step w { w with server := ⟨h, Function.update w.server.tasks c (some (next reply))⟩ }
  | die {w : World js} (c : Nat) : Step w { w with
      server := ⟨w.server.world, Function.update w.server.tasks c none⟩ }

def Reached : World js → Prop :=
  Relation.ReflTransGen (Step y stored key holder setting) (World.initial js)

/-- A step is one of the server, whose history grows, or one of a session. -/
inductive Moves : World js → World js → Prop where
  | server {w : World js} {server : Server} (ext : Trace)
      (grown : server.world = w.server.world ++ ext)
      (stepped : Effects.Step (host y stored) w.server server)
      (calls : ∀ c call, (c, .began call) ∈ ext →
        Admissible key holder w call ∧ ∀ e ∈ w.server.world, e.1 ≠ c) :
      Moves w { w with server := server }
  | construct {w : World js} {p : Nat} {doc : js.Doc} (awareness : Option js.Awareness)
      (absent : w.participants p = none) (born : setting.born w.server.world doc) :
      Moves w (w.put p (.fresh doc awareness))
  | input {w : World js} {p : Nat} {participant : Participant js} (input : Input js)
      (there : w.participants p = some participant)
      (allowed : Allowed holder setting w p participant input) :
      Moves w (w.input p participant input)

end

variable {y : Yrs} {stored : String → List Bytes} {key : String} {js : Yjs}
  {holder : Nat → Option Nat} {setting : Setting js} {w w' : World js}

theorem Step.moves (step : Step y stored key holder setting w w') :
    Moves y stored key holder setting w w' := by
  cases step with
  | construct awareness absent born => exact .construct awareness absent born
  | input input there allowed => exact .input input there allowed
  | @call c call absent fresh admissible =>
    refine .server [(c, .began call)] rfl (Effects.Step.spawn absent ⟨call, rfl, fresh, rfl⟩) ?_
    intro c' call' mem
    obtain ⟨rfl, same⟩ := Prod.mk.inj (List.mem_singleton.mp mem)
    obtain rfl := Event.began.inj same
    exact ⟨admissible, fresh⟩
  | @act c action next reply h task served =>
    have stepped : Effects.Step (host y stored) w.server
        ⟨h, Function.update w.server.tasks c (some (next reply))⟩ := Effects.Step.act task served
    rcases serves_cases served with rfl | ⟨k, update, _, rfl⟩
    · exact .server _ rfl stepped fun _ _ mem => by simp at mem
    · exact .server _ rfl stepped fun _ _ mem => by simp at mem
  | die c => exact .server [] (by simp) (Effects.Step.die c) fun _ _ mem => by simp at mem

theorem reached_server (reached : Reached y stored key holder setting w) :
    History.Reached y stored w.server := by
  induction reached with
  | refl => exact Relation.ReflTransGen.refl
  | tail _ step ih =>
    cases step.moves with
    | server ext grown stepped calls => exact ih.tail stepped
    | construct _ _ _ => exact ih
    | input _ _ _ => exact ih

theorem reached_order (laws : y.Laws) (reached : Reached y stored key holder setting w) :
    InOrder y stored w.server.world := reached_inOrder laws (reached_server reached)

theorem envelope_id (e : Sent) : (envelope e).fetch "id" = match e.id with
    | some id => .int id
    | none => .null := by
  unfold envelope
  cases e.id <;> rfl

theorem envelope_carries {call : Call} {e : Sent} {room : Option String} {encoded : String}
    {bytes : Bytes} (request : call.request = .receive (envelope e) room)
    (carries : call.Carries encoded bytes) : bytes = e.frame := by
  obtain ⟨data, room', received, update, decoded⟩ := carries
  obtain ⟨rfl, _⟩ := Request.receive.inj (request.symm.trans received)
  have same : (envelope e).fetch "update" = .str (Base64.toBase64 e.frame) := rfl
  obtain rfl := Value.str.inj (update.symm.trans same)
  exact Option.some.inj (decoded.symm.trans (Base64.strictDecode64_encode e.frame))

def Carried (w : World js) (key : String) (p : Nat) (call : Call) : Prop :=
  call.request = .subscribed key ∨ ∃ participant e room, w.participants p = some participant ∧
    e ∈ participant.sent ∧ e.connection = some call.connection ∧
    call.request = .receive (envelope e) room ∧ call.key = some key

/-- What holds of every run, whatever its setting. -/
structure Sane (w : World js) (key : String) (holder : Nat → Option Nat) : Prop where
  memo : ∀ p participant, w.participants p = some participant →
    Memoized js.mergeUpdates participant.session.1
  owned : ∀ c call p, (c, .began call) ∈ w.server.world → holder call.connection = some p →
    Carried w key p call

theorem takes_emits {y : Yrs} (laws : js.Laws y) (input : Input js) {participant : Participant js}
    (memo : Memoized js.mergeUpdates participant.session.1) :
    Emits (change input participant.session) (participant.takes input).session :=
  run_emits laws input memo

theorem change_sent (input : Input js) (s : Client.Session js) :
    (change input s).2.2.sent = s.2.2.sent := by
  cases input <;> rfl

theorem sent_grows {y : Yrs} (laws : js.Laws y) (input : Input js) {participant : Participant js}
    (memo : Memoized js.mergeUpdates participant.session.1) {e : Sent} (mem : e ∈ participant.sent) :
    e ∈ (participant.takes input).sent := by
  obtain ⟨l, sent, _⟩ := (takes_emits laws input memo).sent
  rw [change_sent] at sent
  rw [Participant.sent, sent]
  exact List.mem_append_left _ mem

theorem Carried.later {p : Nat} {call : Call}
    (keeps : ∀ participant, w.participants p = some participant →
      ∃ participant', w'.participants p = some participant' ∧
        ∀ e ∈ participant.sent, e ∈ participant'.sent)
    (carried : Carried w key p call) : Carried w' key p call := by
  rcases carried with subscribed | ⟨participant, e, room, there, sent, rest⟩
  · exact Or.inl subscribed
  · obtain ⟨participant', there', grows⟩ := keeps participant there
    exact Or.inr ⟨participant', e, room, there', grows e sent, rest⟩

theorem Admissible.carried {call : Call} {p : Nat} (admissible : Admissible key holder w call)
    (held : holder call.connection = some p) : Carried w key p call := by
  cases admissible with
  | outside free => simp [free] at held
  | subscribe request => exact Or.inl request
  | frame held' there sent on request keyed =>
    obtain rfl := Option.some.inj (held.symm.trans held')
    exact Or.inr ⟨_, _, _, there, sent, on, request, keyed⟩

theorem input_same (w : World js) (p : Nat) (participant : Participant js) (input : Input js) :
    (w.input p participant input).participants p = some (participant.takes input) := put_same w p _

theorem input_other (w : World js) {p p' : Nat} (participant : Participant js) (input : Input js)
    (other : p' ≠ p) : (w.input p participant input).participants p' = w.participants p' :=
  put_other w _ other

theorem Sane.step (jsLaws : js.Laws y) (sane : Sane w key holder)
    (step : Step y stored key holder setting w w') : Sane w' key holder := by
  cases step.moves with
  | server ext grown _ calls =>
    refine ⟨sane.memo, fun c call p began held => ?_⟩
    rw [grown] at began
    rcases List.mem_append.mp began with old | new
    · exact sane.owned c call p old held
    · exact (calls c call new).1.carried held
  | @construct p doc awareness absent _ =>
    have memo : Memoized js.mergeUpdates (Participant.fresh doc awareness).session.1 :=
      fun _ eq => by simp [Participant.fresh, Session.construct, ReliableSync.initial] at eq
    refine ⟨fun p' participant there => ?_, fun c call p' began held => ?_⟩
    · by_cases same : p' = p
      · subst same
        rw [put_same] at there
        exact Option.some.inj there ▸ memo
      · exact sane.memo p' participant (by rwa [put_other _ _ same] at there)
    · refine (sane.owned c call p' began held).later fun participant there => ?_
      have other : p' ≠ p := fun same => by simp [← same, there] at absent
      exact ⟨participant, by rwa [put_other _ _ other], fun _ mem => mem⟩
  | @input p participant input there _ =>
    have memo := sane.memo p participant there
    refine ⟨fun p' participant' there' => ?_, fun c call p' began held => ?_⟩
    · by_cases same : p' = p
      · subst same
        rw [input_same] at there'
        exact Option.some.inj there' ▸ (takes_emits jsLaws input memo).memo
      · exact sane.memo p' participant' (by rwa [input_other _ _ _ same] at there')
    · refine (sane.owned c call p' began held).later fun participant' there' => ?_
      by_cases same : p' = p
      · subst same
        obtain rfl := Option.some.inj (there.symm.trans there')
        exact ⟨_, input_same _ _ _ _, fun e => sent_grows jsLaws input memo⟩
      · exact ⟨participant', by rwa [input_other _ _ _ same], fun _ mem => mem⟩

theorem reached_sane (jsLaws : js.Laws y) (reached : Reached y stored key holder setting w) :
    Sane w key holder := by
  induction reached with
  | refl => exact ⟨fun _ _ there => by simp [World.initial] at there,
      fun _ _ _ began => by simp [World.initial, Pool.initial] at began⟩
  | tail _ step ih => exact ih.step jsLaws step

/-- The invariant rule: what holds of a session as it is born, whatever the server
    does meanwhile and whatever the session takes, holds of every session of a run. -/
theorem Reached.every {F : Trace → Nat → Participant js → Prop}
    (born : ∀ w p doc awareness, Reached y stored key holder setting w →
      setting.born w.server.world doc → F w.server.world p (.fresh doc awareness))
    (later : ∀ w ext p participant, Reached y stored key holder setting w →
      w.participants p = some participant → InOrder y stored (w.server.world ++ ext) →
      F w.server.world p participant → F (w.server.world ++ ext) p participant)
    (takes : ∀ w p participant input, Reached y stored key holder setting w →
      w.participants p = some participant → Allowed holder setting w p participant input →
      F w.server.world p participant → F w.server.world p (participant.takes input))
    (laws : y.Laws) (reached : Reached y stored key holder setting w) {p : Nat}
    {participant : Participant js} (there : w.participants p = some participant) :
    F w.server.world p participant := by
  induction reached generalizing p participant with
  | refl => simp [World.initial] at there
  | @tail w w' reached step ih =>
    have order := reached_order laws (reached.tail step)
    cases step.moves with
    | server ext grown _ _ =>
      rw [grown] at order ⊢
      exact later w ext p participant reached there order (ih there)
    | @construct q doc awareness absent isBorn =>
      by_cases same : p = q
      · subst same
        rw [put_same] at there
        exact Option.some.inj there ▸ born w p doc awareness reached isBorn
      · exact ih (by rwa [put_other _ _ same] at there)
    | @input q before input was allowed =>
      by_cases same : p = q
      · subst same
        rw [input_same] at there
        exact Option.some.inj there ▸ takes w p before input reached was allowed (ih was)
      · exact ih (by rwa [input_other _ _ _ same] at there)

/-- A call that runs alone takes every fact along that its acts take along. -/
theorem below_handled (laws : y.Laws) {F : Trace → (Nat → Option (Handler Unit)) → Prop}
    {h : Trace} {tasks : Nat → Option (Handler Unit)} {n : Nat} (below : Below n h tasks) (call : Call)
    (began : F (h ++ [(n, .began call)]) (Function.update tasks n (some (call.program y))))
    (acts : ∀ h tasks action next, tasks n = some (.perform action next) → F h tasks →
      F (obey y stored n h action).1 (Function.update tasks n (some (next (obey y stored n h action).2)))) :
    ∃ tasks, F (handled y stored n call h) tasks ∧ Below (n + 1) (handled y stored n call h) tasks := by
  obtain ⟨idle, labels⟩ := below
  refine ⟨_, alone (obey y stored n) acts (call.program y) (by simp) began, ?_, ?_⟩
  · intro c above
    rw [Function.update_of_ne (by omega), Function.update_of_ne (by omega)]
    exact idle c (by omega)
  · intro e mem
    rcases handled_labels laws n call h e mem with old | own
    · exact (labels e old).trans (Nat.lt_succ_self n)
    · exact own ▸ Nat.lt_succ_self n

/-- A state that steps lead to from w, in which no call numbered n or above has begun. -/
def Ahead (y : Yrs) (stored : String → List Bytes) (key : String) (holder : Nat → Option Nat)
    (setting : Setting js) (w : World js) (h : Trace) (participants : Nat → Option (Participant js))
    (used : List Nat) (n : Nat) : Prop :=
  ∃ tasks, Relation.ReflTransGen (Step y stored key holder setting) w
      ⟨⟨h, tasks⟩, participants, used⟩ ∧ Below n h tasks

variable {h : Trace} {participants : Nat → Option (Participant js)} {used : List Nat} {n : Nat}

theorem ahead_initial :
    Ahead y stored key holder setting (World.initial js) [] (fun _ => none) [] 0 :=
  ⟨_, Relation.ReflTransGen.refl, fun _ _ => rfl, by simp⟩

theorem Ahead.construct (ahead : Ahead y stored key holder setting w h participants used n)
    (p : Nat) {doc : js.Doc} (awareness : Option js.Awareness) (absent : participants p = none)
    (born : setting.born h doc) : Ahead y stored key holder setting w h
      (Function.update participants p (some (.fresh doc awareness))) used n := by
  obtain ⟨tasks, steps, rest⟩ := ahead
  exact ⟨tasks, steps.tail (Step.construct awareness absent born), rest⟩

theorem Ahead.input (ahead : Ahead y stored key holder setting w h participants used n)
    (p : Nat) (participant : Participant js) (input : Input js)
    (there : participants p = some participant)
    (allowed : ∀ server, Allowed holder setting ⟨⟨h, server⟩, participants, used⟩ p participant input) :
    Ahead y stored key holder setting w h
      (Function.update participants p (some (participant.takes input))) (claimed input used) n := by
  obtain ⟨tasks, steps, rest⟩ := ahead
  exact ⟨tasks, steps.tail (Step.input input there (allowed tasks)), rest⟩

theorem Ahead.handled (laws : y.Laws)
    (ahead : Ahead y stored key holder setting w h participants used n) (call : Call)
    (admissible : ∀ server, Admissible key holder ⟨⟨h, server⟩, participants, used⟩ call) :
    Ahead y stored key holder setting w (handled y stored n call h) participants used (n + 1) := by
  obtain ⟨tasks, steps, below⟩ := ahead
  have began : Relation.ReflTransGen (Step y stored key holder setting) w
      ⟨⟨h ++ [(n, .began call)], Function.update tasks n (some (call.program y))⟩, participants, used⟩ :=
    steps.tail (Step.call call (below.1 n (Nat.le_refl n)) (fun e mem => (below.2 e mem).ne)
      (admissible tasks))
  exact below_handled laws below call
    (F := fun h tasks => Relation.ReflTransGen (Step y stored key holder setting) w
      ⟨⟨h, tasks⟩, participants, used⟩)
    began fun h tasks action next task steps =>
      steps.tail (Step.act task (obey_serves laws n h action))

end Yrby.Delivery
