import Yrby.Calls
import Yrby.Downstream
import Yrby.Reference.Crate

/- Which streams a subscription registers, and what reaches it on them. A broadcast
   reaches every subscription on its stream; a client may whisper on a stream that
   was registered with whisper: true, and a whisper reaches every subscription on
   that stream too. -/
namespace Yrby.Isolation
open Effects Protocol Channel History Calls Downstream

def registrations (whispers : Bool) (key : String) : List (String × Bool) :=
  (syncStreamName key, false) ::
    (if whispers then [(syncAwarenessStreamName key, true)] else [])

def Registers (h : Trace) (c : Nat) (stream : String) (whisper : Bool) : Prop :=
  ∃ reply, (c, .did (.streamFrom stream whisper) reply) ∈ h

def Subscribes (h : Trace) (c : Nat) (key : String) : Prop :=
  ∃ call : Call, (c, .began call) ∈ h ∧ call.request = .subscribed key

/-- Something published under a key reaches a subscription. -/
inductive Delivered (h : Trace) (key : String) (c : Nat) : Prop where
  | broadcast {c' : Nat} {call : Call} {stream : String} {message : Value}
      {reply : Except String Unit} {whisper : Bool}
      (began : (c', .began call) ∈ h) (keyed : call.key = some key)
      (sent : (c', .did (.broadcast stream message) reply) ∈ h)
      (follows : Registers h c stream whisper)
  | whisper {c' : Nat} {stream : String} {whisper : Bool}
      (subscribes : Subscribes h c' key) (enabled : Registers h c' stream true)
      (follows : Registers h c stream whisper)

/-- Nothing of key reaches whoever subscribes to key' only. -/
structure Isolated (h : Trace) (key key' : String) : Prop where
  delivered : ∀ c, Subscribes h c key' → ¬ Delivered h key c
  apart : ∀ c c' stream whisper whisper', Subscribes h c key → Subscribes h c' key' →
    Registers h c stream whisper → ¬ Registers h c' stream whisper'
  silent : ∀ c, Subscribes h c key → ¬ Registers h c (syncStreamName key') true

/-- Channels on a key respond to whispers_to only if this says so. -/
def Whispering (h : Trace) (key : String) (whispers : Bool) : Prop :=
  ∀ c call, (c, .began call) ∈ h → call.request = .subscribed key →
    call.channel.respondsToWhispersTo = true → whispers = true

def Asks (call : Call) : Action → Prop
  | .streamFrom stream whisper => ∃ key, call.request = .subscribed key ∧
      (stream, whisper) ∈ registrations call.channel.respondsToWhispersTo key
  | .broadcast stream _ => ∃ key, call.key = some key ∧ stream = syncStreamName key
  | _ => True

variable {y : Yrs} {stored : String → List Document.Bytes} {h : Trace} {c : Nat} {key : String}

theorem permits_asks {call : Call} (keyed : call.key = some key) : Permits (Asks call) key where
  loads := trivial
  records := fun _ => trivial
  broadcasts := fun _ => ⟨key, keyed, rfl⟩
  transmits := fun _ => trivial

theorem receive_asks {call : Call} {data : Value} {named : Option String}
    (request : call.request = .receive data named) :
    (syncReceive y call.channel data named).Only (Asks call) := by
  unfold syncReceive
  dsimp only
  split
  · rename_i encoded _
    split
    · exact Program.only_act trivial
    · split
      · exact Program.only_act trivial
      · split
        · exact Program.only_act trivial
        · have keyed : call.key = named.or call.channel.syncKey := by simp [Call.key, request]
          have permits : ∀ key, syncValidateKey { call.channel with
              syncKey := named.or call.channel.syncKey } = .ok key → Permits (Asks call) key :=
            fun key validated => permits_asks (keyed.trans (DurableLog.syncValidateKey_ok validated))
          apply Program.only_bind (handleFrame_only permits encoded _)
          exact fun outcome => sendAck_only (fun _ => trivial) _ outcome
  · exact Program.only_pure _

theorem subscribed_asks {call : Call} (request : call.request = .subscribed key) :
    (syncSubscribed y call.channel key).Only (Asks call) := by
  apply subscribed_only
  · trivial
  · exact fun _ => trivial
  · exact ⟨key, request, by simp [registrations]⟩
  · exact fun whispers => ⟨key, request, by simp [registrations, whispers]⟩

theorem program_asks (call : Call) : (call.program y).Only (Asks call) := by
  unfold Call.program
  split
  · rename_i key request
    exact subscribed_asks request
  · rename_i data key request
    exact receive_asks request

section
variable {server : Server}

theorem reached_asks (reached : Reached y stored server) {call : Call}
    (began : (c, .began call) ∈ server.world) {action : Action} {reply : Except String (Reply action)}
    (did : (c, .did action reply) ∈ server.world) : Asks call action :=
  reached_only program_asks reached began did

theorem registers_own (reached : Reached y stored server) (subscribes : Subscribes server.world c key)
    {stream : String} {whisper : Bool} (registers : Registers server.world c stream whisper) :
    ∃ call : Call, (c, .began call) ∈ server.world ∧ call.request = .subscribed key ∧
      (stream, whisper) ∈ registrations call.channel.respondsToWhispersTo key := by
  obtain ⟨call, began, request⟩ := subscribes
  obtain ⟨reply, did⟩ := registers
  obtain ⟨key', request', own⟩ := reached_asks reached began did
  obtain rfl := Request.subscribed.inj (request.symm.trans request')
  exact ⟨call, began, request, own⟩

end

theorem awareness_eq_document {key' : String}
    (same : syncAwarenessStreamName key = syncStreamName key') : key' = key ++ ":awareness" := by
  apply (syncStreamName_injective _).symm
  rw [← same, syncAwarenessStreamName, syncStreamName, syncStreamName, String.append_assoc]

theorem syncAwarenessStreamName_injective {key' : String}
    (same : syncAwarenessStreamName key = syncAwarenessStreamName key') : key = key' := by
  have chars := congrArg String.toList same
  simp only [syncAwarenessStreamName, String.toList_append] at chars
  exact syncStreamName_injective (String.toList_injective (List.append_cancel_right chars))

theorem mem_registrations {whispers whisper : Bool} {stream : String}
    (mem : (stream, whisper) ∈ registrations whispers key) :
    stream = syncStreamName key ∧ whisper = false ∨
      stream = syncAwarenessStreamName key ∧ whisper = true ∧ whispers = true := by
  unfold registrations at mem
  split at mem
  · rename_i on
    rcases List.mem_cons.mp mem with document | awareness
    · exact .inl (Prod.mk.inj document)
    · obtain ⟨is, flag⟩ := Prod.mk.inj (List.mem_singleton.mp awareness)
      exact .inr ⟨is, flag, on⟩
  · exact .inl (Prod.mk.inj (List.mem_singleton.mp mem))

/-- Two subscriptions to different keys share a stream only where one key is the
    other with the suffix of the awareness streams. -/
theorem shared_stream {key' stream : String} {w w' whisper whisper' : Bool} (differ : key ≠ key')
    (mine : (stream, whisper) ∈ registrations w key)
    (theirs : (stream, whisper') ∈ registrations w' key') :
    w = true ∧ key' = key ++ ":awareness" ∨ w' = true ∧ key = key' ++ ":awareness" := by
  rcases mem_registrations mine with ⟨rfl, _⟩ | ⟨rfl, _, on⟩ <;>
    rcases mem_registrations theirs with ⟨same, _⟩ | ⟨same, _, on'⟩
  · exact absurd (syncStreamName_injective same) differ
  · exact .inr ⟨on', awareness_eq_document same.symm⟩
  · exact .inl ⟨on, awareness_eq_document same⟩
  · exact absurd (syncAwarenessStreamName_injective same) differ

theorem isolated_reached {server : Server} (reached : Reached y stored server) {key' : String}
    (differ : key ≠ key') {w w' : Bool} (mine : Whispering server.world key w)
    (theirs : Whispering server.world key' w') (one : ¬ (w = true ∧ key' = key ++ ":awareness"))
    (other : ¬ (w' = true ∧ key = key' ++ ":awareness")) : Isolated server.world key key' := by
  have apart : ∀ c c' stream whisper whisper', Subscribes server.world c key →
      Subscribes server.world c' key' → Registers server.world c stream whisper →
      ¬ Registers server.world c' stream whisper' := by
    intro c c' stream whisper whisper' subscribes subscribes' registers registers'
    obtain ⟨call, began, request, own⟩ := registers_own reached subscribes registers
    obtain ⟨call', began', request', own'⟩ := registers_own reached subscribes' registers'
    rcases shared_stream differ own own' with ⟨on, suffixed⟩ | ⟨on, suffixed⟩
    · exact one ⟨mine _ call began request on, suffixed⟩
    · exact other ⟨theirs _ call' began' request' on, suffixed⟩
  constructor
  · intro c subscribes delivered
    cases delivered with
    | @broadcast c' call stream message reply whisper began keyed sent follows =>
      obtain ⟨call', began', request', own⟩ := registers_own reached subscribes follows
      obtain ⟨key'', keyed', document⟩ := reached_asks reached began sent
      obtain rfl := Option.some.inj (keyed.symm.trans keyed')
      have registered : (stream, false) ∈ registrations false key := by simp [registrations, document]
      rcases shared_stream differ registered own with ⟨off, _⟩ | ⟨on, suffixed⟩
      · simp at off
      · exact other ⟨theirs _ call' began' request' on, suffixed⟩
    | whisper publishes enabled follows =>
      exact apart _ _ _ _ _ publishes subscribes enabled follows
  · exact apart
  · intro c subscribes enabled
    obtain ⟨call, began, request, own⟩ := registers_own reached subscribes enabled
    have registered : (syncStreamName key', false) ∈ registrations false key' := by
      simp [registrations]
    rcases shared_stream differ own registered with ⟨on, suffixed⟩ | ⟨off, _⟩
    · exact one ⟨mine _ call began request on, suffixed⟩
    · simp at off

theorem stream_step {name : String} {whisper : Bool} {f : Unit → Handler Unit}
    {tasks : Nat → Option (Handler Unit)} :
    Step (host y stored)
      ⟨h, Function.update tasks c (some (Program.act (Action.streamFrom name whisper) >>= f))⟩
      ⟨h ++ [(c, .did (.streamFrom name whisper) (.ok ()))], Function.update tasks c (some (f ()))⟩ := by
  have served : (host y stored).serve c h (Action.streamFrom name whisper) (.ok ())
      (h ++ [(c, .did (.streamFrom name whisper) (.ok ()))]) := rfl
  have task : Function.update tasks c (some (Program.act (Action.streamFrom name whisper) >>= f)) c =
      some (.perform (Action.streamFrom name whisper) (Program.orRaise f)) := by
    rw [Function.update_self, Program.act_bind]
  have step := Step.act task served
  rwa [Function.update_idem] at step

theorem registers_run {call : Call} (request : call.request = .subscribed key)
    (hooks : syncValidateRequiredHooks call.channel = .ok ())
    {tasks : Nat → Option (Handler Unit)} (absent : tasks c = none) (fresh : ∀ e ∈ h, e.1 ≠ c) :
    ∃ p, Run (host y stored) ⟨h, tasks⟩ ⟨h ++ (c, .began call) ::
        (registrations call.channel.respondsToWhispersTo key).map
          (fun s => (c, .did (.streamFrom s.1 s.2) (.ok ()))), Function.update tasks c (some p)⟩ := by
  have begins : Step (host y stored) ⟨h, tasks⟩ ⟨h ++ [(c, .began call)],
      Function.update tasks c (some (call.program y))⟩ :=
    Step.spawn absent ⟨call, rfl, fresh, rfl⟩
  have valid : syncValidateRequiredHooks { call.channel with syncKey := some key } = .ok () := hooks
  rw [Call.program, request] at begins
  simp only [syncSubscribed, valid, Program.ok_bind] at begins
  have document := (Relation.ReflTransGen.single begins).tail stream_step
  cases whispers : call.channel.respondsToWhispersTo with
  | false =>
    simp only [whispers, Bool.false_eq_true, ↓reduceIte] at document
    exact ⟨_, by simpa [Run, registrations] using document⟩
  | true =>
    simp only [whispers, ↓reduceIte] at document
    have awareness := document.tail stream_step
    exact ⟨_, by simpa [Run, registrations] using awareness⟩

def configured (whispers : Bool) : Instance := ⟨none, true, true, none, whispers⟩

def subscribing (whispers : Bool) (key : String) : Call :=
  ⟨0, configured whispers, .subscribed key⟩

def subscribed (c : Nat) (whispers : Bool) (key : String) : Trace :=
  (c, .began (subscribing whispers key)) ::
    (registrations whispers key).map (fun s => (c, .did (.streamFrom s.1 s.2) (.ok ())))

theorem subscribed_own (c : Nat) (whispers : Bool) (key : String) :
    ∀ e ∈ subscribed c whispers key, e.1 = c := by
  intro e mem
  rcases List.mem_cons.mp mem with rfl | mem
  · rfl
  · obtain ⟨_, _, rfl⟩ := List.mem_map.mp mem
    rfl

theorem both_subscribe (y : Yrs) (stored : String → List Document.Bytes) (w w' : Bool)
    (key key' : String) : ∃ server : Server, Reached y stored server ∧
      server.world = subscribed 0 w key ++ subscribed 1 w' key' := by
  obtain ⟨p, first⟩ : ∃ p, Run (host y stored) (Pool.initial [])
      ⟨subscribed 0 w key, Function.update (fun _ => none) 0 (some p)⟩ :=
    registers_run  rfl rfl rfl (by simp)
  have apart : ∀ e ∈ subscribed 0 w key, e.1 ≠ 1 := by
    intro e mem
    rw [subscribed_own 0 w key e mem]
    decide
  have absent : Function.update (fun _ => none) 0 (some p) 1 = none := rfl
  obtain ⟨_, second⟩ : ∃ p', Run (host y stored) ⟨_, _⟩ ⟨subscribed 0 w key ++ subscribed 1 w' key',
      Function.update _ 1 (some p')⟩ :=
    registers_run  rfl rfl absent apart
  exact ⟨_, first.trans second, rfl⟩

theorem subscribed_whispering {w w' : Bool} {key' : String} (differ : key ≠ key') :
    Whispering (subscribed 0 w key ++ subscribed 1 w' key') key w ∧
      Whispering (subscribed 0 w key ++ subscribed 1 w' key') key' w' := by
  have calls : ∀ c call, (c, Event.began call) ∈ subscribed 0 w key ++ subscribed 1 w' key' →
      call = subscribing w key ∨ call = subscribing w' key' := by
    intro c call mem
    simp only [subscribed, List.mem_append, List.mem_cons, List.mem_map, Prod.mk.injEq,
      reduceCtorEq, and_false, exists_false, or_false] at mem
    exact mem.imp (Event.began.inj ·.2) (Event.began.inj ·.2)
  constructor
  · intro c call mem request on
    rcases calls c call mem with rfl | rfl
    · exact on
    · exact absurd (Request.subscribed.inj request).symm differ
  · intro c call mem request on
    rcases calls c call mem with rfl | rfl
    · exact absurd (Request.subscribed.inj request) differ
    · exact on

theorem suffixed_exposed (y : Yrs) (stored : String → List Document.Bytes) (w : Bool) (key : String) :
    ∃ server : Server, Reached y stored server ∧
      server.world = subscribed 0 true key ++ subscribed 1 w (key ++ ":awareness") ∧
      ¬ Isolated server.world key (key ++ ":awareness") := by
  obtain ⟨server, reached, world⟩ := both_subscribe y stored true w key (key ++ ":awareness")
  refine ⟨server, reached, world, fun isolated => ?_⟩
  have subscribes : Subscribes server.world 0 key :=
    ⟨subscribing true key, by rw [world]; simp [subscribed], rfl⟩
  have same : syncStreamName (key ++ ":awareness") = syncAwarenessStreamName key := by
    rw [syncAwarenessStreamName, syncStreamName, syncStreamName, String.append_assoc]
  refine isolated.silent 0 subscribes ⟨.ok (), ?_⟩
  rw [world, same]
  simp [subscribed, registrations]

theorem suffixed_ne (key : String) : key ≠ key ++ ":awareness" := by
  intro same
  have longer := congrArg String.length same
  rw [String.length_append] at longer
  have : ":awareness".length = 10 := rfl
  omega

/-- Two keys are isolated in every run exactly where neither is the other with the
    suffix of the awareness streams, or the shorter one has no whispers. -/
theorem isolated_iff {key key' : String} (differ : key ≠ key') (w w' : Bool) :
    (∀ server : Server, Reached y stored server → Whispering server.world key w →
      Whispering server.world key' w' →
      Isolated server.world key key' ∧ Isolated server.world key' key) ↔
      ¬ (w = true ∧ key' = key ++ ":awareness") ∧ ¬ (w' = true ∧ key = key' ++ ":awareness") := by
  constructor
  · intro always
    constructor
    · rintro ⟨rfl, rfl⟩
      obtain ⟨server, reached, world, exposed⟩ := suffixed_exposed y stored w' key
      have subscribed := @subscribed_whispering key true w' (key ++ ":awareness") differ
      obtain ⟨mine, theirs⟩ := subscribed
      exact exposed (always server reached (world ▸ mine) (world ▸ theirs)).1
    · rintro ⟨rfl, rfl⟩
      obtain ⟨server, reached, world, exposed⟩ := suffixed_exposed y stored w key'
      have subscribed := @subscribed_whispering key' true w (key' ++ ":awareness") differ.symm
      obtain ⟨theirs, mine⟩ := subscribed
      exact exposed (always server reached (world ▸ mine) (world ▸ theirs)).2
  · rintro ⟨one, other⟩ server reached mine theirs
    exact ⟨isolated_reached reached differ mine theirs one other,
      isolated_reached reached differ.symm theirs mine other one⟩

theorem plain_keys_isolated : "a" ≠ "b" ∧ ∀ server : Server,
    Reached Reference.crate (fun _ => []) server →
      Isolated server.world "a" "b" ∧ Isolated server.world "b" "a" :=
  ⟨by decide, fun server reached => (isolated_iff (by decide) true true).mpr
    ⟨by decide, by decide⟩ server reached (fun _ _ _ _ _ => rfl) fun _ _ _ _ _ => rfl⟩

/- The awareness stream of one document is the document stream of another. -/
theorem awareness_key_exposed : ¬ ∀ (y : Yrs) (stored : String → List Document.Bytes)
    (key key' : String) (server : Server), key ≠ key' → Reached y stored server →
    Isolated server.world key key' := by
  intro always
  obtain ⟨server, reached, _, exposed⟩ := suffixed_exposed Reference.crate (fun _ => []) true "doc"
  exact exposed (always _ _ "doc" ("doc" ++ ":awareness") server (suffixed_ne "doc") reached)

end Yrby.Isolation
