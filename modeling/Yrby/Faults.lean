import Yrby.Isolation
import Yrby.Resync
import Yrby.Reference.Crate

/- Which messages of a client make sync_receive raise. The hooks, the cable and the
   logger may raise at any time; what counts is a raise none of them made. -/
namespace Yrby.Faults
open Causal Document Wire Yrs Protocol Serving Readiness Effects Channel History Calls Resync

variable (y : Yrs) (stored : String → List Bytes)

/-- An update that is read and acted on: a SyncStep1, a delta, or presence. -/
def Handled (call : Call) : Prop :=
  ∃ encoded bytes, Reads call encoded bytes ∧
    (classifyMessage y bytes = msgKindSyncStep1 ∨ classifyMessage y bytes = msgKindAwareness ∨
      classifyMessage y bytes = msgKindUpdate ∧ ∃ update, mergedDocUpdate y bytes = .ok (some update))

/-- A document that on_load may return for the key, in some run. -/
def Loaded (key : String) (doc : y.Doc) : Prop :=
  ∃ (server : Server) (state : Option Bytes), Reached y stored server ∧
    docOfState y state = .ok doc ∧ y.view doc = durable y stored server.world key

/-- The payload of every document frame that is read decodes as an update, and unless
    there is nothing in it, the crate refuses no block of it where it is tried on a document
    that on_load may return. -/
def PayloadsTaken (call : Call) : Prop :=
  ∀ encoded bytes update, Reads call encoded bytes → IsDocFrame y bytes update →
    ∃ u, y.decodeV1 update = .ok u ∧ (¬ (y.content u).IsEmpty →
      ∀ key doc, call.key = some key → Loaded y stored key doc → Triable y doc u)

def Outside : Action → Prop
  | .onLoad _ | .onChange _ _ | .broadcast _ _ | .transmit _ => True
  | .streamFrom _ _ | .logDrop _ _ _ => False

def Drop : Action → Prop
  | .logDrop _ _ _ => True
  | _ => False

def LoggerReturns (h : Trace) (c : Nat) : Prop :=
  ∀ level reason id e, (c, Event.did (.logDrop level reason id) (.error e)) ∉ h

/-- A call handles its message or drops it, and raises only what was raised at it. -/
structure Upright (server : Server) (c : Nat) (call : Call) : Prop where
  raises : ∀ e, server.tasks c = some (.raise e) →
    ∃ action, Outside action ∧ (c, .did action (.error e)) ∈ server.world
  drops : ¬ Handled y call → ∀ action reply, (c, .did action reply) ∈ server.world → Drop action

/- on_load returns a state that reads as a document of its key. -/
def Answers : ∀ action, Reply action → Prop
  | .onLoad key, state => ∃ doc, docOfState y state = .ok doc ∧ Loaded y stored key doc
  | .onChange _ _, _ | .broadcast _ _, _ | .transmit _, _ | .streamFrom _ _, _ | .logDrop _ _ _, _ =>
    True

variable {y} {stored} {h h' : Trace} {c : Nat} {key : String}

theorem load_relays (key : String) :
    (syncLoadDoc y key).Relays (Answers y stored) (Loaded y stored key) := by
  apply Program.relays_bind _ (Program.relays_act _)
  rintro state ⟨doc, read, loaded⟩
  rw [read]
  exact Program.relays_ok loaded

theorem transmit_relays (bytes : Bytes) :
    (syncTransmit bytes).Relays (Answers y stored) fun _ => True := Program.relays_act _

theorem distribute_relays (key encoded : String) :
    (syncDistribute key encoded).Relays (Answers y stored) fun _ => True := Program.relays_act _

theorem update_relays (rules : y.Rules) (encoded : String) {update : Bytes} {u : y.Update}
    (decoded : y.decodeV1 update = .ok u)
    (triable : ∀ doc, Loaded y stored key doc → Triable y doc u) :
    (syncHandleUpdate y key encoded update).Relays (Answers y stored) fun _ => True := by
  apply Program.relays_bind _ (load_relays key)
  intro doc loaded
  have triable := triable doc loaded
  obtain ⟨ready, ok, exact⟩ := updateIsReady_eq rules decoded triable.ready
  rw [ok, Program.ok_bind]
  cases ready with
  | false =>
    apply Program.relays_bind _ (transmit_relays _)
    exact fun _ _ => Program.relays_pure trivial
  | true =>
    obtain ⟨advances, judged, _⟩ := updateAdvancesDoc_eq rules decoded (exact.mp rfl) triable
    simp only [judged, Bool.not_true, Bool.false_eq_true, ↓reduceIte, Program.ok_bind]
    cases advances with
    | false =>
      apply Program.relays_bind _ (distribute_relays key encoded)
      exact fun _ _ => Program.relays_pure trivial
    | true =>
      apply Program.relays_bind _ (Program.relays_act (Action.onChange key update))
      intro _ _
      apply Program.relays_bind _ (distribute_relays key encoded)
      exact fun _ _ => Program.relays_pure trivial

theorem frame_relays (rules : y.Rules) {self : Instance} (hooks : syncValidateRequiredHooks self = .ok ())
    (keyed : syncValidateKey self = .ok key) (encoded : String) {bytes : Bytes}
    (taken : ∀ update, IsDocFrame y bytes update → ∃ u, y.decodeV1 update = .ok u ∧
      (¬ (y.content u).IsEmpty → ∀ doc, Loaded y stored key doc → Triable y doc u)) :
    (syncHandleFrame y self encoded bytes).Relays (Answers y stored) fun _ => True := by
  simp only [syncHandleFrame, hooks, keyed, Program.ok_bind]
  split
  · rename_i kind
    obtain ⟨sv, asked⟩ := classifyMessage_syncStep1 kind
    apply Program.relays_bind _ (load_relays key)
    intro doc _
    obtain ⟨served, _, integrated, _, _⟩ := integratedUpdate_spec rules doc sv
    simp only [handleSyncMessage, asked, integrated, Except.map, Program.ok_bind]
    apply Program.relays_bind _ (transmit_relays _)
    exact fun _ _ => Program.relays_pure trivial
  · split
    · rename_i kind
      obtain ⟨update, frame⟩ := classifyMessage_update kind
      obtain ⟨u, decoded, triable⟩ := taken update frame
      by_cases empty : (y.content u).IsEmpty
      · rw [mergedDocUpdate_nothing rules frame decoded empty, Program.ok_bind]
        exact Program.relays_pure trivial
      · rcases mergedDocUpdate_decoded rules frame decoded with merged | ⟨_, nothing⟩
        · rw [merged, Program.ok_bind]
          exact update_relays rules encoded decoded (triable empty)
        · exact absurd nothing empty
    · split
      · apply Program.relays_bind _ (distribute_relays key encoded)
        exact fun _ _ => Program.relays_pure trivial
      · exact Program.relays_pure trivial

theorem ack_relays (id : Value) (outcome : Outcome) :
    (syncSendAck id outcome).Relays (Answers y stored) fun _ => True := by
  unfold syncSendAck
  split
  · exact Program.relays_pure trivial
  · split
    · exact Program.relays_act _
    · exact Program.relays_pure trivial

structure Received (call : Call) : Prop where
  request : ∃ data key, call.request = .receive data key
  hooks : syncValidateRequiredHooks call.channel = .ok ()
  named : ∃ key, call.key = some key ∧ key ≠ ""

theorem Received.valid {call : Call} (received : Received call) :
    ∃ key, call.key = some key ∧ syncValidateKey (keyed call) = .ok key := by
  obtain ⟨key, named, filled⟩ := received.named
  have full : key.isEmpty = false := by simpa [String.isEmpty_iff] using filled
  exact ⟨key, named, by simp [syncValidateKey, keyed, named, full]⟩

theorem program_relays (rules : y.Rules) {call : Call} (received : Received call)
    (taken : PayloadsTaken y stored call) :
    (call.program y).Relays (Answers y stored) fun _ => True := by
  obtain ⟨data, named, request⟩ := received.request
  obtain ⟨key, own, valid⟩ := received.valid
  have hooks : syncValidateRequiredHooks (keyed call) = .ok () := received.hooks
  by_cases reads : ∃ encoded bytes, Reads call encoded bytes
  · obtain ⟨encoded, bytes, reads⟩ := reads
    have payloads : ∀ update, IsDocFrame y bytes update → ∃ u, y.decodeV1 update = .ok u ∧
        (¬ (y.content u).IsEmpty → ∀ doc, Loaded y stored key doc → Triable y doc u) := by
      intro update frame
      obtain ⟨u, decoded, triable⟩ := taken encoded bytes update reads frame
      exact ⟨u, decoded, fun something doc => triable something key doc own⟩
    rw [program_reads reads]
    apply Program.relays_bind _ (frame_relays rules hooks valid encoded payloads)
    exact fun outcome _ => ack_relays _ outcome
  · have none : ∀ encoded bytes, ¬ Reads call encoded bytes := fun encoded bytes some =>
      reads ⟨encoded, bytes, some⟩
    rcases program_drops request none with done | ⟨_, _, _, logged⟩
    · rw [done]
      exact Program.relays_pure trivial
    · rw [logged]
      exact Program.relays_act _

theorem frame_unhandled {self : Instance} {encoded : String} {bytes : Bytes}
    (one : classifyMessage y bytes ≠ msgKindSyncStep1) (three : classifyMessage y bytes ≠ msgKindAwareness)
    (two : classifyMessage y bytes = msgKindUpdate →
      ∀ update, mergedDocUpdate y bytes ≠ .ok (some update)) :
    syncHandleFrame y self encoded bytes = pure .noop ∨
      ∃ e, syncHandleFrame y self encoded bytes = .raise e := by
  unfold syncHandleFrame
  cases syncValidateRequiredHooks self with
  | error e => exact .inr ⟨e, rfl⟩
  | ok _ =>
    cases syncValidateKey self with
    | error e => exact .inr ⟨e, rfl⟩
    | ok key =>
      simp only [Program.ok_bind, if_neg one, if_neg three]
      split
      · rename_i kind
        cases merged : mergedDocUpdate y bytes with
        | error e => exact .inr ⟨e, rfl⟩
        | ok delta =>
          cases delta with
          | none => exact .inl rfl
          | some update => exact absurd merged (two kind update)
      · exact .inl rfl

/-- What a received message may come to do: what it is not handled for, it only logs. -/
def May (y : Yrs) (call : Call) (action : Action) : Prop :=
  (∃ data key, call.request = .receive data key) → ¬ Handled y call → Drop action

theorem program_may (call : Call) : (call.program y).Only (May y call) := by
  by_cases dropped : (∃ data key, call.request = .receive data key) ∧ ¬ Handled y call
  · obtain ⟨⟨data, named, request⟩, unhandled⟩ := dropped
    by_cases reads : ∃ encoded bytes, Reads call encoded bytes
    · obtain ⟨encoded, bytes, reads⟩ := reads
      have left : ∀ kind, (classifyMessage y bytes = msgKindSyncStep1 ∨
          classifyMessage y bytes = msgKindAwareness ∨ classifyMessage y bytes = msgKindUpdate ∧
            ∃ update, mergedDocUpdate y bytes = .ok (some update)) → kind :=
        fun _ kind => absurd ⟨encoded, bytes, reads, kind⟩ unhandled
      rw [program_reads reads]
      rcases frame_unhandled
          (fun kind => left _ (.inl kind)) (fun kind => left _ (.inr (.inl kind)))
          (fun kind update merged => left _ (.inr (.inr ⟨kind, update, merged⟩))) with noop | ⟨e, raised⟩
      · rw [noop]
        change (syncSendAck call.id .noop).Only _
        simp only [syncSendAck, reduceCtorEq, or_self, ↓reduceIte, ite_self]
        exact Program.only_pure _
      · rw [raised]
        trivial
    · have none : ∀ encoded bytes, ¬ Reads call encoded bytes := fun encoded bytes some =>
        reads ⟨encoded, bytes, some⟩
      rcases program_drops request none with done | ⟨_, _, _, logged⟩
      · rw [done]
        exact Program.only_pure _
      · rw [logged]
        exact Program.only_act fun _ _ => trivial
  · exact Program.only_of_all (fun action request unhandled => absurd ⟨request, unhandled⟩ dropped) _

/- While its payloads are taken, a call never raises of itself. -/
def Sure (y : Yrs) (stored : String → List Bytes) (c : Nat) (h : Trace) (p : Handler Unit) : Prop :=
  ∃ call : Call, (c, .began call) ∈ h ∧ (Received call → PayloadsTaken y stored call →
    p.Relays (Answers y stored) (fun _ => True) ∨
      ∃ e action, p = .raise e ∧ (c, .did action (.error e)) ∈ h)

theorem Sure.later {p : Handler Unit} (sure : Sure y stored c h p) (grows : ∀ e ∈ h, e ∈ h') :
    Sure y stored c h' p := by
  obtain ⟨call, began, holds⟩ := sure
  refine ⟨call, grows _ began, fun received taken => ?_⟩
  rcases holds received taken with relays | ⟨e, action, raised, did⟩
  · exact .inl relays
  · exact .inr ⟨e, action, raised, grows _ did⟩

theorem serves_answers {server : Server} (reached : Reached y stored server) {action : Action}
    {reply : Reply action} (served : Serves y stored c server.world action (.ok reply) h') :
    Answers y stored action reply := by
  cases action with
  | onLoad key =>
    obtain ⟨_, doc, read, view⟩ := serves_load served
    exact ⟨doc, read, server, reply, reached, read, view⟩
  | _ => trivial

theorem Sure.act {server : Server} (reached : Reached y stored server) {action : Action}
    {next : Except String (Reply action) → Handler Unit} {reply : Except String (Reply action)}
    (sure : Sure y stored c server.world (.perform action next))
    (served : Serves y stored c server.world action reply h') : Sure y stored c h' (next reply) := by
  have grows := serves_grows served
  obtain ⟨call, began, holds⟩ := sure
  refine ⟨call, grows _ began, fun received taken => ?_⟩
  rcases holds received taken with relays | ⟨e, action', raised, _⟩
  · cases reply with
    | ok reply => exact .inl (relays.2 reply (serves_answers reached served))
    | error e =>
      refine .inr ⟨e, action, relays.1 e, ?_⟩
      rcases serves_cases served with rfl | ⟨_, _, _, rfl⟩ <;> simp
  · exact absurd raised (by simp)

theorem reached_sure (rules : y.Rules) {server : Server} (reached : Reached y stored server) :
    ∀ c p, server.tasks c = some p → Sure y stored c server.world p := by
  refine Run.every (F := Sure y stored) ?_ ?_ ?_ ?_ reached
  · exact fun _ _ _ _ _ _ _ served sure => sure.later (serves_grows served)
  · exact fun _ _ _ _ _ _ started sure => sure.later (starts_grows started)
  · rintro c h p h' ⟨call, rfl, _, rfl⟩
    exact ⟨call, by simp, fun received taken => .inl (program_relays rules received taken)⟩
  · exact fun _ _ _ _ _ _ onward served sure => sure.act onward served

theorem reached_upright (rules : y.Rules) {server : Server} (reached : Reached y stored server)
    (returns : LoggerReturns server.world c) {call : Call} (began : (c, .began call) ∈ server.world)
    (received : Received call) (taken : PayloadsTaken y stored call) : Upright y server c call := by
  constructor
  · intro e task
    obtain ⟨call', began', holds⟩ := reached_sure rules reached c _ task
    obtain rfl := reached_single reached began began'
    rcases holds received taken with relays | ⟨e', action, same, did⟩
    · exact relays.elim
    · obtain rfl := Program.raise.inj same
      refine ⟨action, ?_, did⟩
      have asks := Isolation.reached_asks reached began did
      obtain ⟨data, named, request⟩ := received.request
      cases action with
      | streamFrom stream whisper =>
        obtain ⟨key, subscribed, _⟩ := asks
        exact absurd (subscribed.symm.trans request) (by simp)
      | logDrop level reason id => exact absurd did (returns level reason id e)
      | _ => trivial
  · intro unhandled action reply did
    exact reached_only program_may reached began did received.request unhandled

theorem program_raises (rules : y.Rules) {call : Call} (received : Received call) {encoded : String}
    {bytes update : Bytes} (reads : Reads call encoded bytes) (frame : IsDocFrame y bytes update)
    {e : String} (undecodable : y.decodeV1 update = .error e) : call.program y = .raise e := by
  obtain ⟨key, _, valid⟩ := received.valid
  have hooks : syncValidateRequiredHooks (keyed call) = .ok () := received.hooks
  rw [program_reads reads, syncHandleFrame_docFrame hooks valid frame,
    mergedDocUpdate_undecodable rules frame undecodable]
  rfl

theorem update_raises (rules : y.Rules) {doc : y.Doc} {u : y.Update} {update : Bytes}
    (decoded : y.decodeV1 update = .ok u) (untriable : ¬ Triable y doc u) {state : Option Bytes}
    (read : docOfState y state = .ok doc) (key encoded : String) (f : Outcome → Handler Unit) :
    ∃ next e, (syncHandleUpdate y key encoded update >>= f) = .perform (.onLoad key) next ∧
      next (.ok state) = .raise e := by
  rcases untriable_raises rules decoded untriable with ⟨e, raised⟩ | ⟨ready, e, raised⟩
  · refine ⟨_, e, rfl, ?_⟩
    simp only [Program.bind, read, raised, Program.ofExcept]
    rfl
  · refine ⟨_, e, rfl, ?_⟩
    simp only [Program.bind, read, ready, raised, Program.ofExcept]
    rfl

theorem reached_loads {server : Server} (reached : Reached y stored server) {call : Call}
    {next : Except String (Option Bytes) → Handler Unit}
    (program : call.program y = .perform (.onLoad key) next) {state : Option Bytes} {doc : y.Doc}
    (read : docOfState y state = .ok doc) (view : y.view doc = durable y stored server.world key) :
    ∃ (later : Server) (c : Nat), Reached y stored later ∧ (c, .began call) ∈ later.world ∧
      later.tasks c = some (next (.ok state)) ∧
      ∀ action reply, (c, .did action reply) ∈ later.world → ∃ answer, reply = .ok answer := by
  obtain ⟨c, idle, labels⟩ := reached_below reached
  have fresh : ∀ e ∈ server.world, e.1 ≠ c := fun e mem => (labels e mem).ne
  have begun : Step (host y stored) server ⟨server.world ++ [(c, .began call)],
      Function.update server.tasks c (some (call.program y))⟩ :=
    Step.spawn (idle c (Nat.le_refl c)) ⟨call, rfl, fresh, rfl⟩
  have same : durable y stored (server.world ++ [(c, .began call)]) key =
      durable y stored server.world key := durable_quiet rfl
  have task : Function.update server.tasks c (some (call.program y)) c =
      some (.perform (.onLoad key) next) := by simp [program]
  have served : Serves y stored c (server.world ++ [(c, .began call)]) (.onLoad key) (.ok state)
      (server.world ++ [(c, .began call)] ++ [(c, .did (.onLoad key) (.ok state))]) :=
    ⟨rfl, doc, read, view.trans same.symm⟩
  have answered : Step (host y stored) ⟨server.world ++ [(c, .began call)],
      Function.update server.tasks c (some (call.program y))⟩
      ⟨server.world ++ [(c, .began call)] ++ [(c, .did (.onLoad key) (.ok state))],
        Function.update (Function.update server.tasks c (some (call.program y))) c
          (some (next (.ok state)))⟩ :=
    Step.act task served
  refine ⟨_, c, (reached.tail begun).tail answered, by simp, Function.update_self .., ?_⟩
  intro action reply did
  rcases List.mem_append.mp did with before | last
  · rcases List.mem_append.mp before with old | began
    · exact absurd rfl (fresh _ old)
    · simp at began
  · obtain ⟨rfl, same⟩ := Event.did.inj (Prod.mk.inj (List.mem_singleton.mp last)).2
    exact ⟨state, eq_of_heq same⟩

/-- A received message raises only what was raised at it, and leaves everything alone
    where it is dropped, exactly if the payloads it carries decode and are taken. -/
theorem raises_only_outside_iff (rules : y.Rules) {call : Call} (received : Received call) :
    (∀ (server : Server) (c : Nat), Reached y stored server → LoggerReturns server.world c →
      (c, .began call) ∈ server.world → Upright y server c call) ↔ PayloadsTaken y stored call := by
  constructor
  · intro always encoded bytes update reads frame
    cases decoded : y.decodeV1 update with
    | error e =>
      have begins : Reached y stored ⟨[(0, .began call)],
          Function.update (fun _ => none) 0 (some (call.program y))⟩ :=
        Relation.ReflTransGen.single (Step.spawn rfl ⟨call, rfl, by simp, rfl⟩)
      have upright := always _ 0 begins (by intro; simp) (by simp)
      obtain ⟨action, _, did⟩ := upright.raises e
        (congrArg some (program_raises rules received reads frame decoded))
      simp at did
    | ok u =>
      refine ⟨u, rfl, fun something key doc own loaded => ?_⟩
      by_contra untriable
      obtain ⟨server, state, reached, read, view⟩ := loaded
      obtain ⟨next, e, handles, raises⟩ :=
        update_raises rules decoded untriable read key encoded (syncSendAck call.id)
      have program : call.program y = .perform (.onLoad key) next := by
        obtain ⟨key', own', valid⟩ := received.valid
        obtain rfl := Option.some.inj (own.symm.trans own')
        have merged : mergedDocUpdate y bytes = .ok (some update) :=
          (mergedDocUpdate_decoded rules frame decoded).resolve_right fun none => something none.2
        have hooks : syncValidateRequiredHooks (keyed call) = .ok () := received.hooks
        rw [program_reads reads, syncHandleFrame_docFrame hooks valid frame, merged, ← handles]
        rfl
      obtain ⟨later, c, onward, began, task, answered⟩ := reached_loads reached program read view
      have upright := always later c onward (by
        intro level reason id e failed
        obtain ⟨_, eq⟩ := answered _ _ failed
        cases eq) began
      obtain ⟨action, _, did⟩ := upright.raises e (task.trans (congrArg some raises))
      obtain ⟨_, eq⟩ := answered _ _ did
      cases eq
  · exact fun taken server c reached returns began =>
      reached_upright rules reached returns began received taken

section
open Reference

def editing (frame : Bytes) : Call :=
  ⟨0, ⟨some "doc", true, true, none, false⟩,
    .receive (.obj [("update", .str (Base64.strictEncode64 frame)), ("id", .int 1)]) none⟩

theorem editing_received (frame : Bytes) : Received (editing frame) where
  request := ⟨_, _, rfl⟩
  hooks := rfl
  named := ⟨"doc", rfl, by decide⟩

theorem editing_carries {frame bytes : Bytes} {encoded : String}
    (carries : (editing frame).Carries encoded bytes) : bytes = frame := by
  obtain ⟨data, key, request, carried, decoded⟩ := carries
  obtain ⟨rfl, _⟩ := Request.receive.inj request
  obtain rfl : Base64.strictEncode64 frame = encoded := by simpa [Value.fetch] using carried
  rw [Base64.strictDecode64_encode] at decoded
  exact (Option.some.inj decoded).symm

def letter : Call := editing (syncFrame 2 (encodeDelta ⟨[typed 1 0 none], []⟩))

theorem letter_upright : Received letter ∧ ∀ (server : Server) (c : Nat),
    Reached crate (fun _ => []) server → LoggerReturns server.world c →
      (c, .began letter) ∈ server.world → Upright crate server c letter := by
  refine ⟨editing_received _, (raises_only_outside_iff crate_laws.toRules (editing_received _)).mpr ?_⟩
  intro encoded bytes update reads frame
  obtain rfl := editing_carries reads.carries
  obtain rfl := docFrame_unique (docFrame_update crate_laws _) frame
  exact ⟨_, decode_encodeDelta ⟨[typed 1 0 none], []⟩, fun _ _ _ _ _ => triable crate_laws _ _⟩

theorem undecodable_payload_raises : ¬ ∀ (y : Yrs) (stored : String → List Bytes) (call : Call)
    (server : Server) (c : Nat), y.Laws → Received call → Reached y stored server →
    LoggerReturns server.world c → (c, .began call) ∈ server.world → Upright y server c call := by
  intro always
  have raises : (editing (syncFrame 2 [9])).program crate = .raise "failed to decode update" :=
    program_raises crate_laws.toRules (editing_received _)
      ⟨⟨_, _, rfl, rfl, Base64.strictDecode64_encode _⟩, rfl, rfl⟩ (docFrame_update crate_laws [9]) rfl
  have begins : Reached crate (fun _ => []) ⟨[(0, .began (editing (syncFrame 2 [9])))],
      Function.update (fun _ => none) 0 (some ((editing (syncFrame 2 [9])).program crate))⟩ :=
    Relation.ReflTransGen.single (Step.spawn rfl ⟨_, rfl, by simp, rfl⟩)
  have upright := always crate _ _ _ 0 crate_laws
    (editing_received (syncFrame 2 [9])) begins (by intro; simp) (by simp)
  obtain ⟨action, _, did⟩ := upright.raises _ (congrArg some raises)
  simp at did

end

end Yrby.Faults
