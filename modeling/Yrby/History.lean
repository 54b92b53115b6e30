import Yrby.Channel
import Yrby.Effects.Pool
import Yrby.Serving

/- What any number of channel calls did, in the order it happened, over the
   durable log of each key. Calls run in any processes and interleave freely. -/
namespace Yrby.History
open Causal Document Wire Yrs Protocol Serving Channel Effects

inductive Request where
  | subscribed (key : String)
  | receive (data : Value) (key : Option String)

structure Call where
  connection : Nat
  channel : Instance
  request : Request

namespace Call

def program (y : Yrs) (call : Call) : Handler Unit :=
  match call.request with
  | .subscribed key => syncSubscribed y call.channel key
  | .receive data key => syncReceive y call.channel data key

def key (call : Call) : Option String :=
  match call.request with
  | .subscribed key => some key
  | .receive _ key => key.or call.channel.syncKey

def id (call : Call) : Value :=
  match call.request with
  | .subscribed _ => .null
  | .receive data _ => data.fetch "id"

/-- The call received a message whose update is encoded, base64 for bytes. -/
def Carries (call : Call) (encoded : String) (bytes : Bytes) : Prop :=
  ∃ data key, call.request = .receive data key ∧ data.fetch "update" = .str encoded ∧
    Base64.strictDecode64 encoded = some bytes

end Call

inductive Event where
  | began (call : Call)
  | did (action : Action) (reply : Except String (Reply action))
  | recorded (key : String) (update : Bytes)

abbrev Trace := List (Nat × Event)

variable (y : Yrs) (stored : String → List Bytes)

def recordedUnder (key : String) (e : Nat × Event) : Option Bytes :=
  match e.2 with
  | .recorded k update => if k = key then some update else none
  | _ => none

/-- The durable log of a key, on top of what was stored before. -/
def logOf (h : Trace) (key : String) : List Bytes :=
  stored key ++ h.filterMap (recordedUnder key)

def replay (log : List Bytes) : y.Doc :=
  log.foldl (fun doc update => (docApplyUpdate y doc update).1) y.newDoc

def durable (h : Trace) (key : String) : DocState := y.view (replay y (logOf stored h key))

/-- on_load returns a state that reads as the replay of the log; an on_change that
    returns has appended, one that raises may have. Anything may raise. -/
def Serves (c : Nat) (h : Trace) (action : Action) (reply : Except String (Reply action))
    (h' : Trace) : Prop :=
  match action, reply with
  | .onLoad key, .ok state =>
    h' = h ++ [(c, .did (.onLoad key) (.ok state))] ∧
      ∃ doc, docOfState y state = .ok doc ∧ y.view doc = durable y stored h key
  | .onChange key update, .ok reply =>
    h' = h ++ [(c, .did (.onChange key update) (.ok reply)), (c, .recorded key update)]
  | .onChange key update, .error e =>
    h' = h ++ [(c, .did (.onChange key update) (.error e))] ∨
      h' = h ++ [(c, .did (.onChange key update) (.error e)), (c, .recorded key update)]
  | action, reply => h' = h ++ [(c, .did action reply)]

/-- A call begins under a label no call had before. -/
def Starts (c : Nat) (h : Trace) (p : Handler Unit) (h' : Trace) : Prop :=
  ∃ call : Call, p = call.program y ∧ (∀ e ∈ h, e.1 ≠ c) ∧ h' = h ++ [(c, .began call)]

def host : Host Action Reply String Unit Nat Trace where
  serve := Serves y stored
  start := Starts y

abbrev Server := Pool Action Reply String Unit Nat Trace

def Reached (server : Server) : Prop := Run (host y stored) (Pool.initial []) server

variable {y stored}

theorem serves_cases {c : Nat} {h h' : Trace} {action : Action}
    {reply : Except String (Reply action)} (served : Serves y stored c h action reply h') :
    h' = h ++ [(c, .did action reply)] ∨
      ∃ key update, action = .onChange key update ∧
        h' = h ++ [(c, .did action reply), (c, .recorded key update)] := by
  unfold Serves at served
  split at served
  · exact Or.inl served.1
  · exact Or.inr ⟨_, _, rfl, served⟩
  · rcases served with only | both
    · exact Or.inl only
    · exact Or.inr ⟨_, _, rfl, both⟩
  · exact Or.inl served

theorem serves_load {c : Nat} {h h' : Trace} {key : String} {state : Option Bytes}
    (served : Serves y stored c h (.onLoad key) (.ok state) h') :
    h' = h ++ [(c, .did (.onLoad key) (.ok state))] ∧
      ∃ doc, docOfState y state = .ok doc ∧ y.view doc = durable y stored h key := served

theorem serves_change {c : Nat} {h h' : Trace} {key : String} {update : Bytes} {reply : Unit}
    (served : Serves y stored c h (.onChange key update) (.ok reply) h') :
    h' = h ++ [(c, .did (.onChange key update) (.ok reply)), (c, .recorded key update)] := served

theorem logOf_append (h ext : Trace) (key : String) :
    logOf stored (h ++ ext) key = logOf stored h key ++ ext.filterMap (recordedUnder key) := by
  rw [logOf, logOf, List.filterMap_append, List.append_assoc]

theorem durable_quiet {h ext : Trace} {key : String} (quiet : ext.filterMap (recordedUnder key) = []) :
    durable y stored (h ++ ext) key = durable y stored h key := by
  rw [durable, durable, logOf_append, quiet, List.append_nil]

theorem replay_append (log : List Bytes) (update : Bytes) :
    replay y (log ++ [update]) = (docApplyUpdate y (replay y log) update).1 := by
  rw [replay, List.foldl_append]
  rfl

theorem applied_grows (laws : y.Laws) (doc : y.Doc) (update : Bytes) :
    (y.view doc).ids ⊆ (y.view (docApplyUpdate y doc update).1).ids ∧
      (y.view doc).deletes ⊆ (y.view (docApplyUpdate y doc update).1).deletes := by
  cases decoded : y.decodeV1 update with
  | error e =>
    rw [docApplyUpdate, decoded]
    exact ⟨subset_rfl, subset_rfl⟩
  | ok u =>
    rw [docApplyUpdate, decoded]
    have step := laws.integrates doc u
    exact ⟨step.ids_grow, step.deletes_grow⟩

theorem replay_grows (laws : y.Laws) (log more : List Bytes) :
    (y.view (replay y log)).ids ⊆ (y.view (replay y (log ++ more))).ids ∧
      (y.view (replay y log)).deletes ⊆ (y.view (replay y (log ++ more))).deletes := by
  induction more generalizing log with
  | nil => simp
  | cons update more ih =>
    have step := applied_grows laws (replay y log) update
    have rest := ih (log ++ [update])
    rw [replay_append, List.append_assoc, List.singleton_append] at rest
    exact ⟨step.1.trans rest.1, step.2.trans rest.2⟩

theorem durable_grows (laws : y.Laws) (stored : String → List Bytes) (h ext : Trace)
    (key : String) :
    (durable y stored h key).ids ⊆ (durable y stored (h ++ ext) key).ids ∧
      (durable y stored h key).deletes ⊆ (durable y stored (h ++ ext) key).deletes := by
  rw [durable, durable, logOf_append]
  exact replay_grows laws _ _

theorem replay_content (laws : y.Laws) (log : List Bytes) {update : Bytes} {content : Content}
    (carried : y.contentOf update = some content) :
    Integrates (y.view (replay y log)) content (y.view (replay y (log ++ [update]))) := by
  obtain ⟨u, decoded, rfl⟩ := contentOf_some carried
  rw [replay_append, docApplyUpdate, decoded]
  exact laws.integrates _ _

/-- The content of an update is in the durable log, integrated. -/
def Durable (y : Yrs) (stored : String → List Bytes) (h : Trace) (key : String)
    (update : Bytes) : Prop :=
  ∃ content, y.contentOf update = some content ∧ (durable y stored h key).Contains content

theorem Durable.later (laws : y.Laws) {h : Trace} {key : String} {update : Bytes}
    (held : Durable y stored h key update) (ext : Trace) :
    Durable y stored (h ++ ext) key update := by
  obtain ⟨content, carried, contains⟩ := held
  have grown := durable_grows laws stored h ext key
  exact ⟨content, carried, contains_mono grown.1 grown.2 contains⟩

/- The store of the demo: nil for a fresh document, else the whole replay encoded. -/
def loadState (y : Yrs) (log : List Bytes) : Option Bytes :=
  if log.isEmpty then none else some (y.encodeStateAsUpdateV1 (replay y log) .default)

/-- Encoding a replay is one way for on_load to return the replay of the log. -/
theorem loadState_view (laws : y.Laws) (log : List Bytes) :
    ∃ doc, docOfState y (loadState y log) = .ok doc ∧ y.view doc = y.view (replay y log) := by
  unfold loadState
  split
  · rename_i empty
    rw [List.isEmpty_iff.mp empty]
    exact ⟨y.newDoc, rfl, rfl⟩
  · obtain ⟨u, decoded, _⟩ := laws.encode_decodes (replay y log) .default
    refine ⟨(y.applyUpdate y.newDoc u).1, ?_, reseeded_view laws.toRules _ decoded⟩
    have takes : (y.applyUpdate y.newDoc u).2 = .ok () := laws.takes y.newDoc u
    simp [docOfState, docApplyUpdate, decoded, takes, Except.map]

def obey (y : Yrs) (stored : String → List Bytes) (c : Nat) (h : Trace) (action : Action) :
    Trace × Except String (Reply action) :=
  match action with
  | .onLoad key =>
    (h ++ [(c, .did (.onLoad key) (.ok (loadState y (logOf stored h key))))],
      .ok (loadState y (logOf stored h key)))
  | .onChange key update =>
    (h ++ [(c, .did (.onChange key update) (.ok ())), (c, .recorded key update)], .ok ())
  | .broadcast stream message => (h ++ [(c, .did (.broadcast stream message) (.ok ()))], .ok ())
  | .transmit message => (h ++ [(c, .did (.transmit message) (.ok ()))], .ok ())
  | .streamFrom stream whisper => (h ++ [(c, .did (.streamFrom stream whisper) (.ok ()))], .ok ())
  | .logDrop level reason id => (h ++ [(c, .did (.logDrop level reason id) (.ok ()))], .ok ())

theorem obey_serves (laws : y.Laws) (c : Nat) (h : Trace) (action : Action) :
    Serves y stored c h action (obey y stored c h action).2 (obey y stored c h action).1 := by
  cases action with
  | onLoad key => exact ⟨rfl, loadState_view laws _⟩
  | _ => rfl

def handled (y : Yrs) (stored : String → List Bytes) (c : Nat) (call : Call) (h : Trace) : Trace :=
  ((call.program y).runWith (obey y stored c) (h ++ [(c, .began call)])).1

/- Calls that run one after another are a run of the server. -/
theorem reached_handled (laws : y.Laws) {server : Server} (reached : Reached y stored server)
    {c : Nat} (call : Call) (absent : server.tasks c = none) (fresh : ∀ e ∈ server.world, e.1 ≠ c) :
    ∃ tasks, Reached y stored ⟨handled y stored c call server.world, tasks⟩ ∧
      ∀ c' ≠ c, tasks c' = server.tasks c' := by
  have spawn : Step (host y stored) server ⟨server.world ++ [(c, .began call)],
      Function.update server.tasks c (some (call.program y))⟩ :=
    Step.spawn absent ⟨call, rfl, fresh, rfl⟩
  have alone := run_alone (host y stored) (obey_serves laws c) (call.program y)
    (server.world ++ [(c, .began call)])
    (Function.update server.tasks c (some (call.program y))) (by simp)
  refine ⟨_, (reached.tail spawn).trans alone, fun c' other => ?_⟩
  rw [Function.update_of_ne other, Function.update_of_ne other]

theorem handled_labels (laws : y.Laws) (c : Nat) (call : Call) (h : Trace) :
    ∀ e ∈ handled y stored c call h, e ∈ h ∨ e.1 = c := by
  have own : ∀ (p : Handler Unit) (t : Trace), (∀ e ∈ t, e ∈ h ∨ e.1 = c) →
      ∀ e ∈ (p.runWith (obey y stored c) t).1, e ∈ h ∨ e.1 = c := by
    intro p
    induction p with
    | done _ => exact fun _ inside => inside
    | raise _ => exact fun _ inside => inside
    | perform action next ih =>
      intro t inside
      apply ih (obey y stored c t action).2
      intro e mem
      rcases serves_cases (obey_serves laws c t action : Serves y stored c t action _ _) with
        only | ⟨key, update, _, both⟩
      · rw [only] at mem
        rcases List.mem_append.mp mem with old | new
        · exact inside e old
        · exact Or.inr (by simp [List.mem_singleton.mp new])
      · rw [both] at mem
        rcases List.mem_append.mp mem with old | new
        · exact inside e old
        · simp only [List.mem_cons, List.not_mem_nil, or_false] at new
          rcases new with rfl | rfl <;> exact Or.inr rfl
  apply own
  intro e mem
  rcases List.mem_append.mp mem with old | new
  · exact Or.inl old
  · obtain rfl := List.mem_singleton.mp new
    exact Or.inr rfl

def inTurn (y : Yrs) (stored : String → List Bytes) : Nat → List Call → Trace → Trace
  | _, [], h => h
  | c, call :: rest, h => inTurn y stored (c + 1) rest (handled y stored c call h)

theorem reached_inTurn (laws : y.Laws) (calls : List Call) {server : Server} {c : Nat}
    (reached : Reached y stored server) (below : ∀ e ∈ server.world, e.1 < c)
    (absent : ∀ c' ≥ c, server.tasks c' = none) :
    ∃ tasks, Reached y stored ⟨inTurn y stored c calls server.world, tasks⟩ := by
  induction calls generalizing server c with
  | nil => exact ⟨server.tasks, reached⟩
  | cons call rest ih =>
    obtain ⟨tasks, onward, same⟩ := reached_handled laws reached call (absent c (Nat.le_refl c))
      fun e mem => (below e mem).ne
    apply ih onward
    · intro e mem
      rcases handled_labels laws c call server.world e mem with old | own
      · exact (below e old).trans (Nat.lt_succ_self c)
      · exact own ▸ Nat.lt_succ_self c
    · intro c' le
      exact (same c' (by omega)).trans (absent c' (by omega))

end Yrby.History
