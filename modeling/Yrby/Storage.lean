import Yrby.Recording
import Yrby.Effects.Refines

/- The channel of the demo over a durable store (document_channel.rb, store.rb): on_load
   replays it, on_change records to it. -/
namespace Yrby.Storage
open Causal Document Yrs Protocol Channel Effects History DurableLog Recording

variable {y : Yrs} {σ : Type}

/-- What both stores expose: a replay, and how recording a change may end, with the store
    after it, what it answers, and whether the change is in the store. -/
structure Store (y : Yrs) (σ : Type) where
  replay : σ → String → Option Bytes
  record : σ → String → Bytes → σ → Except String Unit → Bool → Prop

abbrev World (σ : Type) := Trace × σ

def keyOf (e : Nat × Event) : Option String :=
  match e.2 with
  | .did (.onLoad key) _ => some key
  | .recorded key _ => some key
  | _ => none

section
variable (store : Store y σ)

def Serves (c : Nat) (w : World σ) (action : Action) (reply : Except String (Reply action))
    (w' : World σ) : Prop :=
  match action, reply with
  | .onLoad key, .ok state =>
    state = store.replay w.2 key ∧ w' = (w.1 ++ [(c, .did (.onLoad key) (.ok state))], w.2)
  | .onChange key update, reply => ∃ there, store.record w.2 key update w'.2 reply there ∧
    w'.1 = w.1 ++ (c, .did (.onChange key update) reply) ::
      if there then [(c, .recorded key update)] else []
  | action, reply => w' = (w.1 ++ [(c, .did action reply)], w.2)

def Starts (y : Yrs) (c : Nat) (w : World σ) (p : Handler Unit) (w' : World σ) : Prop :=
  History.Starts y c w.1 p w'.1 ∧ w'.2 = w.2

def host : Host Action Reply String Unit Nat (World σ) where
  serve := Serves store
  start := Starts y

/-- A store keeps the log of each key: what it replays reads as the log, for as long as the
    world fits, and what it records is there when it says so. -/
structure Keeps (stored : String → List Bytes) (holds fits : World σ → Prop) : Prop where
  replayed : ∀ h s c key state, holds (h, s) → fits (h ++ [(c, .did (.onLoad key) state)], s) →
    ∃ doc, docOfState y (store.replay s key) = .ok doc ∧ y.view doc = durable y stored h key
  quiet : ∀ h s e, holds (h, s) → (∀ key, recordedUnder key e = none) → holds (h ++ [e], s)
  recorded : ∀ h s c key update s' reply there, holds (h, s) →
    store.record s key update s' reply there →
      holds (h ++ (c, .did (.onChange key update) reply) ::
        if there then [(c, .recorded key update)] else [], s')
  answered : ∀ s key update s' there, store.record s key update s' (.ok ()) there → there = true
  before : ∀ h s ext, fits (h ++ ext, s) → fits (h, s)
  unrecorded : ∀ h s key update s' reply there, store.record s key update s' reply there →
    fits (h, s') → fits (h, s)

end

variable {store : Store y σ} {stored : String → List Bytes} {holds : World σ → Prop}
  {fits : World σ → Prop}

theorem Keeps.serves_fits (keeps : Keeps store stored holds fits) {c : Nat} {w w' : World σ}
    {action : Action} {reply : Except String (Reply action)} (served : Serves store c w action reply w')
    (fit : fits w') : fits w := by
  cases action with
  | onLoad key =>
    cases reply with
    | error e =>
      obtain rfl : w' = _ := served
      exact keeps.before _ _ _ fit
    | ok state =>
      obtain ⟨_, rfl⟩ := served
      exact keeps.before _ _ _ fit
  | onChange key update =>
    obtain ⟨there, recorded, trace⟩ := served
    have split : w' = (_, w'.2) := Prod.ext trace rfl
    rw [split] at fit
    exact keeps.unrecorded _ _ _ _ _ _ _ recorded (keeps.before _ _ _ fit)
  | _ =>
    obtain rfl : w' = _ := served
    exact keeps.before _ _ _ fit

theorem Keeps.serves (keeps : Keeps store stored holds fits) {c : Nat} {w w' : World σ}
    {action : Action} {reply : Except String (Reply action)} (before : holds w) (fit : fits w')
    (served : Serves store c w action reply w') :
    holds w' ∧ History.Serves y stored c w.1 action reply w'.1 := by
  cases action with
  | onLoad key =>
    cases reply with
    | error e =>
      obtain rfl : w' = _ := served
      exact ⟨keeps.quiet _ _ _ before fun _ => rfl, rfl⟩
    | ok state =>
      obtain ⟨rfl, rfl⟩ := served
      exact ⟨keeps.quiet _ _ _ before fun _ => rfl, rfl, keeps.replayed _ _ c key _ before fit⟩
  | onChange key update =>
    obtain ⟨there, recorded, trace⟩ := served
    have next := keeps.recorded _ _ c key update _ reply there before recorded
    refine ⟨?_, ?_⟩
    · have split : w' = (_, w'.2) := Prod.ext trace rfl
      exact split ▸ next
    · cases reply with
      | ok answer =>
        obtain rfl := keeps.answered _ _ _ _ _ recorded
        exact trace
      | error e =>
        cases there with
        | false => exact Or.inl trace
        | true => exact Or.inr trace
  | _ =>
    obtain rfl : w' = _ := served
    exact ⟨keeps.quiet _ _ _ before fun _ => rfl, rfl⟩

theorem Keeps.refines (keeps : Keeps store stored holds fits) :
    Refines (host store) (History.host y stored) Prod.fst holds fits where
  serve _ _ _ _ _ before fit served := keeps.serves before fit served
  start c w p w' before fit started := by
    obtain ⟨⟨call, is, fresh, trace⟩, same⟩ := started
    have split : w' = (w.1 ++ [(c, .began call)], w.2) := Prod.ext trace same
    exact ⟨split ▸ keeps.quiet _ _ _ before fun _ => rfl, call, is, fresh, trace⟩
  serve_fits _ _ _ _ _ served fit := keeps.serves_fits served fit
  start_fits c w p w' started fit := by
    obtain ⟨⟨call, is, fresh, trace⟩, same⟩ := started
    have split : w' = (w.1 ++ [(c, .began call)], w.2) := Prod.ext trace same
    rw [split] at fit
    exact keeps.before _ _ _ fit

/-- Every run of channel calls over a store that keeps its logs is a run of them over the
    logs themselves. -/
theorem Keeps.run (keeps : Keeps store stored holds fits) {s : σ} (start : holds ([], s))
    {server : Pool Action Reply String Unit Nat (World σ)}
    (run : Run (host store) (Pool.initial ([], s)) server) (fit : fits server.world) :
    holds server.world ∧ History.Reached y stored ⟨server.world.1, server.tasks⟩ :=
  keeps.refines.run run start fit

section
variable (store : Store y σ) (pick : σ → String → Bytes → σ)

/-- A store that answers at once and never raises, whose records leave it as picked. -/
def obey (c : Nat) (w : World σ) (action : Action) : World σ × Except String (Reply action) :=
  match action with
  | .onLoad key =>
    ((w.1 ++ [(c, .did (.onLoad key) (.ok (store.replay w.2 key)))], w.2), .ok (store.replay w.2 key))
  | .onChange key update =>
    ((w.1 ++ [(c, .did (.onChange key update) (.ok ())), (c, .recorded key update)],
      pick w.2 key update), .ok ())
  | .broadcast stream message =>
    ((w.1 ++ [(c, .did (.broadcast stream message) (.ok ()))], w.2), .ok ())
  | .transmit message => ((w.1 ++ [(c, .did (.transmit message) (.ok ()))], w.2), .ok ())
  | .streamFrom stream whisper =>
    ((w.1 ++ [(c, .did (.streamFrom stream whisper) (.ok ()))], w.2), .ok ())
  | .logDrop level reason id =>
    ((w.1 ++ [(c, .did (.logDrop level reason id) (.ok ()))], w.2), .ok ())

def handled (call : Call) (s : σ) : World σ :=
  ((call.program y).runWith (obey store pick 0) ([(0, .began call)], s)).1

end

theorem run_handled {pick : σ → String → Bytes → σ}
    (picks : ∀ s key update, store.record s key update (pick s key update) (.ok ()) true)
    (call : Call) (s : σ) : ∃ tasks,
      Run (host store) (Pool.initial ([], s)) ⟨handled store pick call s, tasks⟩ := by
  have obeys : ∀ w action, (host store).serve 0 w action (obey store pick 0 w action).2
      (obey store pick 0 w action).1 := by
    intro w action
    cases action with
    | onLoad key => exact ⟨rfl, rfl⟩
    | onChange key update => exact ⟨true, picks w.2 key update, rfl⟩
    | _ => rfl
  have began : Starts y 0 ([], s) (call.program y) ([(0, .began call)], s) :=
    ⟨⟨call, rfl, by simp, rfl⟩, rfl⟩
  have alone := run_alone (host store) obeys (call.program y) ([(0, .began call)], s)
    (Function.update (fun _ => none) 0 (some (call.program y))) (by simp)
  exact ⟨_, (Relation.ReflTransGen.single (Step.spawn rfl began)).trans alone⟩

end Yrby.Storage
