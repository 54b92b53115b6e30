import Yrby.History

/- What the program of a call can come to perform, and how it can raise, told of
   every history a server can reach. -/
namespace Yrby.Calls
open Effects Channel History

variable {y : Yrs} {stored : String → List Document.Bytes} {h h' : Trace} {c : Nat}

theorem serves_grows {action : Action} {reply : Except String (Reply action)}
    (served : Serves y stored c h action reply h') : ∀ e ∈ h, e ∈ h' := by
  intro e mem
  rcases serves_cases served with rfl | ⟨_, _, _, rfl⟩ <;> exact List.mem_append_left _ mem

theorem starts_grows {p : Handler Unit} (started : Starts y c h p h') : ∀ e ∈ h, e ∈ h' := by
  obtain ⟨_, _, _, rfl⟩ := started
  exact fun _ mem => List.mem_append_left _ mem

theorem serves_did {action action' : Action} {reply : Except String (Reply action)}
    {reply' : Except String (Reply action')} {c' : Nat} (served : Serves y stored c h action reply h')
    (did : (c', .did action' reply') ∈ h') : (c', .did action' reply') ∈ h ∨ c' = c ∧ action' = action := by
  rcases serves_cases served with rfl | ⟨_, _, _, rfl⟩
  · rcases List.mem_append.mp did with old | new
    · exact .inl old
    · obtain ⟨rfl, same⟩ := Prod.mk.inj (List.mem_singleton.mp new)
      exact .inr ⟨rfl, (Event.did.inj same).1⟩
  · rcases List.mem_append.mp did with old | new
    · exact .inl old
    · simp only [List.mem_cons, Prod.mk.injEq, reduceCtorEq, and_false, List.not_mem_nil,
        or_false] at new
      exact .inr ⟨new.1, (Event.did.inj new.2).1⟩

theorem serves_began {action : Action} {reply : Except String (Reply action)} {c' : Nat}
    {call : Call} (served : Serves y stored c h action reply h')
    (began : (c', .began call) ∈ h') : (c', .began call) ∈ h := by
  rcases serves_cases served with rfl | ⟨_, _, _, rfl⟩ <;> simpa using began

/-- A call under c may perform this. -/
def May (may : Call → Action → Prop) (h : Trace) (c : Nat) (action : Action) : Prop :=
  ∃ call, (c, .began call) ∈ h ∧ may call action

theorem May.later {may : Call → Action → Prop} {action : Action} (able : May may h c action)
    (sub : ∀ e ∈ h, e ∈ h') : May may h' c action := by
  obtain ⟨call, began, can⟩ := able
  exact ⟨call, sub _ began, can⟩

def performing (may : Call → Action → Prop) : Discipline Action Nat Trace where
  rely _ h h' := ∀ e ∈ h, e ∈ h'
  owes c h action := May may h c action
  holds h := (∀ c action reply, (c, .did action reply) ∈ h → May may h c action) ∧
    ∀ c call call', (c, .began call) ∈ h → (c, .began call') ∈ h → call = call'

theorem performing_sound {may : Call → Action → Prop}
    (only : ∀ call : Call, (call.program y).Only (may call)) :
    Sound (host y stored) (performing may) where
  refl _ _ _ mem := mem
  trans _ _ _ _ one two e mem := two e (one e mem)
  others_serve _ _ _ _ _ _ _ served := serves_grows served
  others_start _ _ _ _ _ _ started := starts_grows started
  serve_holds c h action reply h' holds owes served := by
    have grows := serves_grows served
    constructor
    · intro c' action' reply' mem
      rcases serves_did served mem with old | ⟨rfl, rfl⟩
      · exact (holds.1 c' action' reply' old).later grows
      · exact owes.later grows
    · exact fun c' call call' one two =>
        holds.2 c' call call' (serves_began served one) (serves_began served two)
  start_holds c h p h' holds started := by
    have grows := starts_grows started
    obtain ⟨call, _, fresh, rfl⟩ := started
    constructor
    · intro c' action reply mem
      have old : (c', .did action reply) ∈ h := by simpa using mem
      exact (holds.1 c' action reply old).later grows
    · have inside : ∀ c' call', (c', Event.began call') ∈ h ++ [(c, .began call)] →
          (c', Event.began call') ∈ h ∨ c' = c ∧ call' = call := by
        intro c' call' mem
        simpa [Prod.mk.injEq, Event.began.injEq] using mem
      intro c' one two begun begun'
      rcases inside c' one begun with old | ⟨rfl, rfl⟩ <;>
        rcases inside _ two begun' with old' | ⟨same, rfl⟩
      · exact holds.2 c' one two old old'
      · exact absurd same (fresh _ old)
      · exact absurd rfl (fresh _ old')
      · rfl
  start_safe c h p h' _ started _ := by
    obtain ⟨call, rfl, _, rfl⟩ := started
    have began : (c, .began call) ∈ h ++ [(c, .began call)] := by simp
    exact Safe.of_only (d := performing may) (F := fun h => (c, .began call) ∈ h)
      (fun _ _ there grows => grows (c, .began call) there)
      (fun _ _ _ _ there served => serves_grows served _ there)
      (fun _ _ there can => ⟨call, there, can⟩) (fun _ _ _ => trivial) (only call) began

variable {server : Server}

theorem reached_may {may : Call → Action → Prop}
    (only : ∀ call : Call, (call.program y).Only (may call)) (reached : Reached y stored server)
    {action : Action} {reply : Except String (Reply action)}
    (did : (c, .did action reply) ∈ server.world) : May may server.world c action := by
  have initial : Orderly (host y stored) (performing may) (Pool.initial []) :=
    Orderly.initial ⟨by simp, by simp⟩
  exact (initial.run (performing_sound only) reached).holds.1 c action reply did

theorem reached_single (reached : Reached y stored server) {call call' : Call}
    (began : (c, .began call) ∈ server.world) (began' : (c, .began call') ∈ server.world) :
    call = call' := by
  have initial : Orderly (host y stored) (performing fun _ _ => True) (Pool.initial []) :=
    Orderly.initial ⟨by simp, by simp⟩
  exact (initial.run (performing_sound fun call => Program.only_of_all (fun _ => trivial) _) reached).holds.2 c call call' began began'

theorem reached_only {may : Call → Action → Prop}
    (only : ∀ call : Call, (call.program y).Only (may call)) (reached : Reached y stored server)
    {call : Call} (began : (c, .began call) ∈ server.world) {action : Action}
    {reply : Except String (Reply action)} (did : (c, .did action reply) ∈ server.world) :
    may call action := by
  obtain ⟨call', began', can⟩ := reached_may only reached did
  exact reached_single reached began' began ▸ can

/-- No call numbered n or above has begun. -/
def Below (n : Nat) (h : Trace) (tasks : Nat → Option (Handler Unit)) : Prop :=
  (∀ c ≥ n, tasks c = none) ∧ ∀ e ∈ h, e.1 < n

theorem serves_labels {action : Action} {reply : Except String (Reply action)} {n : Nat}
    (served : Serves y stored c h action reply h') (labels : ∀ e ∈ h, e.1 < n) (below : c < n) :
    ∀ e ∈ h', e.1 < n := by
  intro e mem
  rcases serves_cases served with rfl | ⟨k, update, _, rfl⟩
  · rcases List.mem_append.mp mem with old | new
    · exact labels e old
    · obtain rfl := List.mem_singleton.mp new
      exact below
  · rcases List.mem_append.mp mem with old | new
    · exact labels e old
    · simp only [List.mem_cons, List.not_mem_nil, or_false] at new
      rcases new with rfl | rfl <;> exact below

theorem reached_below (reached : Reached y stored server) : ∃ n, Below n server.world server.tasks := by
  induction reached with
  | refl => exact ⟨0, fun _ _ => rfl, by simp [Pool.initial]⟩
  | tail _ step ih =>
    obtain ⟨n, idle, labels⟩ := ih
    cases step with
    | @spawn h h' tasks c p absent started =>
      obtain ⟨call, _, _, rfl⟩ := started
      refine ⟨max n (c + 1), fun c' above => ?_, fun e mem => ?_⟩
      · have other : c' ≠ c := by omega
        exact (Function.update_of_ne other _ _).trans (idle c' (by omega))
      · rcases List.mem_append.mp mem with old | new
        · have below := labels e old
          omega
        · obtain rfl := List.mem_singleton.mp new
          change c < max n (c + 1)
          omega
    | @act h h' tasks c action next reply task served =>
      have below : c < n := by
        by_contra above
        rw [show tasks c = none from idle c (by omega)] at task
        cases task
      refine ⟨n, fun c' above => ?_, serves_labels served labels below⟩
      have other : c' ≠ c := by omega
      exact (Function.update_of_ne other _ _).trans (idle c' above)
    | @die h tasks c =>
      refine ⟨n, fun c' above => ?_, labels⟩
      by_cases same : c' = c
      · simp [same]
      · exact (Function.update_of_ne same _ _).trans (idle c' above)

/-- An update that a call gets to read, within the caps. -/
structure Reads (call : Call) (encoded : String) (bytes : Document.Bytes) : Prop where
  carries : call.Carries encoded bytes
  short : exceedsEncoded call.channel encoded = false
  small : exceedsDecoded call.channel bytes = false

def keyed (call : Call) : Instance := { call.channel with syncKey := call.key }

theorem program_reads {call : Call} {encoded : String} {bytes : Document.Bytes}
    (reads : Reads call encoded bytes) : call.program y =
      syncHandleFrame y (keyed call) encoded bytes >>= syncSendAck call.id := by
  obtain ⟨⟨data, named, request, carried, decoded⟩, short, small⟩ := reads
  have key : call.key = named.or call.channel.syncKey := by simp [Call.key, request]
  have id : call.id = data.fetch "id" := by simp [Call.id, request]
  have short : exceedsEncoded (keyed call) encoded = false := short
  have small : exceedsDecoded (keyed call) bytes = false := small
  rw [keyed, key] at short small
  simp only [Call.program, request, syncReceive, carried, decoded, short, small,
    Bool.false_eq_true, ↓reduceIte, keyed, key, id]

/-- A message with no update to read is at most logged. -/
theorem program_drops {call : Call} {data : Value} {named : Option String}
    (request : call.request = .receive data named)
    (none : ∀ encoded bytes, ¬ Reads call encoded bytes) : call.program y = pure () ∨
      ∃ level reason id, call.program y = Program.act (Action.logDrop level reason id) := by
  rw [Call.program, request]
  dsimp only
  unfold syncReceive
  dsimp only
  split
  · rename_i encoded carried
    split
    · exact .inr ⟨_, _, _, rfl⟩
    · rename_i short
      split
      · exact .inr ⟨_, _, _, rfl⟩
      · rename_i bytes decoded
        split
        · exact .inr ⟨_, _, _, rfl⟩
        · rename_i small
          exact absurd ⟨⟨data, named, request, carried, decoded⟩, Bool.eq_false_of_not_eq_true short,
            Bool.eq_false_of_not_eq_true small⟩ (none encoded bytes)
  · exact .inl rfl

end Yrby.Calls
