import Yrby.Client
import Yrby.Effects.Runs
import Yrby.Reference.Client

/- Under which id presence goes. An awareness keeps the id that it was created with;
   onConnect and onDisconnect take that of the document, which Yjs may replace. -/
namespace Yrby.Identity
open Document Wire Effects ReliableSync Session Client

variable {js : Yjs} {y : Yrs} {own : js.Awareness → Nat}

/-- What is documented of an awareness, own being its clientID. -/
structure Documented (js : Yjs) (own : js.Awareness → Nat) : Prop where
  /-- A client with a state has a meta entry. -/
  encodes : ∀ awareness, (js.getLocalState awareness).isSome →
    ∃ update, js.encodeAwarenessUpdate awareness [own awareness] = .ok update
  /-- An update says which client it is about. -/
  tells : ∀ awareness client client' update,
    js.encodeAwarenessUpdate awareness [client] = .ok update →
    js.encodeAwarenessUpdate awareness [client'] = .ok update → client = client'
  removes : ∀ awareness clients client,
    client ∈ js.getStates (js.removeAwarenessStates awareness clients) ↔
      client ∈ js.getStates awareness ∧ client ∉ clients

def Announces (own : js.Awareness → Nat) (connection : Nat) (self : Core js) (frames : List Sent) : Prop :=
  ∀ awareness, self.awareness = some awareness → (js.getLocalState awareness).isSome →
    ∃ frame, frameAwareness awareness [own awareness] = .ok frame ∧ ⟨some connection, frame, none⟩ ∈ frames

/-- From s to t the frames went out, presence and the unacked tail among them, and the
    timer runs where there is a tail. -/
structure Resumes (own : js.Awareness → Nat) (connection : Nat) (s t : Client.Session js)
    (frames : List Sent) : Prop where
  sent : t.2.2.sent = s.2.2.sent ++ frames
  announced : Announces own connection s.2.1 frames
  connected : t.1.connected = true
  replayed : ∀ last, s.1.pending.getLast? = some last → t.1.timer.isSome ∧
    ∃ tail, mergeTail js.mergeUpdates s.1.updates = .ok tail ∧
      ⟨some connection, frameUpdate js tail, some last.seq⟩ ∈ frames

def Clears (own : js.Awareness → Nat) (s t : Client.Session js) : Prop :=
  ∀ awareness, s.2.1.awareness = some awareness →
    ∃ left, t.2.1.awareness = some left ∧
      ∀ client, client ∈ js.getStates left ↔ client ∈ js.getStates awareness ∧ client = own awareness

/-- A connect ends well, announces presence and resumes delivery; a disconnect clears the
    others. -/
def Survives (own : js.Awareness → Nat) (s : Client.Session js) : Input js → Prop
  | .connect connection =>
    Ends (run (.connect connection)) (fun _ t => ∃ frames, Resumes own connection s t frames) (fun _ => False) s
  | .disconnect => Ends (run .disconnect) (fun _ t => Clears own s t) (fun _ => False) s
  | _ => True

def due (s : Client.Session js) : Nat :=
  1 + (if (s.2.1.awareness.bind js.getLocalState).isSome then 1 else 0) +
    if s.1.pending.isEmpty then 0 else 1

/-- The ids agree where it matters, and at a connect no send fails that is due. -/
def Agrees (own : js.Awareness → Nat) (s : Client.Session js) : Input js → Prop
  | .connect _ =>
    (∀ awareness, s.2.1.awareness = some awareness → (js.getLocalState awareness).isSome →
      js.clientID s.2.1.doc = own awareness) ∧
    ∀ fault ∈ s.2.2.faults.take (due s), fault = false
  | .disconnect => ∀ awareness, s.2.1.awareness = some awareness →
      js.clientID s.2.1.doc = own awareness ∨
        own awareness ∉ js.getStates awareness ∧ js.clientID s.2.1.doc ∉ js.getStates awareness
  | _ => True

def Genuine (y : Yrs) : Input js → Prop
  | .transact _ update => ∃ content, y.contentOf update = some content
  | _ => True

structure Mergeable (y : Yrs) (s : Client.Session js) : Prop where
  memo : Memoized js.mergeUpdates s.1
  genuine : ∀ p ∈ s.1.pending, ∃ content, y.contentOf p.update = some content

theorem mergeable_step (laws : js.Laws y) {s : Client.Session js} (mergeable : Mergeable y s)
    {input : Input js} (genuine : Genuine y input) : Mergeable y (after (run input) s) := by
  have emits := run_emits laws input mergeable.memo
  refine ⟨emits.memo, ?_⟩
  rw [emits.pending]
  cases input with
  | transact doc update =>
    simp only [change]
    split
    · intro p mem
      rcases List.mem_append.mp mem with old | new
      · exact mergeable.genuine p old
      · obtain rfl := List.mem_singleton.mp new
        exact genuine
    · exact mergeable.genuine
  | ack id =>
    intro p mem
    simp only [change, acked] at mem
    split at mem
    · split at mem
      · exact mergeable.genuine p mem
      · exact mergeable.genuine p (List.mem_of_mem_filter mem)
    · exact mergeable.genuine p mem
  | destroy => exact fun p mem => absurd mem List.not_mem_nil
  | _ => exact mergeable.genuine

theorem carried {pending : List Pending}
    (genuine : ∀ p ∈ pending, ∃ content, y.contentOf p.update = some content) :
    ∃ contents, (pending.map Pending.update).map y.contentOf = List.map some contents := by
  induction pending with
  | nil => exact ⟨[], rfl⟩
  | cons p rest ih =>
    obtain ⟨content, this⟩ := genuine p List.mem_cons_self
    obtain ⟨contents, same⟩ := ih fun p mem => genuine p (List.mem_cons_of_mem _ mem)
    exact ⟨content :: contents, by simp only [List.map_cons, this, same]⟩

theorem merges (laws : js.Laws y) {s : Client.Session js} (mergeable : Mergeable y s) :
    ∃ tail, mergeTail js.mergeUpdates s.1.updates = .ok tail := by
  obtain ⟨contents, same⟩ := carried mergeable.genuine
  obtain ⟨merged, joined, _⟩ := laws.merge_joins _ _ same
  unfold mergeTail
  split
  · exact ⟨_, rfl⟩
  · exact ⟨merged, joined⟩

theorem ends_send {tail : Bytes} {seq : Nat} {post : Unit → Client.Session js → Prop}
    {raised : Client.Session js → Prop} {s : Client.Session js} :
    Ends ((delivery transport js).send tail seq) post raised s ↔
      if s.2.2.faults.headD false = true then raised (hand s (frameUpdate js tail) (some seq))
      else post () (hand s (frameUpdate js tail) (some seq)) := ends_transmit

def started (s : Client.Session js) : Client.Session js :=
  match s.1.timer with
  | some _ => s
  | none => ({ s.1 with timer := some s.2.2.nextTimer }, s.2.1, { s.2.2 with
      timers := s.2.2.nextTimer :: s.2.2.timers
      nextTimer := s.2.2.nextTimer + 1 })

theorem ends_startTimer {post : Unit → Client.Session js → Prop} {raised : Client.Session js → Prop}
    {s : Client.Session js} :
    Ends (startTimer (delivery transport js)) post raised s ↔ post () (started s) := by
  simp only [startTimer, started, ends_bind, ends_this]
  cases s.1.timer <;> exact Iff.rfl

theorem started_runs (s : Client.Session js) : (started s).1.timer.isSome ∧
    (started s).1.connected = s.1.connected ∧ (started s).2.2.sent = s.2.2.sent := by
  unfold started
  split
  · rename_i handle running
    exact ⟨by rw [running]; rfl, rfl, rfl⟩
  · exact ⟨rfl, rfl, rfl⟩

theorem ends_mergedTail {self : ReliableSync} {world : Core js × Host} {tail : Bytes}
    (memo : Memoized js.mergeUpdates self) (merged : mergeTail js.mergeUpdates self.updates = .ok tail)
    {post : Bytes → Client.Session js → Prop} {raised : Client.Session js → Prop} :
    Ends (mergedTail (delivery transport js)) post raised (self, world) ↔
      post tail ({ self with tailCache := some tail }, world) := by
  simp only [mergedTail, ends_bind, ends_this]
  split
  · rename_i other cached
    obtain rfl := Except.ok.inj ((memo other cached).symm.trans merged)
    have same : { self with tailCache := some other } = self := by rw [← cached]
    rw [same]
    rfl
  · have merged' : mergeTail (delivery transport js).merge self.updates = .ok tail := merged
    rw [merged']
    rfl

theorem ends_flush {self : ReliableSync} {core : Core js} {host : Host} {tail : Bytes} {last : Pending}
    (connected : self.connected = true) (memo : Memoized js.mergeUpdates self)
    (ends : self.pending.getLast? = some last)
    (merged : mergeTail js.mergeUpdates self.updates = .ok tail) {post : Unit → Client.Session js → Prop} :
    Ends (flush (delivery transport js)) post (fun _ => False) (self, core, host) ↔
      host.faults.headD false = false ∧ post () (hand ({ self with tailCache := some tail },
        core, host) (frameUpdate js tail) (some last.seq)) := by
  simp only [flush, ends_bind, ends_this, connected, ends, ends_mergedTail memo merged, ends_send]
  cases host.faults.headD false with
  | true => simp
  | false => simp

theorem ends_restart {post : Unit → Client.Session js → Prop} {raised : Client.Session js → Prop}
    {s : Client.Session js} :
    Ends (do
        let self ← this
        if self.hasPending then startTimer (delivery transport js)) post raised s ↔
      post () (if s.1.hasPending then started s else s) := by
  rw [ends_bind, ends_this]
  cases s.1.hasPending with
  | true => exact ends_startTimer
  | false => exact Iff.rfl

theorem announces_append {connection : Nat} {self : Core js} {frames : List Sent} {last : Sent}
    (reliable : last.id ≠ none) :
    Announces own connection self (frames ++ [last]) ↔ Announces own connection self frames := by
  have other : ∀ frame, (⟨some connection, frame, none⟩ : Sent) ∈ frames ++ [last] ↔
      ⟨some connection, frame, none⟩ ∈ frames := by
    intro frame
    rw [List.mem_append, List.mem_singleton, or_iff_left]
    rintro rfl
    exact reliable rfl
  simp only [Announces, other]

/-- Delivery resumes when the tail can be sent; presence was announced before, or is not. -/
theorem resume_iff (laws : js.Laws y) {s : Client.Session js} (mergeable : Mergeable y s)
    {connection : Nat} {frames : List Sent} {core : Core js} {host : Host}
    (sent : host.sent = s.2.2.sent ++ frames) (there : host.connection = some connection) :
    Ends (ReliableSync.onConnect (delivery transport js))
        (fun _ t => ∃ frames, Resumes own connection s t frames) (fun _ => False) (s.1, core, host) ↔
      Announces own connection s.2.1 frames ∧ (s.1.pending = [] ∨ host.faults.headD false = false) := by
  obtain ⟨tail, merged⟩ := merges laws mergeable
  have memo : Memoized js.mergeUpdates { s.1 with connected := true } := mergeable.memo
  have merged' : mergeTail js.mergeUpdates { s.1 with connected := true }.updates = .ok tail := merged
  have known : ∀ frames' : List Sent, s.2.2.sent ++ frames = s.2.2.sent ++ frames' → frames = frames' :=
    fun _ => List.append_cancel_left
  unfold ReliableSync.onConnect
  rw [ends_bind, ends_assign, ends_bind]
  cases ends : s.1.pending.getLast? with
  | none =>
    have empty : s.1.pending = [] := List.getLast?_eq_none_iff.mp ends
    have idle : ReliableSync.hasPending { s.1 with connected := true } = false := by
      simp [ReliableSync.hasPending, empty]
    have nothing : ∀ post : Unit → Client.Session js → Prop, Ends (flush (delivery transport js)) post
        (fun _ => False) ({ s.1 with connected := true }, core, host) ↔
          post () ({ s.1 with connected := true }, core, host) := by
      intro post
      simp only [flush, ends_bind, ends_this, ends]
      exact Iff.rfl
    rw [nothing, ends_restart, idle]
    simp only [empty, Bool.false_eq_true, ↓reduceIte, true_or, and_true]
    constructor
    · rintro ⟨frames', resumes⟩
      rw [known frames' (sent.symm.trans resumes.sent)]
      exact resumes.announced
    · exact fun announced => ⟨frames, sent, announced, rfl, fun last here => by simp [ends] at here⟩
  | some last =>
    have filled : s.1.pending ≠ [] := by
      intro empty
      simp [empty] at ends
    have busy : ReliableSync.hasPending { s.1 with connected := true, tailCache := some tail } = true := by
      simp [ReliableSync.hasPending, List.length_pos_iff, filled]
    rw [ends_flush rfl memo ends merged', ends_restart, hand, busy, if_pos rfl]
    simp only [filled, false_or]
    obtain ⟨timer, connected, handed⟩ := started_runs (({ s.1 with
      connected := true, tailCache := some tail }, core,
      host.handed (frameUpdate js tail) (some last.seq)) : Client.Session js)
    have all : (host.handed (frameUpdate js tail) (some last.seq)).sent =
        s.2.2.sent ++ (frames ++ [⟨some connection, frameUpdate js tail, some last.seq⟩]) := by
      simp [Host.handed, sent, there]
    constructor
    · rintro ⟨works, frames', resumes⟩
      refine ⟨?_, works⟩
      have same := List.append_cancel_left ((handed.trans all).symm.trans resumes.sent)
      have announced := resumes.announced
      rw [← same, announces_append (by simp)] at announced
      exact announced
    · rintro ⟨announced, works⟩
      refine ⟨works, frames ++ [⟨some connection, frameUpdate js tail, some last.seq⟩],
        handed.trans all, (announces_append (by simp)).mpr announced, connected, ?_⟩
      intro last' here
      obtain rfl := Option.some.inj (ends.symm.trans here)
      exact ⟨timer, tail, merged, by simp⟩

theorem frameAwareness_tells (documented : Documented js own) {awareness : js.Awareness}
    {client client' : Nat} {frame : Bytes} (one : frameAwareness awareness [client] = .ok frame)
    (two : frameAwareness awareness [client'] = .ok frame) : client = client' := by
  obtain ⟨update, encoded, rfl⟩ := frameAwareness_inv one
  obtain ⟨update', encoded', same⟩ := frameAwareness_inv two
  obtain rfl := awarenessFrame_injective same
  exact documented.tells awareness client client' _ encoded encoded'

theorem works_succ (n : Nat) (faults : List Bool) : (∀ fault ∈ faults.take (n + 1), fault = false) ↔
    faults.headD false = false ∧ ∀ fault ∈ faults.tail.take n, fault = false := by
  cases faults with
  | nil => simp
  | cons fault faults => simp

theorem works_last (s : Client.Session js) (faults : List Bool) :
    (∀ fault ∈ faults.take (if s.1.pending.isEmpty then 0 else 1), fault = false) ↔
      s.1.pending = [] ∨ faults.headD false = false := by
  cases s.1.pending with
  | nil => simp
  | cons p rest =>
    have one := works_succ 0 faults
    simpa using one

def opened (s : Client.Session js) (connection : Nat) : Host :=
  Host.handed { s.2.2 with connection := some connection } (frameSyncStep1 s.2.1.doc) none

def opening (s : Client.Session js) (connection : Nat) : Sent :=
  ⟨some connection, frameSyncStep1 s.2.1.doc, none⟩

theorem opening_unlike {s : Client.Session js} {connection : Nat} {awareness : js.Awareness}
    {client : Nat} {frame : Bytes} (framed : frameAwareness awareness [client] = .ok frame) :
    (⟨some connection, frame, none⟩ : Sent) ≠ opening s connection := by
  intro same
  obtain ⟨update, _, spelled⟩ := frameAwareness_inv framed
  have frames := spelled.symm.trans (congrArg Sent.frame same)
  have kinds := ((write_varUint _).ends (write_varUint _) frames).1
  exact absurd kinds (by decide)

theorem connect_absent (laws : js.Laws y) {s : Client.Session js} (mergeable : Mergeable y s)
    (connection : Nat) (absent : ∀ awareness, s.2.1.awareness = some awareness →
      ¬ (js.getLocalState awareness).isSome) :
    Ends (ReliableSync.onConnect (delivery transport js))
        (fun _ t => ∃ frames, Resumes own connection s t frames) (fun _ => False)
        (s.1, s.2.1, opened s connection) ↔
      s.1.pending = [] ∨ s.2.2.faults.tail.headD false = false := by
  have vacuous : Announces own connection s.2.1 [opening s connection] :=
    fun awareness here some_ => absurd some_ (absent awareness here)
  have resumed : Ends (ReliableSync.onConnect (delivery transport js))
        (fun _ t => ∃ frames, Resumes own connection s t frames) (fun _ => False)
        (s.1, s.2.1, opened s connection) ↔
      Announces own connection s.2.1 [opening s connection] ∧
        (s.1.pending = [] ∨ s.2.2.faults.tail.headD false = false) :=
    resume_iff laws mergeable rfl rfl
  rw [resumed, and_iff_right vacuous]

theorem connect_present (laws : js.Laws y) (documented : Documented js own) {s : Client.Session js}
    (mergeable : Mergeable y s) (connection : Nat) {awareness : js.Awareness}
    (here : s.2.1.awareness = some awareness) (there : (js.getLocalState awareness).isSome) :
    Ends (match frameAwareness awareness [js.clientID s.2.1.doc] with
        | .error e => do
          throw e
          ReliableSync.onConnect (delivery transport js)
        | .ok frame => do
          transmit transport frame none
          ReliableSync.onConnect (delivery transport js))
        (fun _ t => ∃ frames, Resumes own connection s t frames) (fun _ => False)
        (s.1, s.2.1, opened s connection) ↔
      js.clientID s.2.1.doc = own awareness ∧ s.2.2.faults.tail.headD false = false ∧
        (s.1.pending = [] ∨ s.2.2.faults.tail.tail.headD false = false) := by
  cases framed : frameAwareness awareness [js.clientID s.2.1.doc] with
  | error e =>
    simp only [ends_bind, ends_throw, false_iff, not_and]
    intro same
    obtain ⟨update, encoded⟩ := documented.encodes awareness there
    rw [same, frameAwareness_ok encoded] at framed
    cases framed
  | ok frame =>
    have resumed : Ends (ReliableSync.onConnect (delivery transport js))
          (fun _ t => ∃ frames, Resumes own connection s t frames) (fun _ => False)
          (hand (s.1, s.2.1, opened s connection) frame none) ↔
        Announces own connection s.2.1 [opening s connection, ⟨some connection, frame, none⟩] ∧
          (s.1.pending = [] ∨ s.2.2.faults.tail.tail.headD false = false) := by
      apply resume_iff laws mergeable
      · simp [opened, opening, Host.handed]
      · rfl
    have announced : Announces own connection s.2.1
        [opening s connection, ⟨some connection, frame, none⟩] ↔ js.clientID s.2.1.doc = own awareness := by
      constructor
      · intro announces
        obtain ⟨frame', framed', mem⟩ := announces awareness here there
        rcases List.mem_cons.mp mem with first | second
        · exact absurd first (opening_unlike framed')
        · obtain rfl : frame' = frame := congrArg Sent.frame (List.mem_singleton.mp second)
          exact frameAwareness_tells documented framed framed'
      · rintro same awareness' here' _
        obtain rfl := Option.some.inj (here.symm.trans here')
        exact ⟨frame, same ▸ framed, by simp⟩
    rw [ends_bind, ends_transmit]
    change (if s.2.2.faults.tail.headD false = true then False else _) ↔ _
    cases s.2.2.faults.tail.headD false with
    | true => simp
    | false =>
      rw [if_neg Bool.false_ne_true, resumed, announced]
      simp only [true_and]

theorem agrees_connect (s : Client.Session js) (connection : Nat) :
    Agrees own s (.connect connection) ↔ s.2.2.faults.headD false = false ∧
      match s.2.1.awareness with
      | none => s.1.pending = [] ∨ s.2.2.faults.tail.headD false = false
      | some awareness =>
        if (js.getLocalState awareness).isSome then
          js.clientID s.2.1.doc = own awareness ∧ s.2.2.faults.tail.headD false = false ∧
            (s.1.pending = [] ∨ s.2.2.faults.tail.tail.headD false = false)
        else s.1.pending = [] ∨ s.2.2.faults.tail.headD false = false := by
  have works : ∀ presence : Nat, (if (s.2.1.awareness.bind js.getLocalState).isSome then 1 else 0) = presence →
      ((∀ fault ∈ s.2.2.faults.take (due s), fault = false) ↔ s.2.2.faults.headD false = false ∧
        ∀ fault ∈ s.2.2.faults.tail.take (presence + if s.1.pending.isEmpty then 0 else 1), fault = false) := by
    intro presence same
    rw [due, same, Nat.add_assoc, Nat.add_comm 1, works_succ]
  simp only [Agrees]
  cases here : s.2.1.awareness with
  | none =>
    rw [works 0 (by simp [here]), Nat.zero_add, works_last]
    simp
  | some awareness =>
    by_cases there : (js.getLocalState awareness).isSome
    · rw [works 1 (by simp [here, there]), Nat.add_comm 1, works_succ, works_last]
      simp only [Option.some.injEq, forall_eq', there, forall_const, ↓reduceIte]
      exact and_left_comm
    · rw [works 0 (by simp [here, there]), Nat.zero_add, works_last]
      simp only [Option.some.injEq, forall_eq', there, Bool.false_eq_true, false_implies, true_and, ↓reduceIte]

theorem connect_iff (laws : js.Laws y) (documented : Documented js own) {s : Client.Session js}
    (mergeable : Mergeable y s) (connection : Nat) :
    Survives own s (.connect connection) ↔ Agrees own s (.connect connection) := by
  rw [agrees_connect]
  simp only [Survives, run, assignHost, Session.onConnect]
  rw [ends_bind, ends_modify, ends_bind, ends_core, ends_bind, ends_transmit]
  change (if s.2.2.faults.headD false = true then False else _) ↔ _
  cases s.2.2.faults.headD false with
  | true => simp
  | false =>
    rw [if_neg Bool.false_ne_true, and_iff_right rfl]
    dsimp only
    cases here : s.2.1.awareness with
    | none => exact connect_absent laws mergeable connection (by simp [here])
    | some awareness =>
      dsimp only
      by_cases there : (js.getLocalState awareness).isSome
      · rw [if_pos there, if_pos there]
        exact connect_present laws documented mergeable connection here there
      · rw [if_neg there, if_neg there]
        exact connect_absent laws mergeable connection fun other here' =>
          Option.some.inj (here.symm.trans here') ▸ there

def stopped (s : Client.Session js) : Client.Session js :=
  match s.1.timer with
  | some handle => ({ s.1 with timer := none }, s.2.1, transport.clearInterval handle s.2.2)
  | none => ({ s.1 with timer := none }, s.2)

theorem ends_stopTimer {post : Unit → Client.Session js → Prop} {raised : Client.Session js → Prop}
    {s : Client.Session js} :
    Ends (stopTimer (delivery transport js)) post raised s ↔ post () (stopped s) := by
  simp only [stopTimer, stopped, ends_bind, ends_this]
  cases s.1.timer <;> exact Iff.rfl

theorem stopped_core (s : Client.Session js) : (stopped s).2.1 = s.2.1 := by
  unfold stopped
  split <;> rfl

/- The clients that a disconnect takes for others, and what it leaves without them -/
def cleared (doc : js.Doc) (awareness : js.Awareness) : js.Awareness :=
  let remote := (js.getStates awareness).filter (· ≠ js.clientID doc)
  if remote.isEmpty then awareness else js.removeAwarenessStates awareness remote

/-- Only the client that has the id of the document keeps its state. -/
theorem cleared_states (documented : Documented js own) (doc : js.Doc) (awareness : js.Awareness)
    (client : Nat) : client ∈ js.getStates (cleared doc awareness) ↔
      client ∈ js.getStates awareness ∧ client = js.clientID doc := by
  unfold cleared
  dsimp only
  split
  · rename_i none
    simp only [List.isEmpty_iff, List.filter_eq_nil_iff, decide_eq_true_eq, not_not] at none
    exact ⟨fun mem => ⟨mem, none client mem⟩, And.left⟩
  · rw [documented.removes, List.mem_filter, decide_eq_true_eq, not_and_not_right]
    exact and_congr_right fun mem => ⟨fun same => same mem, fun same _ => same⟩

theorem disconnect_iff (documented : Documented js own) (s : Client.Session js) :
    Survives own s .disconnect ↔ Agrees own s .disconnect := by
  have left : Survives own s .disconnect ↔ ∀ awareness, s.2.1.awareness = some awareness →
      ∃ left, s.2.1.awareness.map (cleared s.2.1.doc) = some left ∧
        ∀ client, client ∈ js.getStates left ↔ client ∈ js.getStates awareness ∧ client = own awareness := by
    simp only [Survives, run, assignHost, Session.onDisconnect, ReliableSync.onDisconnect, ends_bind,
      ends_modify, ends_assignCore, ends_assign, ends_stopTimer, Clears, stopped_core]
    rfl
  rw [left]
  refine forall_congr' fun awareness => forall_congr' fun here => ?_
  rw [here, Option.map_some]
  simp only [Option.some.injEq, exists_eq_left', cleared_states documented]
  constructor
  · intro same
    have local_ := same (own awareness)
    have others := same (js.clientID s.2.1.doc)
    tauto
  · rintro (agree | ⟨absent, unused⟩) client
    · rw [agree]
    · constructor
      · rintro ⟨mem, rfl⟩
        exact absurd mem unused
      · rintro ⟨mem, rfl⟩
        exact absurd mem absent

theorem survives_iff (laws : js.Laws y) (documented : Documented js own) {s : Client.Session js}
    (mergeable : Mergeable y s) (input : Input js) : Survives own s input ↔ Agrees own s input := by
  cases input with
  | connect connection => exact connect_iff laws documented mergeable connection
  | disconnect => exact disconnect_iff documented s
  | _ => exact Iff.rfl

def fresh (doc : js.Doc) (awareness : js.Awareness) : Client.Session js :=
  Session.construct doc (some awareness) Host.idle

def step (input : Input js) (s : Client.Session js) : Client.Session js := after (run input) s

theorem fresh_mergeable (doc : js.Doc) (awareness : js.Awareness) : Mergeable y (fresh doc awareness) where
  memo _ cached := by simp [fresh, Session.construct, ReliableSync.initial] at cached
  genuine _ mem := by simp [fresh, Session.construct, ReliableSync.initial] at mem

/-- Presence and delivery survive every connect and disconnect of a run exactly where the
    ids agree at each of them and the transport takes what is due. -/
theorem presence_survives_iff (laws : js.Laws y) (documented : Documented js own) {doc : js.Doc}
    {awareness : js.Awareness} {history : List (Client.Session js × Input js)} {s : Client.Session js}
    (ran : Ran step (fresh doc awareness) history s) (genuine : ∀ moment ∈ history, Genuine y moment.2) :
    (∀ moment ∈ history, Survives own moment.1 moment.2) ↔
      ∀ moment ∈ history, Agrees own moment.1 moment.2 := by
  have mergeable := (ran.throughout (fresh_mergeable doc awareness)
    (fun _ _ now genuine => mergeable_step laws now genuine) genuine).2
  exact forall_congr' fun moment => forall_congr' fun mem =>
    survives_iff laws documented (mergeable moment mem) moment.2

theorem cursors_documented : Documented Reference.renamer Reference.Cursors.clientID where
  encodes a there := by
    change ∃ update, a.encode [a.clientID] = .ok update
    cases found : a.find a.clientID with
    | none =>
      have absent : (a.getLocalState).isSome = true := there
      simp [Reference.Cursors.getLocalState, found] at absent
    | some cursor => exact ⟨_, Reference.Cursors.encode_found found⟩
  tells _ _ _ _ one two := (List.cons.inj (Reference.Cursors.encode_tells one two)).1
  removes a clients client := by
    change client ∈ (a.remove clients).getStates ↔ client ∈ a.getStates ∧ client ∉ clients
    simp only [Reference.Cursors.getStates, Reference.Cursors.remove, List.mem_map, List.mem_filter]
    constructor
    · rintro ⟨_, ⟨⟨cursor, mem, rfl⟩, shown⟩, rfl⟩
      split at shown
      · simp at shown
      · rename_i other
        rw [if_neg other]
        exact ⟨⟨cursor, ⟨mem, shown⟩, rfl⟩, other⟩
    · rintro ⟨⟨cursor, ⟨mem, shown⟩, rfl⟩, other⟩
      exact ⟨_, ⟨⟨cursor, mem, rfl⟩, by rwa [if_neg other]⟩, by rw [if_neg other]⟩

def document : Reference.renamer.Doc := (⟨.empty, 1⟩ : Reference.Tab)

def cursors : Reference.renamer.Awareness := (⟨1, [⟨1, .finite 0, some "[]"⟩]⟩ : Reference.Cursors)

/- Content under client 1 comes from the server, a character is typed, and the transport
   connects. -/
def written : Bytes := syncFrame messageYjsUpdate (Reference.encodeDelta ⟨[Reference.typed 1 0 none], []⟩)

def replaced : Client.Session Reference.renamer := step (.receive written) (fresh document cursors)

def typing : Input Reference.renamer := .transact
  (⟨.after [⟨[Reference.typed 1 0 none], []⟩, ⟨[Reference.typed 2 0 none], []⟩], 2⟩ : Reference.Tab)
  (Reference.encodeDelta ⟨[Reference.typed 2 0 none], []⟩)

def edited : Client.Session Reference.renamer := step typing replaced

theorem edited_stops : ¬ Survives Reference.Cursors.clientID edited (.connect 0) := by
  intro survives
  have thrown : (match run (.connect 0) edited with
      | .ok _ _ => true
      | .error _ _ => false) = false := by
    decide +kernel
  simp only [Survives, Ends] at survives
  split at survives
  · rename_i returned
    rw [returned] at thrown
    cases thrown
  · exact survives

/-- Presence takes delivery down with it when the document has another id. -/
theorem replaced_id_stops : ∃ history s, Ran step (fresh document cursors) history s ∧
    (∀ moment ∈ history, Genuine Reference.crate moment.2) ∧
    ∃ moment ∈ history, ¬ Survives Reference.Cursors.clientID moment.1 moment.2 := by
  have ran : Ran step (fresh document cursors) _ _ :=
    ((Ran.start.next (.receive written)).next typing).next (.connect 0)
  refine ⟨_, _, ran, ?_, (edited, .connect 0), ?_, edited_stops⟩
  · simp only [List.nil_append, List.cons_append, List.forall_mem_cons]
    exact ⟨trivial, ⟨_, Reference.contentOf_encodeDelta _⟩, trivial, by simp⟩
  · simp [edited, replaced]

def shared : Reference.renamer.Awareness :=
  (⟨1, [⟨1, .finite 0, some "[]"⟩, ⟨7, .finite 0, some "[]"⟩]⟩ : Reference.Cursors)

def edit : Input Reference.renamer := .transact
  (⟨.after [⟨[Reference.typed 1 0 none], []⟩], 1⟩ : Reference.Tab)
  (Reference.encodeDelta ⟨[Reference.typed 1 0 none], []⟩)

def queued : Client.Session Reference.renamer := step edit (fresh document shared)

theorem kept_id_survives : queued.1.pending.length = 1 ∧ Reference.renamer.getStates shared = [1, 7] ∧
    Survives Reference.Cursors.clientID queued (.connect 0) ∧
    Survives Reference.Cursors.clientID (step (.connect 0) queued) .disconnect := by
  have ran : Ran step (fresh document shared) _ _ :=
    ((Ran.start.next edit).next (.connect 0)).next .disconnect
  have genuine : Genuine Reference.crate edit := ⟨_, Reference.contentOf_encodeDelta _⟩
  have survives := (presence_survives_iff Reference.renamer_laws cursors_documented ran ?_).mpr ?_
  · refine ⟨by decide +kernel, by decide, survives (queued, .connect 0) ?_,
      survives (step (.connect 0) queued, .disconnect) ?_⟩
    · simp [queued]
    · simp [queued]
  · simp only [List.nil_append, List.cons_append, List.forall_mem_cons]
    exact ⟨genuine, trivial, trivial, by simp⟩
  · have agree : ∀ awareness, some shared = some awareness →
        Reference.renamer.clientID queued.2.1.doc = Reference.Cursors.clientID awareness := by
      intro awareness here
      cases here
      rfl
    have before : queued.2.1.awareness = some shared := by rfl
    have core : (step (.connect 0) queued).2.1 = queued.2.1 := by rfl
    simp only [List.nil_append, List.cons_append, List.forall_mem_cons]
    refine ⟨trivial, ⟨fun awareness here _ => agree awareness (before ▸ here), ?_⟩, ?_, by simp⟩
    · decide +kernel
    · intro awareness here
      left
      change (step (.connect 0) queued).2.1.awareness = _ at here
      change Reference.renamer.clientID (step (.connect 0) queued).2.1.doc = _
      rw [core] at here ⊢
      exact agree awareness (before ▸ here)

end Yrby.Identity
