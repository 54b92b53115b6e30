import Mathlib.Data.List.Infix
import Mathlib.Tactic.SplitIfs
import Yrby.ReliableSync

/- The reliable-delivery core under every order of its operations. The transport is
   anything: what one call of send does may depend on all that happened before, and
   it may deliver acks before it returns or throws. The timers are the platform's. -/
namespace Yrby.Retransmission
open Document Wire Effects ReliableSync

inductive Operation where
  | enqueue (update : Bytes)
  | onAck (id : Value)
  | onConnect
  | onDisconnect
  | onTick
  | destroy

inductive Happened where
  | call (op : Operation)
  | send (update : Bytes) (id : Nat)

/- What happened, and the pending field as it was then. -/
structure Event where
  what : Happened
  queue : List Pending

/- live: the timers that were set and are not cleared -/
structure World where
  log : List Event
  live : List Nat
  handles : Nat

/- What one call of send does: the acks that arrive during it, then its end. -/
structure Reply where
  acks : List Value
  throws : Option JsError

structure Setting where
  merge : List Bytes → Except JsError Bytes
  resendInterval : Nat
  reply : List Event → Bytes → Nat → Reply

abbrev Running := ReliableSync × World

variable (setting : Setting)

def World.note (world : World) (event : Event) : World :=
  { world with log := world.log ++ [event] }

def World.setInterval (_ms : Nat) (world : World) : Nat × World :=
  (world.handles, { world with
    live := world.live ++ [world.handles]
    handles := world.handles + 1 })

def World.clearInterval (handle : Nat) (world : World) : World :=
  { world with live := world.live.erase handle }

def note (what : Happened) : Method World Unit :=
  modify fun s => (s.1, s.2.note ⟨what, s.1.pending⟩)

def timers : Options World where
  send := fun _ _ => return ()
  merge := setting.merge
  resendInterval := setting.resendInterval
  setInterval := World.setInterval
  clearInterval := World.clearInterval

def deliver : List Value → Method World Unit
  | [] => return ()
  | id :: rest => do
    note (.call (.onAck id))
    onAck (timers setting) id
    deliver rest

def finish : Option JsError → Method World Unit
  | some e => throw e
  | none => return ()

def send (update : Bytes) (id : Nat) : Method World Unit := do
  let reply := setting.reply (← get).2.log update id
  note (.send update id)
  deliver setting reply.acks
  finish reply.throws

def options : Options World := { timers setting with send := send setting }

def call : Operation → Method World Unit
  | .enqueue update => enqueue (options setting) update
  | .onAck id => onAck (options setting) id
  | .onConnect => onConnect (options setting)
  | .onDisconnect => onDisconnect (options setting)
  | .onTick => onTick (options setting)
  | .destroy => destroy (options setting)

def perform (op : Operation) : Method World Unit := do
  note (.call op)
  call setting op

def start : Running := (ReliableSync.initial, ⟨[], [], 0⟩)

/- Each operation from the state that the one before it left, also when it threw. -/
def run (ops : List Operation) : Running :=
  ops.foldl (fun s op => after (perform setting op) s) start

/-- What the queue should hold, told from the calls alone. -/
structure Ledger where
  issued : Nat
  kept : List Pending
  acknowledged : List Nat
  connected : Bool

namespace Ledger

/- Enqueued since the last destroy, and above every acknowledged id -/
def unacked (l : Ledger) : List Pending :=
  l.kept.filter fun p => l.acknowledged.all (· < p.seq)

/- An id counts when it is a safe integer and not above the highest seq then queued. -/
def counts (l : Ledger) (id : Value) : Option Nat :=
  (ackedSeq id).filter fun n => l.unacked.getLast?.any (n ≤ ·.seq)

def add (l : Ledger) : Happened → Ledger
  | .call (.enqueue update) => { l with
      issued := l.issued + 1
      kept := l.kept ++ [⟨l.issued + 1, update⟩] }
  | .call (.onAck id) => { l with acknowledged := l.acknowledged ++ (l.counts id).toList }
  | .call .onConnect => { l with connected := true }
  | .call .onDisconnect => { l with connected := false }
  | .call .destroy => { l with connected := false, kept := [] }
  | .call .onTick => l
  | .send _ _ => l

def initial : Ledger := ⟨0, [], [], false⟩

end Ledger

def ledger (log : List Event) : Ledger := (log.map Event.what).foldl Ledger.add .initial

/-- The tail as it stood, merged afresh, under its last seq, while connected. -/
def Fresh (before : List Event) (update : Bytes) (id : Nat) : Prop :=
  (ledger before).connected = true ∧ ∃ last, (ledger before).unacked.getLast? = some last ∧
    id = last.seq ∧ mergeTail setting.merge ((ledger before).unacked.map Pending.update) = .ok update

/-- seqs that follow one another up to the last one issued. -/
def Consecutive (issued : Nat) (queue : List Pending) : Prop :=
  queue.length ≤ issued ∧
    queue.map Pending.seq = List.range' (issued + 1 - queue.length) queue.length

/-- The queue is the unacked tail, now and whenever anything was called, and every
    call of send carried that tail. -/
structure Exact (s : Running) : Prop where
  queue : s.1.pending = (ledger s.2.log).unacked
  consecutive : Consecutive (ledger s.2.log).issued s.1.pending
  observed : ∀ before event, before ++ [event] <+: s.2.log →
    event.queue = (ledger before).unacked ∧ Consecutive (ledger before).issued event.queue
  sends : ∀ before update id queue, before ++ [⟨.send update id, queue⟩] <+: s.2.log →
    Fresh setting before update id

/-- Exact, with what carries it over the next step. -/
structure Tracks (s : Running) : Prop extends Exact setting s where
  nextSeq : s.1.nextSeq = (ledger s.2.log).issued + 1
  connected : s.1.connected = (ledger s.2.log).connected
  memo : Memoized setting.merge s.1
  low : ∀ id ∈ (ledger s.2.log).acknowledged, id ≤ (ledger s.2.log).issued
  live : s.2.live = s.1.timer.toList
  idle : s.1.timer.isSome → s.1.connected = true ∧ s.1.pending ≠ []

/-- A retransmit timer is live exactly while connected with something unacked, and
    there is never a second one. -/
def Armed (s : Running) : Prop :=
  (s.2.live ≠ [] ↔ (ledger s.2.log).connected = true ∧ s.1.pending ≠ []) ∧ s.2.live.length ≤ 1

/-- The replay of onConnect ends before it returns, with the queue not emptied. -/
def Stalls (s : Running) : Operation → Prop
  | .onConnect => s.1.connected = false ∧ ∃ last, s.1.pending.getLast? = some last ∧
      match mergeTail setting.merge s.1.updates with
      | .error _ => True
      | .ok tail =>
        let reply := setting.reply (s.2.note ⟨.call .onConnect, s.1.pending⟩).log tail last.seq
        reply.throws.isSome = true ∧ ∀ id ∈ reply.acks, ackedSeq id ≠ some last.seq
  | _ => False

def quiet (self : ReliableSync) : ReliableSync :=
  { self with timer := if self.pending.isEmpty then none else self.timer }

variable {setting} {self : ReliableSync} {w : World}

theorem ledger_note (log : List Event) (event : Event) :
    ledger (log ++ [event]) = (ledger log).add event.what := by
  simp [ledger]

theorem unacked_enqueued {l : Ledger} (low : ∀ id ∈ l.acknowledged, id ≤ l.issued)
    (update : Bytes) : (l.add (.call (.enqueue update))).unacked =
      l.unacked ++ [⟨l.issued + 1, update⟩] := by
  have above : l.acknowledged.all (· < l.issued + 1) = true := by
    simp only [List.all_eq_true, decide_eq_true_eq]
    intro id mem
    have := low id mem
    omega
  simp only [Ledger.unacked, Ledger.add, List.filter_append, List.filter_cons, above, ↓reduceIte,
    List.filter_nil]

theorem unacked_acked (l : Ledger) (id : Value) : (l.add (.call (.onAck id))).unacked =
    match l.counts id with
    | some n => l.unacked.filter (n < ·.seq)
    | none => l.unacked := by
  cases counted : l.counts id with
  | none => simp [Ledger.add, Ledger.unacked, counted]
  | some n =>
    simp only [Ledger.add, Ledger.unacked, counted, Option.toList_some, List.filter_filter,
      List.all_append, List.all_cons, List.all_nil, Bool.and_true]
    apply List.filter_congr
    intro p _
    exact Bool.and_comm _ _

theorem range_above (n a k : Nat) : ∃ b j, (List.range' a k).filter (n < ·) = List.range' b j ∧
    b + j = a + k ∧ j ≤ k := by
  induction k generalizing a with
  | zero => exact ⟨a, 0, rfl, rfl, Nat.le_refl 0⟩
  | succ k ih =>
    by_cases above : n < a
    · refine ⟨a, k + 1, ?_, rfl, Nat.le_refl _⟩
      apply List.filter_eq_self.mpr
      intro m mem
      have := (List.mem_range'_1.mp mem).1
      exact decide_eq_true (by omega)
    · obtain ⟨b, j, same, ends, shorter⟩ := ih (a + 1)
      refine ⟨b, j, ?_, by omega, by omega⟩
      rw [List.range'_succ, List.filter_cons, if_neg (by simpa using above), same]

theorem consecutive_filter {issued : Nat} {queue : List Pending}
    (consecutive : Consecutive issued queue) (n : Nat) :
    Consecutive issued (queue.filter (n < ·.seq)) := by
  obtain ⟨short, seqs⟩ := consecutive
  obtain ⟨b, j, same, ends, shorter⟩ := range_above n (issued + 1 - queue.length) queue.length
  have mapped : (queue.filter (n < ·.seq)).map Pending.seq = List.range' b j := by
    rw [← same, ← seqs, List.filter_map]
    rfl
  have length : (queue.filter (n < ·.seq)).length = j := by
    have := congrArg List.length mapped
    simpa using this
  unfold Consecutive
  rw [length, mapped]
  refine ⟨by omega, ?_⟩
  congr 1
  omega

theorem consecutive_push {issued : Nat} {queue : List Pending}
    (consecutive : Consecutive issued queue) (update : Bytes) :
    Consecutive (issued + 1) (queue ++ [⟨issued + 1, update⟩]) := by
  obtain ⟨short, seqs⟩ := consecutive
  refine ⟨by simpa using short, ?_⟩
  have first : issued + 1 + 1 - (queue ++ [(⟨issued + 1, update⟩ : Pending)]).length =
      issued + 1 - queue.length := by
    simp only [List.length_append, List.length_singleton]
    omega
  rw [first, List.map_append, seqs, List.length_append, List.length_singleton, List.range'_concat]
  simp only [List.map_cons, List.map_nil, one_mul, List.append_cancel_left_eq, List.cons.injEq,
    and_true]
  omega

theorem consecutive_last {issued : Nat} {queue : List Pending} {last p : Pending}
    (consecutive : Consecutive issued queue) (ends : queue.getLast? = some last) (mem : p ∈ queue) :
    last.seq = issued ∧ p.seq ≤ issued := by
  obtain ⟨short, seqs⟩ := consecutive
  have seqOf : ∀ q ∈ queue, q.seq ∈ List.range' (issued + 1 - queue.length) queue.length := by
    intro q inside
    rw [← seqs]
    exact List.mem_map_of_mem inside
  have bound := List.mem_range'_1.mp (seqOf p mem)
  refine ⟨?_, by omega⟩
  have lastSeq : (queue.map Pending.seq).getLast? = some last.seq := by
    rw [List.getLast?_map, ends]
    rfl
  have long : queue.length ≠ 0 := fun none => by
    simp [List.length_eq_zero_iff.mp none] at mem
  rw [seqs, List.getLast?_range', if_neg long] at lastSeq
  have := Option.some.inj lastSeq
  omega

theorem ends_note {what : Happened} {post : Unit → Running → Prop} {raised : Running → Prop}
    {s : Running} : Ends (note what) post raised s ↔ post () (s.1, s.2.note ⟨what, s.1.pending⟩) :=
  Iff.rfl

theorem startTimer_ends {post : Unit → Running → Prop} {raised : Running → Prop}
    (armed : self.timer.isSome → post () (self, w))
    (arms : self.timer = none → post () ({ self with timer := some w.handles },
      { w with live := w.live ++ [w.handles], handles := w.handles + 1 })) :
    Ends (startTimer (options setting)) post raised (self, w) := by
  simp only [startTimer, ends_bind, ends_this, ends_ite]
  cases timer : self.timer with
  | none => exact arms timer
  | some handle => exact armed (by rw [timer]; rfl)

variable (setting) in
theorem stopTimer_live (live : w.live = self.timer.toList) {post : Unit → Running → Prop}
    {raised : Running → Prop} (stopped : post () ({ self with timer := none }, { w with live := [] })) :
    Ends (stopTimer (timers setting)) post raised (self, w) := by
  simp only [stopTimer, ends_bind, ends_this]
  cases timer : self.timer with
  | none =>
    have none : { w with live := [] } = w := by
      rw [timer, Option.toList_none] at live
      rw [← live]
    rw [none] at stopped
    exact stopped
  | some handle =>
    have cleared : w.live.erase handle = [] := by rw [live, timer]; simp
    simp only [ends_bind, ends_modify, ends_assign, timers, World.clearInterval, cleared]
    exact stopped

variable (setting) in
theorem onAck_ends (live : w.live = self.timer.toList)
    (idle : self.timer.isSome → self.pending ≠ []) {id : Value} {post : Unit → Running → Prop}
    {raised : Running → Prop} (left : post () (quiet (self.acked id),
      { w with live := (quiet (self.acked id)).timer.toList })) :
    Ends (onAck (timers setting) id) post raised (self, w) := by
  have same : quiet self = self := by
    unfold quiet
    split_ifs with empty
    · cases timer : self.timer with
      | none => cases self; simp_all
      | some handle => exact absurd (List.isEmpty_iff.mp empty) (idle (by rw [timer]; rfl))
    · rfl
  have still : { w with live := self.timer.toList } = w := by rw [← live]
  simp only [onAck, ends_bind, ends_this]
  unfold acked at left
  cases safe : ackedSeq id with
  | none =>
    simp only [safe, same, still] at left
    exact left
  | some n =>
    simp only [safe] at left
    by_cases future : self.fromFuture n = true
    · simp only [future, ↓reduceIte, same, still] at left ⊢
      exact left
    · simp only [if_neg future] at left ⊢
      simp only [ends_bind, ends_assign, ends_this]
      by_cases empty : (self.prune n).pending.isEmpty = true
      · simp only [empty, ↓reduceIte] at left ⊢
        apply stopTimer_live setting (by exact live)
        simp only [quiet, empty, ↓reduceIte, Option.toList_none] at left
        exact left
      · simp only [if_neg empty]
        simp only [quiet, if_neg empty] at left
        have kept : { w with live := (self.prune n).timer.toList } = w := still
        rw [kept] at left
        exact left

theorem Tracks.next {s : Running} (tracks : Tracks setting s) {what : Happened}
    (log : w.log = s.2.log ++ [⟨what, s.1.pending⟩])
    (queue : self.pending = ((ledger s.2.log).add what).unacked)
    (consecutive : Consecutive ((ledger s.2.log).add what).issued self.pending)
    (nextSeq : self.nextSeq = ((ledger s.2.log).add what).issued + 1)
    (connected : self.connected = ((ledger s.2.log).add what).connected)
    (memo : Memoized setting.merge self)
    (low : ∀ id ∈ ((ledger s.2.log).add what).acknowledged, id ≤ ((ledger s.2.log).add what).issued)
    (live : w.live = self.timer.toList)
    (idle : self.timer.isSome → self.connected = true ∧ self.pending ≠ [])
    (fresh : ∀ update id, what = .send update id → Fresh setting s.2.log update id) :
    Tracks setting (self, w) := by
  have added : ledger w.log = (ledger s.2.log).add what := by rw [log, ledger_note]
  constructor
  · constructor
    · exact queue.trans (congrArg Ledger.unacked added.symm)
    · exact added ▸ consecutive
    · intro before event past
      rw [log, List.prefix_concat_iff] at past
      rcases past with same | past
      · obtain ⟨rfl, rfl⟩ := List.append_inj' same rfl |>.imp id (fun e => (List.cons.inj e).1)
        exact ⟨tracks.queue, tracks.consecutive⟩
      · exact tracks.observed before event past
    · intro before update id pending past
      rw [log, List.prefix_concat_iff] at past
      rcases past with same | past
      · obtain ⟨rfl, same⟩ := List.append_inj' same rfl
        exact fresh update id (by simpa using (congrArg (List.map Event.what) same).symm)
      · exact tracks.sends before update id pending past
  · exact added ▸ nextSeq
  · exact added ▸ connected
  · exact memo
  · exact added ▸ low
  · exact live
  · exact idle

theorem counts_eq {s : Running} (tracks : Tracks setting s) (id : Value) :
    (ledger s.2.log).counts id =
      (ackedSeq id).filter fun n => s.1.pending.getLast?.any (n ≤ ·.seq) := by
  rw [Ledger.counts, ← tracks.queue]

theorem acked_pending {s : Running} (tracks : Tracks setting s) (id : Value) :
    (s.1.acked id).pending = ((ledger s.2.log).add (.call (.onAck id))).unacked := by
  rw [unacked_acked, counts_eq tracks, ← tracks.queue]
  unfold acked
  cases safe : ackedSeq id with
  | none => rfl
  | some n =>
    rcases List.eq_nil_or_concat' s.1.pending with none | ⟨earlier, last, ends⟩
    · simp [none, fromFuture, prune]
    · by_cases future : last.seq < n
      · have above : ¬ n ≤ last.seq := by omega
        simp [ends, fromFuture, Option.filter, future, above]
      · have within : n ≤ last.seq := by omega
        simp [ends, fromFuture, Option.filter, future, within, prune]

theorem onAck_tracks {s : Running} (tracks : Tracks setting s) (id : Value) :
    Tracks setting (quiet (s.1.acked id), { s.2.note ⟨.call (.onAck id), s.1.pending⟩ with
      live := (quiet (s.1.acked id)).timer.toList }) := by
  have kept : (s.1.acked id).nextSeq = s.1.nextSeq ∧ (s.1.acked id).connected = s.1.connected ∧
      (s.1.acked id).timer = s.1.timer ∧ Memoized setting.merge (s.1.acked id) ∧
      Consecutive (ledger s.2.log).issued (s.1.acked id).pending := by
    unfold acked
    split
    · split
      · exact ⟨rfl, rfl, rfl, tracks.memo, tracks.consecutive⟩
      · exact ⟨rfl, rfl, rfl, fun _ cached => by simp [prune] at cached,
          consecutive_filter tracks.consecutive _⟩
    · exact ⟨rfl, rfl, rfl, tracks.memo, tracks.consecutive⟩
  obtain ⟨nextSeq, connected, timer, memo, consecutive⟩ := kept
  refine tracks.next rfl (acked_pending tracks id) consecutive (nextSeq.trans tracks.nextSeq)
    (connected.trans tracks.connected) memo ?_ rfl ?_ (fun _ _ other => by simp at other)
  · intro n mem
    rcases List.mem_append.mp mem with old | new
    · exact tracks.low n old
    · -- an id that counts is not above the highest seq queued
      rw [counts_eq tracks, Option.mem_toList] at new
      obtain ⟨_, within⟩ := Option.mem_filter_iff.mp new
      obtain ⟨last, ends, low⟩ := (Option.any_eq_true _ _).mp within
      have low : n ≤ last.seq := of_decide_eq_true low
      have top := consecutive_last tracks.consecutive ends (List.mem_of_getLast? ends)
      have issued : ((ledger s.2.log).add (.call (.onAck id))).issued = (ledger s.2.log).issued := rfl
      omega
  · intro armed
    simp only [quiet] at armed ⊢
    split_ifs at armed with empty
    · simp at armed
    · refine ⟨?_, fun none => empty (by simp [none])⟩
      rw [timer] at armed
      exact connected.trans (tracks.idle armed).1

structure Answered (setting : Setting) (acks : List Value) (s t : Running) : Prop where
  tracks : Tracks setting t
  connected : t.1.connected = s.1.connected
  timer : t.1.timer = if t.1.pending = [] then none else s.1.timer
  empty : s.1.pending = [] → t.1.pending = []
  last : ∀ last, s.1.pending.getLast? = some last →
    if ∃ id ∈ acks, ackedSeq id = some last.seq then t.1.pending = []
    else t.1.pending.getLast? = some last

theorem timer_eq {s : Running} (tracks : Tracks setting s) :
    s.1.timer = if s.1.pending = [] then none else s.1.timer := by
  split_ifs with empty
  · cases timer : s.1.timer with
    | none => rfl
    | some handle => exact absurd empty (tracks.idle (by rw [timer]; rfl)).2
  · rfl

theorem acked_last {issued : Nat} (consecutive : Consecutive issued self.pending) {last : Pending}
    (ends : self.pending.getLast? = some last) (id : Value) :
    if ackedSeq id = some last.seq then (self.acked id).pending = []
    else (self.acked id).pending.getLast? = some last := by
  unfold acked
  cases safe : ackedSeq id with
  | none => simpa using ends
  | some n =>
    by_cases future : last.seq < n
    · have other : n ≠ last.seq := by omega
      simp [fromFuture, ends, future, other]
    · by_cases same : n = last.seq
      · have covered : ∀ p ∈ self.pending, p.seq ≤ last.seq := fun p mem => by
          have := consecutive_last consecutive ends mem
          omega
        simpa [fromFuture, ends, same, prune] using covered
      · have above : n < last.seq := by omega
        obtain ⟨earlier, pending⟩ := List.getLast?_eq_some_iff.mp ends
        simp [fromFuture, future, same, prune, pending, above]

theorem acked_empty (empty : self.pending = []) (id : Value) : (self.acked id).pending = [] := by
  unfold acked
  split
  · split
    · exact empty
    · simp [prune, empty]
  · exact empty

theorem deliver_ends {acks : List Value} {s : Running} (tracks : Tracks setting s) :
    Ends (deliver setting acks) (fun _ => Answered setting acks s) (fun _ => False) s := by
  induction acks generalizing s with
  | nil =>
    refine ⟨tracks, rfl, timer_eq tracks, id, fun last ends => ?_⟩
    simpa using ends
  | cons id rest ih =>
    simp only [deliver, ends_bind, ends_note]
    apply onAck_ends setting (by exact tracks.live) fun armed => (tracks.idle armed).2
    refine (ih (onAck_tracks tracks id)).mono (fun _ t answered => ?_) fun _ => False.elim
    obtain ⟨_, connected, timer⟩ := acked_keeps s.1 id
    refine ⟨answered.tracks, answered.connected.trans connected, ?_, ?_, ?_⟩
    · rw [answered.timer]
      split_ifs with empty
      · rfl
      · have kept : (s.1.acked id).pending ≠ [] := fun none => empty (answered.empty none)
        simp [quiet, kept, timer]
    · exact fun empty => answered.empty (acked_empty empty id)
    · intro last ends
      have first := acked_last tracks.consecutive ends id
      by_cases same : ackedSeq id = some last.seq
      · rw [if_pos same] at first
        rw [if_pos ⟨id, List.mem_cons_self, same⟩]
        exact answered.empty first
      · rw [if_neg same] at first
        simpa [same] using answered.last last first

theorem send_ends {s : Running} (tracks : Tracks setting s) {update : Bytes} {id : Nat}
    (fresh : Fresh setting s.2.log update id) {post : Unit → Running → Prop} {raised : Running → Prop}
    (returns : ∀ t, (setting.reply s.2.log update id).throws.isSome = false →
      Answered setting (setting.reply s.2.log update id).acks s t → post () t)
    (throws : ∀ t, (setting.reply s.2.log update id).throws.isSome = true →
      Answered setting (setting.reply s.2.log update id).acks s t → raised t) :
    Ends (send setting update id) post raised s := by
  have noted : Tracks setting (s.1, s.2.note ⟨.send update id, s.1.pending⟩) := by
    refine tracks.next rfl tracks.queue tracks.consecutive tracks.nextSeq tracks.connected
      tracks.memo tracks.low tracks.live tracks.idle fun other n same => ?_
    obtain ⟨rfl, rfl⟩ := Happened.send.inj same
    exact fresh
  simp only [send, ends_bind, ends_get, ends_note]
  refine (deliver_ends noted).mono (fun _ t answered => ?_) fun _ => False.elim
  have answered : Answered setting (setting.reply s.2.log update id).acks s t :=
    ⟨answered.tracks, answered.connected, answered.timer, answered.empty, answered.last⟩
  cases ended : (setting.reply s.2.log update id).throws with
  | none => exact returns t (by rw [ended]; rfl) answered
  | some e => exact throws t (by rw [ended]; rfl) answered

theorem flush_ends {s : Running} (tracks : Tracks setting s) (connected : s.1.connected = true)
    {last : Pending} (ends : s.1.pending.getLast? = some last)
    {post : Unit → Running → Prop} {raised : Running → Prop}
    (fails : ∀ e, mergeTail setting.merge s.1.updates = .error e → raised s)
    (returns : ∀ tail t, mergeTail setting.merge s.1.updates = .ok tail →
      (setting.reply s.2.log tail last.seq).throws.isSome = false →
      Answered setting (setting.reply s.2.log tail last.seq).acks s t → post () t)
    (throws : ∀ tail t, mergeTail setting.merge s.1.updates = .ok tail →
      (setting.reply s.2.log tail last.seq).throws.isSome = true →
      Answered setting (setting.reply s.2.log tail last.seq).acks s t → raised t) :
    Ends (flush (options setting)) post raised s := by
  obtain ⟨self, w⟩ := s
  simp only [flush, ends_bind, ends_this]
  rw [connected, ends]
  simp only [ends_bind]
  apply mergedTail_ends tracks.memo
  · intro tail merged
    have memo : Memoized setting.merge { self with tailCache := some tail } := fun other cached => by
      obtain rfl := Option.some.inj cached
      exact merged
    have cached : Tracks setting ({ self with tailCache := some tail }, w) :=
      { tracks with memo := memo }
    have fresh : Fresh setting w.log tail last.seq := by
      refine ⟨tracks.connected.symm.trans connected, last, ?_, rfl, ?_⟩
      · rw [← tracks.queue]; exact ends
      · rw [← tracks.queue]; exact merged
    apply send_ends cached fresh
    · exact fun t returned answered => returns tail t merged returned
        ⟨answered.tracks, answered.connected, answered.timer, answered.empty, answered.last⟩
    · exact fun t thrown answered => throws tail t merged thrown
        ⟨answered.tracks, answered.connected, answered.timer, answered.empty, answered.last⟩
  · exact fails

/-- Nothing that is queued while connected waits without a timer. -/
def Resends (s : Running) : Prop :=
  s.1.connected = true → s.1.pending ≠ [] → s.1.timer.isSome

theorem armed_iff {s : Running} (tracks : Tracks setting s) : Armed s ↔ Resends s := by
  unfold Armed Resends
  rw [← tracks.connected, tracks.live]
  cases timer : s.1.timer with
  | none => simp
  | some handle =>
    have idle := tracks.idle (by rw [timer]; rfl)
    simpa using idle

theorem answered_resends {acks : List Value} {s t : Running} (answered : Answered setting acks s t)
    (resends : Resends s) : Resends t := by
  intro connected left
  rw [answered.timer, if_neg left]
  exact resends (answered.connected.symm.trans connected) fun none => left (answered.empty none)

theorem flush_nothing {s : Running} (nothing : s.1.connected = false ∨ s.1.pending.getLast? = none)
    {post : Unit → Running → Prop} {raised : Running → Prop} (there : post () s) :
    Ends (flush (options setting)) post raised s := by
  simp only [flush, ends_bind, ends_this]
  rcases nothing with offline | empty
  · rw [offline]
    exact there
  · rw [empty]
    cases s.1.connected <;> exact there

theorem flush_keeps {s : Running} (tracks : Tracks setting s) :
    Leaves (flush (options setting)) (fun t => Tracks setting t ∧ (Resends s → Resends t)) s := by
  cases connected : s.1.connected with
  | false => exact flush_nothing (.inl connected) ⟨tracks, id⟩
  | true =>
    cases ends : s.1.pending.getLast? with
    | none => exact flush_nothing (.inr ends) ⟨tracks, id⟩
    | some last =>
      apply flush_ends tracks connected ends
      · exact fun _ _ => ⟨tracks, id⟩
      · exact fun _ t _ _ answered => ⟨answered.tracks, answered_resends answered⟩
      · exact fun _ t _ _ answered => ⟨answered.tracks, answered_resends answered⟩

theorem startTimer_tracks {s : Running} (tracks : Tracks setting s)
    (due : s.1.connected = true ∧ s.1.pending ≠ []) {post : Unit → Running → Prop}
    {raised : Running → Prop} (started : ∀ t, Tracks setting t → Resends t → post () t) :
    Ends (startTimer (options setting)) post raised s := by
  obtain ⟨self, w⟩ := s
  apply startTimer_ends
  · intro armed
    exact started _ tracks fun _ _ => armed
  · intro none
    have live : w.live = [] := by
      have := tracks.live
      rwa [none, Option.toList_none] at this
    refine started _ ?_ fun _ _ => rfl
    exact { tracks with live := by simp [live], idle := fun _ => due }

def Keeps (setting : Setting) (s : Running) (op : Operation) (t : Running) : Prop :=
  Tracks setting t ∧ (Resends s → (Resends t ↔ ¬ Stalls setting s op))

theorem Keeps.of_resends {s t : Running} {op : Operation} (tracks : Tracks setting t)
    (resends : Resends s → Resends t) (free : ¬ Stalls setting s op) : Keeps setting s op t :=
  ⟨tracks, fun armed => iff_of_true (resends armed) free⟩

theorem enqueue_keeps {s : Running} (tracks : Tracks setting s) (update : Bytes) :
    Leaves (perform setting (.enqueue update)) (Keeps setting s (.enqueue update)) s := by
  obtain ⟨self, w⟩ := s
  have free : ¬ Stalls setting (self, w) (.enqueue update) := id
  have pushed : Tracks setting ({ self with
      pending := self.pending ++ [⟨self.nextSeq, update⟩]
      nextSeq := self.nextSeq + 1
      tailCache := none }, w.note ⟨.call (.enqueue update), self.pending⟩) := by
    refine tracks.next rfl ?_ ?_ ?_ tracks.connected (fun _ cached => by simp at cached) ?_
      tracks.live (fun armed => ⟨(tracks.idle armed).1, by simp⟩) (fun _ _ other => by simp at other)
    · rw [unacked_enqueued tracks.low, ← tracks.queue, ← tracks.nextSeq]
    · have first : self.nextSeq = (ledger w.log).issued + 1 := tracks.nextSeq
      rw [first]
      exact consecutive_push tracks.consecutive update
    · exact congrArg (· + 1) tracks.nextSeq
    · exact fun id mem => Nat.le_succ_of_le (tracks.low id mem)
  simp only [perform, call, enqueue, ends_bind, ends_note, ends_assign, ends_this, ends_ite]
  split_ifs with connected
  · apply startTimer_tracks pushed ⟨connected, by simp⟩
    intro t started armed
    exact (flush_keeps started).mono
      (fun _ u kept => .of_resends kept.1 (fun _ => kept.2 armed) free)
      fun u kept => .of_resends kept.1 (fun _ => kept.2 armed) free
  · have idle : Resends ({ self with
        pending := self.pending ++ [⟨self.nextSeq, update⟩]
        nextSeq := self.nextSeq + 1
        tailCache := none }, w.note ⟨.call (.enqueue update), self.pending⟩) :=
      fun online => absurd online connected
    exact (flush_keeps pushed).mono
      (fun _ u kept => .of_resends kept.1 (fun _ => kept.2 idle) free)
      fun u kept => .of_resends kept.1 (fun _ => kept.2 idle) free

theorem ack_keeps {s : Running} (tracks : Tracks setting s) (id : Value) :
    Leaves (perform setting (.onAck id)) (Keeps setting s (.onAck id)) s := by
  have free : ¬ Stalls setting s (.onAck id) := fun stalls => stalls
  have acks := onAck_tracks tracks id
  simp only [perform, call, ends_bind, ends_note]
  apply onAck_ends setting (by exact tracks.live) fun armed => (tracks.idle armed).2
  refine .of_resends acks (fun resends connected left => ?_) free
  have kept : (s.1.acked id).pending ≠ [] := left
  obtain ⟨_, same, timer⟩ := acked_keeps s.1 id
  simp only [quiet, List.isEmpty_iff, kept, ↓reduceIte, timer]
  exact resends (same.symm.trans connected) fun none => kept (acked_empty none id)

theorem disconnect_keeps {s : Running} (tracks : Tracks setting s) :
    Leaves (perform setting .onDisconnect) (Keeps setting s .onDisconnect) s := by
  obtain ⟨self, w⟩ := s
  simp only [perform, call, onDisconnect, ends_bind, ends_note, ends_assign]
  apply stopTimer_live setting (by exact tracks.live)
  refine .of_resends ?_ (fun _ connected => by simp at connected) id
  exact tracks.next rfl tracks.queue tracks.consecutive tracks.nextSeq rfl tracks.memo tracks.low rfl
    (fun armed => by simp at armed) (fun _ _ other => by simp at other)

theorem tick_keeps {s : Running} (tracks : Tracks setting s) :
    Leaves (perform setting .onTick) (Keeps setting s .onTick) s := by
  have ticked : Tracks setting (s.1, s.2.note ⟨.call .onTick, s.1.pending⟩) :=
    tracks.next rfl tracks.queue tracks.consecutive tracks.nextSeq tracks.connected tracks.memo
      tracks.low tracks.live tracks.idle (fun _ _ other => by simp at other)
  simp only [perform, call, onTick, ends_bind, ends_note, ends_this, ends_ite]
  split_ifs with nothing
  · exact .of_resends ticked id id
  · exact (flush_keeps ticked).mono (fun _ u kept => .of_resends kept.1 kept.2 id)
      fun u kept => .of_resends kept.1 kept.2 id

theorem destroy_keeps {s : Running} (tracks : Tracks setting s) :
    Leaves (perform setting .destroy) (Keeps setting s .destroy) s := by
  obtain ⟨self, w⟩ := s
  simp only [perform, call, destroy, ends_bind, ends_note, ends_assign]
  apply stopTimer_live setting (by exact tracks.live)
  refine .of_resends ?_ (fun _ connected => by simp at connected) id
  refine tracks.next rfl ?_ ?_ tracks.nextSeq rfl (fun _ cached => by simp at cached) tracks.low rfl
    (fun armed => by simp at armed) (fun _ _ other => by simp at other)
  · simp [Ledger.add, Ledger.unacked]
  · exact ⟨Nat.zero_le _, by simp⟩

def replaying (self : ReliableSync) (w : World) : Running :=
  ({ self with connected := true }, w.note ⟨.call .onConnect, self.pending⟩)

theorem replaying_tracks (tracks : Tracks setting (self, w)) : Tracks setting (replaying self w) :=
  tracks.next rfl tracks.queue tracks.consecutive tracks.nextSeq rfl tracks.memo tracks.low
    tracks.live (fun armed => ⟨rfl, (tracks.idle armed).2⟩) (fun _ _ other => by simp at other)

theorem unarmed_offline (tracks : Tracks setting (self, w)) (offline : self.connected = false) :
    self.timer = none := by
  cases timer : self.timer with
  | none => rfl
  | some handle =>
    have idle := (tracks.idle (by rw [timer]; rfl)).1
    exact absurd (idle.symm.trans offline) (by simp)

theorem stalls_unmerged {last : Pending} {e : JsError} (ends : self.pending.getLast? = some last)
    (failed : mergeTail setting.merge self.updates = .error e) :
    Stalls setting (self, w) .onConnect ↔ self.connected = false := by
  simp only [Stalls, failed, and_true]
  exact ⟨fun stalls => stalls.1, fun offline => ⟨offline, last, ends⟩⟩

theorem stalls_merged {last : Pending} {tail : Bytes} (ends : self.pending.getLast? = some last)
    (merged : mergeTail setting.merge self.updates = .ok tail) :
    Stalls setting (self, w) .onConnect ↔ self.connected = false ∧
      (setting.reply (replaying self w).2.log tail last.seq).throws.isSome = true ∧
      ∀ id ∈ (setting.reply (replaying self w).2.log tail last.seq).acks,
        ackedSeq id ≠ some last.seq := by
  simp only [Stalls, merged]
  constructor
  · rintro ⟨offline, other, same, lost⟩
    obtain rfl := Option.some.inj (same.symm.trans ends)
    exact ⟨offline, lost⟩
  · rintro ⟨offline, lost⟩
    exact ⟨offline, last, ends, lost⟩

theorem replayed_again {t : Running} (connected : self.connected = true) (tracks : Tracks setting t)
    (resends : Resends (replaying self w) → Resends t) : Keeps setting (self, w) .onConnect t := by
  refine .of_resends tracks (fun armed => resends fun _ => armed connected) ?_
  rintro ⟨offline, _⟩
  exact absurd (connected.symm.trans offline) (by simp)

theorem replay_unmerged (tracks : Tracks setting (self, w)) {last : Pending} {e : JsError}
    (ends : self.pending.getLast? = some last)
    (failed : mergeTail setting.merge self.updates = .error e) :
    Keeps setting (self, w) .onConnect (replaying self w) := by
  have online := replaying_tracks tracks
  cases connected : self.connected with
  | true => exact replayed_again connected online id
  | false =>
    have left : self.pending ≠ [] := fun none => by simp [none] at ends
    refine ⟨online, fun _ => iff_of_false (fun armed => ?_) fun free => free ?_⟩
    · have := armed rfl left
      simp [replaying, unarmed_offline tracks connected] at this
    · exact (stalls_unmerged ends failed).mpr connected

theorem replay_returned {last : Pending} {tail : Bytes} {t : Running}
    (ends : self.pending.getLast? = some last)
    (merged : mergeTail setting.merge self.updates = .ok tail)
    (returned : (setting.reply (replaying self w).2.log tail last.seq).throws.isSome = false)
    (tracks : Tracks setting t) (connected : t.1.connected = true) :
    Leaves (do
      let self ← this
      if self.hasPending then startTimer (options setting))
      (Keeps setting (self, w) .onConnect) t := by
  have free : ¬ Stalls setting (self, w) .onConnect := by
    rw [stalls_merged ends merged]
    rintro ⟨_, thrown, _⟩
    exact absurd (thrown.symm.trans returned) (by simp)
  simp only [ends_bind, ends_this, ends_ite]
  split_ifs with waiting
  · have due : t.1.pending ≠ [] := fun none => by simp [hasPending, none] at waiting
    apply startTimer_tracks tracks ⟨connected, due⟩
    exact fun u started armed => .of_resends started (fun _ => armed) free
  · have empty : t.1.pending = [] := by simpa [hasPending] using waiting
    exact .of_resends tracks (fun _ _ some => absurd empty some) free

/- The send threw: unless an ack it delivered emptied the queue, nothing resends. -/
theorem replay_thrown (tracks : Tracks setting (self, w)) {last : Pending} {tail : Bytes} {t : Running}
    (ends : self.pending.getLast? = some last)
    (merged : mergeTail setting.merge self.updates = .ok tail)
    (thrown : (setting.reply (replaying self w).2.log tail last.seq).throws.isSome = true)
    (answered : Answered setting (setting.reply (replaying self w).2.log tail last.seq).acks
      (replaying self w) t) : Keeps setting (self, w) .onConnect t := by
  cases connected : self.connected with
  | true => exact replayed_again connected answered.tracks (answered_resends answered)
  | false =>
    have emptied := answered.last last ends
    refine ⟨answered.tracks, fun _ => ?_⟩
    rw [stalls_merged ends merged]
    split_ifs at emptied with covered
    · refine iff_of_true (fun _ some => absurd emptied some) ?_
      rintro ⟨_, _, lost⟩
      obtain ⟨id, mem, covers⟩ := covered
      exact lost id mem covers
    · refine iff_of_false (fun armed => ?_) fun free => free ?_
      · have some : t.1.pending ≠ [] := fun none => by simp [none] at emptied
        have := armed answered.connected some
        rw [answered.timer, if_neg some] at this
        simp [replaying, unarmed_offline tracks connected] at this
      · exact ⟨connected, thrown, fun id mem covers => covered ⟨id, mem, covers⟩⟩

theorem connect_keeps {s : Running} (tracks : Tracks setting s) :
    Leaves (perform setting .onConnect) (Keeps setting s .onConnect) s := by
  obtain ⟨self, w⟩ := s
  have online := replaying_tracks tracks
  simp only [perform, call, onConnect, ends_bind, ends_note, ends_assign]
  cases ends : self.pending.getLast? with
  | none =>
    have empty : self.pending = [] := List.getLast?_eq_none_iff.mp ends
    have free : ¬ Stalls setting (self, w) .onConnect := by
      rintro ⟨_, last, some, _⟩
      exact absurd (ends.symm.trans some) (by simp)
    refine flush_nothing (.inr ends) ?_
    simp only [ends_this, hasPending, empty, List.length_nil, Nat.lt_irrefl, decide_false,
      Bool.false_eq_true, ↓reduceIte]
    exact .of_resends (by simpa [replaying, empty] using online) (fun _ _ left => absurd rfl left) free
  | some last =>
    apply flush_ends online rfl ends
    · exact fun e failed => replay_unmerged tracks ends failed
    · exact fun tail t merged returned answered =>
        replay_returned ends merged returned answered.tracks answered.connected
    · exact fun tail t merged thrown answered => replay_thrown tracks ends merged thrown answered

theorem perform_keeps {s : Running} (tracks : Tracks setting s) (op : Operation) :
    Keeps setting s op (after (perform setting op) s) := by
  refine leaves_iff.mp ?_
  cases op with
  | enqueue update => exact enqueue_keeps tracks update
  | onAck id => exact ack_keeps tracks id
  | onConnect => exact connect_keeps tracks
  | onDisconnect => exact disconnect_keeps tracks
  | onTick => exact tick_keeps tracks
  | destroy => exact destroy_keeps tracks

theorem run_concat (ops : List Operation) (op : Operation) :
    run setting (ops ++ [op]) = after (perform setting op) (run setting ops) := by
  simp [run]

theorem start_tracks : Tracks setting start where
  queue := rfl
  consecutive := ⟨Nat.le_refl 0, rfl⟩
  observed before event past := by simp [start] at past
  sends before update id queue past := by simp [start] at past
  nextSeq := rfl
  connected := rfl
  memo _ cached := by simp [start, ReliableSync.initial] at cached
  low _ mem := by simp [start, ledger, Ledger.initial] at mem
  live := rfl
  idle armed := by simp [start, ReliableSync.initial] at armed

theorem run_tracks (ops : List Operation) : Tracks setting (run setting ops) := by
  induction ops using List.reverseRecOn with
  | nil => exact start_tracks
  | append_singleton ops op ih =>
    rw [run_concat]
    exact (perform_keeps ih op).1

/-- In every run the queue is the unacked tail, and every send carries just that. -/
theorem transmits_unacked_tail (setting : Setting) (ops : List Operation) :
    Exact setting (run setting ops) :=
  (run_tracks ops).toExact

theorem step_armed (ops : List Operation) (op : Operation) (armed : Armed (run setting ops)) :
    Armed (run setting (ops ++ [op])) ↔ ¬ Stalls setting (run setting ops) op := by
  rw [armed_iff (run_tracks _), run_concat]
  exact (perform_keeps (run_tracks ops) op).2 ((armed_iff (run_tracks ops)).mp armed)

/-- The timer is right throughout a run exactly when no replay of the run stalls. -/
theorem armed_iff_never_stalls (setting : Setting) (ops : List Operation) :
    (∀ done, done <+: ops → Armed (run setting done)) ↔
      ∀ done op, done ++ [op] <+: ops → ¬ Stalls setting (run setting done) op := by
  constructor
  · intro always done op past
    have before : done <+: ops := (List.prefix_append done [op]).trans past
    exact (step_armed done op (always done before)).mp (always _ past)
  · intro never done past
    induction done using List.reverseRecOn with
    | nil =>
      have begun : Tracks setting start := start_tracks
      exact (armed_iff begun).mpr fun connected => by simp [start, ReliableSync.initial] at connected
    | append_singleton done op ih =>
      have before : done <+: ops := (List.prefix_append done [op]).trans past
      exact (step_armed done op (ih before)).mpr (never done op past)

theorem refused_replay_unarmed : ¬ ∀ (setting : Setting) (ops : List Operation),
    Armed (run setting ops) := by
  intro always
  have armed := always ⟨fun _ => .ok [], 1000, fun _ _ _ => ⟨[], some "closed"⟩⟩
    [.enqueue [0, 0], .onConnect]
  have offered : (ledger (run ⟨fun _ => .ok [], 1000, fun _ _ _ => ⟨[], some "closed"⟩⟩
      [.enqueue [0, 0], .onConnect]).2.log).connected = true := rfl
  exact armed.1.mpr ⟨offered, List.cons_ne_nil _ _⟩ rfl

end Yrby.Retransmission
