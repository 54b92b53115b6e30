import Mathlib.Data.List.Basic
import Yrby.Effects.Stateful
import Yrby.Value
import Yrby.Wire

/- The reliable-delivery core (reliable_sync.ts): an ack-tracked queue of
   unacknowledged local updates, sent as one merged delta. The transport, the
   merge and the timer hooks are injected; W is the state they act on. -/
namespace Yrby
open Document Wire Effects

structure Pending where
  seq : Nat
  update : Bytes
  deriving DecidableEq, Repr

structure ReliableSync where
  pending : List Pending
  nextSeq : Nat
  connected : Bool
  timer : Option Nat
  tailCache : Option Bytes

namespace ReliableSync
variable {W : Type}

/- The handler of an interval is onTick, so setInterval takes only the delay. -/
structure Options (W : Type) where
  send : Bytes → Nat → EStateM JsError (ReliableSync × W) Unit
  merge : List Bytes → Except JsError Bytes
  resendInterval : Nat
  setInterval : Nat → W → Nat × W
  clearInterval : Nat → W → W

def initial : ReliableSync := ⟨[], 1, false, none, none⟩

def hasPending (self : ReliableSync) : Bool := decide (0 < self.pending.length)

abbrev Method (W α : Type) := EStateM JsError (ReliableSync × W) α

def this : Method W ReliableSync := do return (← get).1

def assign (change : ReliableSync → ReliableSync) : Method W Unit := modify fun s => (change s.1, s.2)

/- updates.length === 1 ? updates[0] : merge(updates) -/
def mergeTail (merge : List Bytes → Except JsError Bytes) : List Bytes → Except JsError Bytes
  | [update] => .ok update
  | updates => merge updates

def updates (self : ReliableSync) : List Bytes := self.pending.map Pending.update

variable (opts : Options W)

def mergedTail : Method W Bytes := do
  let self ← this
  match self.tailCache with
  | some tail => return tail
  | none =>
    match mergeTail opts.merge self.updates with
    | .error e => throw e
    | .ok tail =>
      assign fun self => { self with tailCache := some tail }
      return tail

def startTimer : Method W Unit := do
  let self ← this
  if self.timer.isNone then
    modify fun s =>
      let (handle, world) := opts.setInterval opts.resendInterval s.2
      ({ s.1 with timer := some handle }, world)

def stopTimer : Method W Unit := do
  let self ← this
  if let some handle := self.timer then
    modify fun s => (s.1, opts.clearInterval handle s.2)
  assign fun self => { self with timer := none }

/- No-op while disconnected or with nothing pending. -/
def flush : Method W Unit := do
  let self ← this
  match self.connected, self.pending.getLast? with
  | true, some last =>
    let tail ← mergedTail opts
    opts.send tail last.seq
  | _, _ => return ()

def enqueue (update : Bytes) : Method W Unit := do
  assign fun self => { self with
    pending := self.pending ++ [⟨self.nextSeq, update⟩]
    nextSeq := self.nextSeq + 1
    tailCache := none }
  let self ← this
  if self.connected then startTimer opts
  flush opts

/- Number.isSafeInteger(id) && id >= 0 -/
def ackedSeq : Value → Option Nat
  | .int id => if 0 ≤ id ∧ id.natAbs ≤ maxSafeInteger then some id.natAbs else none
  | _ => none

/- An ack above the highest seq in the queue -/
def fromFuture (self : ReliableSync) (id : Nat) : Bool := self.pending.getLast?.any (·.seq < id)

def prune (self : ReliableSync) (id : Nat) : ReliableSync :=
  { self with pending := self.pending.filter (id < ·.seq), tailCache := none }

def onAck (id : Value) : Method W Unit := do
  let self ← this
  match ackedSeq id with
  | none => return ()
  | some id =>
    if self.fromFuture id then return ()
    assign (·.prune id)
    let self ← this
    if self.pending.isEmpty then stopTimer opts

def onConnect : Method W Unit := do
  assign fun self => { self with connected := true }
  flush opts
  let self ← this
  if self.hasPending then startTimer opts

def onDisconnect : Method W Unit := do
  assign fun self => { self with connected := false }
  stopTimer opts

def onTick : Method W Unit := do
  let self ← this
  if !self.connected || self.pending.isEmpty then return ()
  flush opts

def destroy : Method W Unit := do
  assign fun self => { self with connected := false }
  stopTimer opts
  assign fun self => { self with pending := [], tailCache := none }

/- What onAck leaves of the queue: an ack prunes when it is a safe integer and not
   above the last seq queued. -/
def acked (self : ReliableSync) (id : Value) : ReliableSync :=
  match ackedSeq id with
  | some n => if self.fromFuture n then self else self.prune n
  | none => self

/-- The memo is the merge of the tail as it is now. -/
def Memoized (merge : List Bytes → Except JsError Bytes) (self : ReliableSync) : Prop :=
  ∀ tail, self.tailCache = some tail → mergeTail merge self.updates = .ok tail

variable {opts} {self : ReliableSync} {w : W}

@[simp] theorem ends_this {post : ReliableSync → ReliableSync × W → Prop}
    {raised : ReliableSync × W → Prop} {s : ReliableSync × W} :
    Ends this post raised s ↔ post s.1 s := Iff.rfl

@[simp] theorem ends_assign {change : ReliableSync → ReliableSync}
    {post : Unit → ReliableSync × W → Prop} {raised : ReliableSync × W → Prop}
    {s : ReliableSync × W} : Ends (assign change) post raised s ↔ post () (change s.1, s.2) := Iff.rfl

/-- What the timer hooks may do without a fact noticing. -/
structure TimerFree (opts : Options W) (fact : ReliableSync × W → Prop) : Prop where
  start : ∀ self w handle world, fact (self, w) →
    opts.setInterval opts.resendInterval w = (handle, world) →
    fact ({ self with timer := some handle }, world)
  stop : ∀ self w handle, fact (self, w) → fact (self, opts.clearInterval handle w)
  forget : ∀ self w, fact (self, w) → fact ({ self with timer := none }, w)

theorem startTimer_leaves {fact : ReliableSync × W → Prop} (free : TimerFree opts fact)
    (there : fact (self, w)) : Leaves (startTimer opts) fact (self, w) := by
  simp only [startTimer, ends_bind, ends_this, ends_ite, ends_modify]
  split
  · exact free.start self w _ _ there rfl
  · exact there

theorem stopTimer_ends {fact : ReliableSync × W → Prop} (free : TimerFree opts fact)
    (there : fact (self, w)) :
    Ends (stopTimer opts) (fun _ => fact) (fun _ => False) (self, w) := by
  simp only [stopTimer, ends_bind, ends_this]
  split
  · simp only [ends_bind, ends_modify, ends_assign]
    exact free.forget _ _ (free.stop _ _ _ there)
  · exact free.forget _ _ there

theorem mergedTail_ends {post : Bytes → ReliableSync × W → Prop} {raised : ReliableSync × W → Prop}
    (memo : Memoized opts.merge self)
    (returns : ∀ tail, mergeTail opts.merge self.updates = .ok tail →
      post tail ({ self with tailCache := some tail }, w))
    (throws : ∀ e, mergeTail opts.merge self.updates = .error e → raised (self, w)) :
    Ends (mergedTail opts) post raised (self, w) := by
  simp only [mergedTail, ends_bind, ends_this]
  split
  · rename_i tail cached
    have same := returns tail (memo tail cached)
    rwa [← cached] at same
  · split
    · rename_i e failed
      exact throws e failed
    · rename_i tail merged
      exact returns tail merged

theorem flush_leaves {fact : ReliableSync × W → Prop} (memo : Memoized opts.merge self)
    (there : fact (self, w))
    (sends : ∀ tail last, self.connected = true → self.pending.getLast? = some last →
      mergeTail opts.merge self.updates = .ok tail →
      Leaves (opts.send tail last.seq) fact ({ self with tailCache := some tail }, w)) :
    Leaves (flush opts) fact (self, w) := by
  simp only [flush, ends_bind, ends_this]
  split
  · rename_i last connected inside
    simp only [ends_bind]
    exact mergedTail_ends memo (fun tail merged => sends tail last connected inside merged)
      fun _ _ => there
  · exact there

/-- What delivery may do without leaving a relation. -/
structure DeliveryFree (opts : Options W) (related : ReliableSync × W → ReliableSync × W → Prop) : Prop where
  refl : ∀ s, related s s
  trans : ∀ s t u, related s t → related t u → related s u
  memo : ∀ self w tail, related (self, w) ({ self with tailCache := some tail }, w)
  connect : ∀ self w, related (self, w) ({ self with connected := true }, w)
  start : ∀ self w handle world, opts.setInterval opts.resendInterval w = (handle, world) →
    related (self, w) ({ self with timer := some handle }, world)
  send : ∀ tail seq, Within related (opts.send tail seq)

namespace DeliveryFree
variable {related : ReliableSync × W → ReliableSync × W → Prop}

theorem startTimer (free : DeliveryFree opts related) : Within related (startTimer opts) := by
  intro s
  simp only [ReliableSync.startTimer, ends_bind, ends_this, ends_ite, ends_modify]
  split
  · exact free.start s.1 s.2 _ _ rfl
  · exact free.refl s

theorem mergedTail (free : DeliveryFree opts related) : Within related (mergedTail opts) := by
  unfold ReliableSync.mergedTail
  refine Within.bind free.trans free.refl fun self => ?_
  split
  · exact free.refl
  · split
    · exact free.refl
    · exact Within.bind free.trans (fun s => free.memo s.1 s.2 _) fun _ => free.refl

theorem flush (free : DeliveryFree opts related) : Within related (flush opts) := by
  unfold ReliableSync.flush
  refine Within.bind free.trans free.refl fun self => ?_
  split
  · exact Within.bind free.trans free.mergedTail fun tail => free.send tail _
  · exact free.refl

theorem onTick (free : DeliveryFree opts related) : Within related (onTick opts) := by
  unfold ReliableSync.onTick
  refine Within.bind free.trans free.refl fun self => ?_
  split
  · exact free.refl
  · exact free.flush

theorem onConnect (free : DeliveryFree opts related) : Within related (onConnect opts) := by
  unfold ReliableSync.onConnect
  refine Within.bind free.trans (fun s => free.connect s.1 s.2) fun _ => ?_
  refine Within.bind free.trans free.flush fun _ => ?_
  refine Within.bind free.trans free.refl fun self => ?_
  split
  · exact free.startTimer
  · exact free.refl

end DeliveryFree

theorem ackedSeq_some {id : Value} {n : Nat} (acked : ackedSeq id = some n) : id = .int n := by
  unfold ackedSeq at acked
  split at acked
  · split at acked
    · rename_i id safe
      obtain rfl := Option.some.inj acked
      rw [Int.natAbs_of_nonneg safe.1]
    · simp at acked
  · simp at acked

theorem acked_keeps (self : ReliableSync) (id : Value) :
    (self.acked id).nextSeq = self.nextSeq ∧ (self.acked id).connected = self.connected ∧
      (self.acked id).timer = self.timer := by
  unfold acked
  split
  · split <;> exact ⟨rfl, rfl, rfl⟩
  · exact ⟨rfl, rfl, rfl⟩

theorem onAck_leaves {fact : ReliableSync × W → Prop} (free : TimerFree opts fact) {id : Value}
    (there : fact (self.acked id, w)) : Leaves (onAck opts id) fact (self, w) := by
  simp only [onAck, ends_bind, ends_this]
  unfold acked at there
  split
  · rename_i none
    rwa [none] at there
  · rename_i n some
    simp only [some] at there
    split
    · rename_i future
      rwa [if_pos future] at there
    · rename_i past
      rw [if_neg past] at there
      simp only [ends_bind, ends_assign, ends_this, ends_ite]
      split
      · exact (stopTimer_ends free there).mono (fun _ _ left => left) fun _ => False.elim
      · exact there

end ReliableSync

end Yrby
