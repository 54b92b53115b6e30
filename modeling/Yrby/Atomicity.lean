import Yrby.Effects.Snapshots
import Yrby.Readiness

/- The verdicts and encodings of a Y::Doc that other threads update (protocol.rs,
   lib.rs), with the transactions that each call opens. -/
namespace Yrby.Atomicity
open Causal Document Yrs Effects

variable (y : Yrs)

/- doc.transact() and doc.transact_mut(); what is read is read off the document that
   the transaction sees. -/
inductive Transaction where
  | transact
  | transactMut (u : y.Update)

abbrev Opened : Transaction y → Type
  | .transact => y.Doc
  | .transactMut _ => Unit

abbrev Native := Program (Transaction y) (Opened y) String

def serve (doc : y.Doc) : (action : Transaction y) → y.Doc × Except String (Opened y action)
  | .transact => (doc, .ok doc)
  | .transactMut u => y.applyUpdate doc u

def transact : Native y y.Doc := @Program.act (Transaction y) (Opened y) String .transact

def transactMut (u : y.Update) : Native y Unit := @Program.act (Transaction y) (Opened y) String (.transactMut u)

def cleanUpdate (full : Bytes) (sv : StateVector) : Except String Bytes := do
  let update ← y.decodeV1 full
  let clean ← Protocol.applied y y.newDoc update
  return y.encodeStateAsUpdateV1 (y.prunePending clean) sv

/- Pending check and encode share one transaction. -/
def integratedUpdate (sv : StateVector) : Native y Bytes := do
  let doc ← transact y
  if !y.pendingUpdateIsSome doc && !y.pendingDsIsSome doc then
    return y.encodeStateAsUpdateV1 doc sv
  else
    let full := y.encodeStateAsUpdateV1 doc .default
    Program.ofExcept (cleanUpdate y full sv)

def probeReady (update : y.Update) (seed : Bytes) : Except String Bool := do
  let seedUpdate ← y.decodeV1 seed
  let probe ← Protocol.applied y y.newDoc seedUpdate
  let probe ← Protocol.applied y probe update
  return !Protocol.hasPending y probe

def probeAdvances (update : y.Update) (current : Bytes) : Except String Bool := do
  let currentUpdate ← y.decodeV1 current
  let probe ← Protocol.applied y y.newDoc currentUpdate
  let pendingBefore := y.pendingUpdateIsSome probe || y.pendingDsIsSome probe
  if !y.deleteSetIsEmpty update then
    let before := y.encodeStateAsUpdateV1 probe .default
    let probe ← Protocol.applied y probe update
    let after := y.encodeStateAsUpdateV1 probe .default
    return before != after
  else
    let before := y.stateVector probe
    let probe ← Protocol.applied y probe update
    let after := y.stateVector probe
    if !before.same after then return true
    let pendingAfter := y.pendingUpdateIsSome probe || y.pendingDsIsSome probe
    return pendingAfter != pendingBefore

def updateIsReady (updateBytes : Bytes) : Native y Bool := do
  let update ← Program.ofExcept (y.decodeV1 updateBytes)
  let doc ← transact y
  let lowerCovered := (y.stateVector doc).covers (y.updateStateVectorLower update)
  if !lowerCovered then return false
  else
    let seed ← integratedUpdate y .default
    Program.ofExcept (probeReady y update seed)

def encodedAdvances (update : y.Update) : Native y Bool := do
  let doc ← transact y
  let current := y.encodeStateAsUpdateV1 doc .default
  Program.ofExcept (probeAdvances y update current)

def updateAdvancesDoc (updateBytes : Bytes) : Native y Bool := do
  let update ← Program.ofExcept (y.decodeV1 updateBytes)
  let hasDeletes := !y.deleteSetIsEmpty update
  if !hasDeletes then
    let doc ← transact y
    let covered := (y.stateVector doc).covers (y.updateStateVector update)
    if !covered then return true
    else encodedAdvances y update
  else encodedAdvances y update

def compactedStateUpdate : Native y Bytes := integratedUpdate y .default

def handleSyncMessage (data : Bytes) : Native y (Nat × Nat × Bytes) :=
  match y.messageDecode data with
  | .error e => .raise e.message
  | .ok (.sync (.syncStep1 sv), _) => do
    let update ← integratedUpdate y sv
    return (0, 0, y.messageEncode (.sync (.syncStep2 update)))
  | .ok (.sync (.syncStep2 updateBytes), _) => do
    let update ← Program.ofExcept (y.decodeV1 updateBytes)
    transactMut y update
    return (0, 1, [])
  | .ok (.sync (.update updateBytes), _) => do
    let update ← Program.ofExcept (y.decodeV1 updateBytes)
    transactMut y update
    return (0, 2, [])
  | .ok (.awareness _, _) => .done (1, 0, [])
  | .ok (_, _) => .raise "unsupported message type"

def Growing (states : Nat → y.Doc) : Prop :=
  ∀ n, states (n + 1) = states n ∨ ∃ u, states (n + 1) = (y.applyUpdate (states n) u).1

def Grown (doc doc' : y.Doc) : Prop := (y.view doc).ids ⊆ (y.view doc').ids

variable {y}

theorem growing_order (laws : y.Laws) {states : Nat → y.Doc} (growing : Growing y states)
    (n m : Nat) (le : n ≤ m) : Grown y (states n) (states m) := by
  have steps : Monotone fun n => (y.view (states n)).ids := by
    apply monotone_nat_of_le_succ
    intro n
    rcases growing n with same | ⟨u, applied⟩
    · rw [same]
    · rw [applied]
      exact (laws.integrates _ u).ids_grow
  exact steps le

theorem covers_grown (laws : y.Laws) {doc doc' : y.Doc} (grown : Grown y doc doc')
    {sv : StateVector} (covered : (y.stateVector doc).covers sv = true) :
    (y.stateVector doc').covers sv = true := by
  rw [StateVector.covers_iff] at covered ⊢
  intro client
  apply (covered client).trans
  by_contra less
  have held := (laws.stateVector_counts doc client _).mpr (Nat.not_le.mp less)
  exact Nat.lt_irrefl _ ((laws.stateVector_counts doc' client _).mp (grown held))

section
variable {later : y.Doc → y.Doc → Prop}

theorem integratedUpdate_timeless (sv : StateVector) :
    Timeless (serve y) later (integratedUpdate y sv) := by
  apply timeless_once (fun _ => rfl)
  intro doc
  split
  · trivial
  · exact ended_ofExcept _

theorem encodedAdvances_timeless (update : y.Update) :
    Timeless (serve y) later (encodedAdvances y update) :=
  timeless_once (fun _ => rfl) fun _ => ended_ofExcept _

theorem compactedStateUpdate_timeless : Timeless (serve y) later (compactedStateUpdate y) :=
  integratedUpdate_timeless .default

theorem handleSyncMessage_timeless {data : Bytes} {sv : StateVector} {rest : Bytes}
    (asks : y.messageDecode data = .ok (.sync (.syncStep1 sv), rest)) :
    Timeless (serve y) later (handleSyncMessage y data) := by
  unfold handleSyncMessage
  rw [asks]
  exact timeless_bind (integratedUpdate_timeless sv) fun _ => trivial

end

/-- What is covered stays covered, so a later look would have gone on as well. -/
theorem covered_check (laws : y.Laws) {α : Type} {early : Native y α} {tail : Native y α}
    (ended : early.Ended) (sv : StateVector) (whole : Timeless (serve y) (Grown y) tail) :
    Timeless (serve y) (Grown y) (transact y >>= fun doc =>
      if !(y.stateVector doc).covers sv then early else tail) := by
  apply timeless_check (fun _ => rfl) whole
  rintro doc reply same
  obtain rfl : doc = reply := Except.ok.inj same
  cases covered : (y.stateVector doc).covers sv with
  | false =>
    left
    exact ended
  | true =>
    right
    refine ⟨rfl, fun doc' grown => ⟨doc', rfl, ?_⟩⟩
    rw [covers_grown laws grown covered]
    rfl

theorem updateIsReady_timeless (laws : y.Laws) (bytes : Bytes) :
    Timeless (serve y) (Grown y) (updateIsReady y bytes) := by
  apply timeless_ofExcept_bind
  intro update
  apply covered_check laws
  · trivial
  · exact timeless_bind (integratedUpdate_timeless .default) fun _ => ended_ofExcept _

theorem updateAdvancesDoc_timeless (laws : y.Laws) (bytes : Bytes) :
    Timeless (serve y) (Grown y) (updateAdvancesDoc y bytes) := by
  apply timeless_ofExcept_bind
  intro update
  dsimp only
  split
  · apply covered_check laws
    · trivial
    · exact encodedAdvances_timeless update
  · exact encodedAdvances_timeless update

theorem transact_alone {α : Type} (f : y.Doc → Native y α) (doc : y.Doc) :
    (transact y >>= f).runWith (serve y) doc = (f doc).runWith (serve y) doc := rfl

theorem ofExcept_alone {α : Type} (result : Except String α) (doc : y.Doc) :
    (Program.ofExcept result : Native y α).runWith (serve y) doc = (doc, result) := by
  cases result <;> rfl

theorem integratedUpdate_alone (doc : y.Doc) (sv : StateVector) :
    (integratedUpdate y sv).runWith (serve y) doc =
      (doc, Protocol.integratedUpdate y doc sv) := by
  unfold integratedUpdate Protocol.integratedUpdate
  rw [transact_alone]
  split
  · rfl
  · exact ofExcept_alone _ doc

theorem integratedUpdate_bind_alone {α : Type} (doc : y.Doc) (sv : StateVector)
    (f : Bytes → Except String α) :
    (integratedUpdate y sv >>= fun bytes => Program.ofExcept (f bytes)).runWith (serve y) doc =
      (doc, (Protocol.integratedUpdate y doc sv).bind f) := by
  rw [Program.bind_def, Program.runWith_bind, integratedUpdate_alone]
  cases Protocol.integratedUpdate y doc sv with
  | error e => rfl
  | ok bytes => exact ofExcept_alone _ doc

theorem updateIsReady_alone (doc : y.Doc) (bytes : Bytes) :
    ((updateIsReady y bytes).runWith (serve y) doc).2 = Protocol.updateIsReady y doc bytes := by
  unfold updateIsReady Protocol.updateIsReady
  cases y.decodeV1 bytes with
  | error e => rfl
  | ok update =>
    rw [Program.ok_bind, transact_alone]
    change _ = if !(y.stateVector doc).covers (y.updateStateVectorLower update) then .ok false
      else (Protocol.integratedUpdate y doc .default).bind (probeReady y update)
    cases (y.stateVector doc).covers (y.updateStateVectorLower update) with
    | false => rfl
    | true => exact congrArg Prod.snd (integratedUpdate_bind_alone doc .default _)

theorem encodedAdvances_alone (doc : y.Doc) (update : y.Update) :
    ((encodedAdvances y update).runWith (serve y) doc).2 =
      probeAdvances y update (y.encodeStateAsUpdateV1 doc .default) := by
  rw [encodedAdvances, transact_alone, ofExcept_alone]

theorem updateAdvancesDoc_alone (doc : y.Doc) (bytes : Bytes) :
    ((updateAdvancesDoc y bytes).runWith (serve y) doc).2 =
      Protocol.updateAdvancesDoc y doc bytes := by
  unfold updateAdvancesDoc Protocol.updateAdvancesDoc
  cases y.decodeV1 bytes with
  | error e => rfl
  | ok update =>
    rw [Program.ok_bind]
    change _ = if !!y.deleteSetIsEmpty update &&
        !(y.stateVector doc).covers (y.updateStateVector update) then .ok true
      else probeAdvances y update (y.encodeStateAsUpdateV1 doc .default)
    cases y.deleteSetIsEmpty update with
    | false => exact encodedAdvances_alone doc update
    | true =>
      simp only [Bool.not_true, Bool.not_false, Bool.true_and, ↓reduceIte, transact_alone]
      cases (y.stateVector doc).covers (y.updateStateVector update) with
      | false => rfl
      | true => exact encodedAdvances_alone doc update

theorem handleSyncMessage_alone (doc : y.Doc) {data : Bytes} {sv : StateVector} {rest : Bytes}
    (asks : y.messageDecode data = .ok (.sync (.syncStep1 sv), rest)) :
    ((handleSyncMessage y data).runWith (serve y) doc).2 =
      (Protocol.handleSyncMessage y doc data).2 := by
  unfold handleSyncMessage Protocol.handleSyncMessage
  rw [asks]
  have answered := integratedUpdate_bind_alone doc sv fun update =>
    .ok (0, 0, y.messageEncode (.sync (.syncStep2 update)))
  dsimp only
  refine (congrArg Prod.snd answered).trans ?_
  cases Protocol.integratedUpdate y doc sv <;> rfl

/-- Whatever other threads apply meanwhile, a verdict or an encoding is that of one state
    the document had between the start and the end of the call. -/
theorem verdicts_atomic (laws : y.Laws) {states : Nat → y.Doc} (growing : Growing y states)
    (start stop : Nat) :
    (∀ bytes result, Seen (serve y) states stop start (updateIsReady y bytes) result →
      ∃ n, start ≤ n ∧ n ≤ stop ∧ result = Protocol.updateIsReady y (states n) bytes) ∧
    (∀ bytes result, Seen (serve y) states stop start (updateAdvancesDoc y bytes) result →
      ∃ n, start ≤ n ∧ n ≤ stop ∧ result = Protocol.updateAdvancesDoc y (states n) bytes) ∧
    (∀ result, Seen (serve y) states stop start (compactedStateUpdate y) result →
      ∃ n, start ≤ n ∧ n ≤ stop ∧ result = Protocol.compactedStateUpdate y (states n)) ∧
    ∀ data sv rest result, y.messageDecode data = .ok (.sync (.syncStep1 sv), rest) →
      Seen (serve y) states stop start (handleSyncMessage y data) result →
        ∃ n, start ≤ n ∧ n ≤ stop ∧ result = (Protocol.handleSyncMessage y (states n) data).2 := by
  have order := growing_order laws growing
  refine ⟨?_, ?_, ?_, ?_⟩
  · intro bytes result seen
    obtain ⟨n, began, inTime, alone⟩ := seen.one_moment order (updateIsReady_timeless laws bytes)
    exact ⟨n, began, inTime, alone.trans (updateIsReady_alone _ bytes)⟩
  · intro bytes result seen
    obtain ⟨n, began, inTime, alone⟩ := seen.one_moment order (updateAdvancesDoc_timeless laws bytes)
    exact ⟨n, began, inTime, alone.trans (updateAdvancesDoc_alone _ bytes)⟩
  · intro result seen
    obtain ⟨n, began, inTime, alone⟩ := seen.one_moment order (compactedStateUpdate_timeless)
    exact ⟨n, began, inTime, alone.trans (congrArg Prod.snd (integratedUpdate_alone _ .default))⟩
  · intro data sv rest result asks seen
    obtain ⟨n, began, inTime, alone⟩ := seen.one_moment order (handleSyncMessage_timeless asks)
    exact ⟨n, began, inTime, alone.trans (handleSyncMessage_alone _ asks)⟩

def joining : Nat → Reference.Replica
  | 0 => .empty
  | _ => .after [⟨[Reference.typed 1 0 none], []⟩]

def hanging : Bytes := Reference.encodeDelta ⟨[Reference.typed 2 0 (some ⟨1, 0⟩)], []⟩

theorem joining_grows : Growing Reference.crate joining := by
  intro n
  cases n with
  | zero => exact .inr ⟨⟨[Reference.typed 1 0 none], []⟩, rfl⟩
  | succ n => exact .inl rfl

theorem hanging_seen : Seen (serve Reference.crate) joining 1 0
    (updateIsReady Reference.crate hanging) (.ok true) := by
  apply Seen.perform (Nat.le_refl 0) (⟨Nat.le_refl 0, Nat.zero_le 1⟩ : 0 ≤ 0 ∧ 0 ≤ 0 + 1) rfl
  apply Seen.perform (Nat.zero_le 1) (⟨Nat.le_refl 1, by decide⟩ : 1 ≤ 1 ∧ 1 ≤ 1 + 1) rfl
  exact Seen.done (Nat.le_refl 1)

/-- The clocks are checked before the block arrives and the probe is seeded after it. -/
theorem hanging_verdict : ∃ n, 0 ≤ n ∧ n ≤ 1 ∧
    .ok true = Protocol.updateIsReady Reference.crate (joining n) hanging :=
  (verdicts_atomic Reference.crate_laws joining_grows 0 1).1 hanging _ hanging_seen

end Yrby.Atomicity
