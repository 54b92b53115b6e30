import Yrby.Reference.Crate
import Yrby.Protocol

/- Applying an update that the crate refuses half-way (apply_update and
   handle_sync_message of lib.rs). The crate integrates block by block; the transaction
   is dropped on the error, and a dropped transaction commits. -/
namespace Yrby.PartialApply
open Causal Document Wire Yrs Protocol

section
variable {σ ι E : Type} {step : σ → ι → Except E σ}

/-- Steps one after another, and nothing undone when one of them fails. -/
def runSteps (step : σ → ι → Except E σ) : σ → List ι → σ × Except E Unit
  | s, [] => (s, .ok ())
  | s, i :: rest =>
    match step s i with
    | .error e => (s, .error e)
    | .ok s' => runSteps step s' rest

/-- What is left after the steps: the rest is done only where none of them failed. -/
def committed (finish : σ → σ) : σ × Except E Unit → σ × Except E Unit
  | (s, .error e) => (s, .error e)
  | (s, .ok _) => (finish s, .ok ())

theorem runSteps_keeps {kept : σ → Prop}
    (keeps : ∀ s i s', kept s → step s i = .ok s' → kept s') {s : σ} (steps : List ι)
    (start : kept s) : kept (runSteps step s steps).1 := by
  induction steps generalizing s with
  | nil => exact start
  | cons i rest ih =>
    rw [runSteps]
    cases taken : step s i with
    | error e => exact start
    | ok s' => exact ih (keeps s i s' start taken)

/-- Some step is taken and a later one fails. -/
def FailsLater (step : σ → ι → Except E σ) (s : σ) (steps : List ι) : Prop :=
  ∃ first rest s' e, steps = first :: rest ∧ step s first = .ok s' ∧
    (runSteps step s' rest).2 = .error e

theorem failed_cases {s : σ} {steps : List ι} {e : E} (failed : (runSteps step s steps).2 = .error e) :
    (runSteps step s steps).1 = s ∨ FailsLater step s steps := by
  cases steps with
  | nil => exact Or.inl rfl
  | cons first rest =>
    rw [runSteps] at failed ⊢
    cases taken : step s first with
    | error e' => exact Or.inl rfl
    | ok s' =>
      rw [taken] at failed
      exact Or.inr ⟨first, rest, s', e, rfl, taken, failed⟩

end

/-- What a document holds, whether or not a failed apply went before. -/
@[ext] structure Held where
  integrated : Set Block
  deletes : Set ID
  parked : Set Block
  parkedDeletes : Set ID

/-- apply_update in steps: the blocks it comes to whose dependencies are there, in order,
    and after them deletions and the parked remainder. -/
structure Stepwise (y : Yrs) where
  held : y.Doc → Held
  queue : y.Doc → y.Update → List Block
  integrate : y.Doc → Block → Except String y.Doc
  finish : y.Doc → y.Update → y.Doc

variable {y : Yrs} (s : Stepwise y)

structure Stepwise.Laws : Prop where
  applies : ∀ doc u, y.applyUpdate doc u =
    committed (s.finish · u) (runSteps s.integrate doc (s.queue doc u))
  /-- Only a block that the document lacks is integrated, and then it is there. -/
  lacks : ∀ doc u first rest, s.queue doc u = first :: rest →
    first.id ∉ keys (s.held doc).integrated
  takes : ∀ doc u first rest doc', s.queue doc u = first :: rest →
    s.integrate doc first = .ok doc' → first.id ∈ keys (s.held doc').integrated
  keeps : ∀ doc b doc', s.integrate doc b = .ok doc' →
    keys (s.held doc).integrated ⊆ keys (s.held doc').integrated

/-- Block for block, clock for clock and byte for byte as it was. -/
structure Unchanged (doc doc' : y.Doc) : Prop where
  held : s.held doc' = s.held doc
  stateVector : y.stateVector doc' = y.stateVector doc
  encoded : y.encodeStateAsUpdateV1 doc' .default = y.encodeStateAsUpdateV1 doc .default

def RefusedLater (doc : y.Doc) (u : y.Update) : Prop := FailsLater s.integrate doc (s.queue doc u)

/-- A call that raises leaves the document as it was. -/
def Restores {A : Type} (doc : y.Doc) (outcome : y.Doc × Except String A) : Prop :=
  ∀ e, outcome.2 = .error e → Unchanged s doc outcome.1

variable {s}

theorem Unchanged.refl (doc : y.Doc) : Unchanged s doc doc := ⟨rfl, rfl, rfl⟩

theorem refused_later (laws : s.Laws) {doc : y.Doc} {u : y.Update} (later : RefusedLater s doc u) :
    (∃ e, (y.applyUpdate doc u).2 = .error e) ∧ ¬ Unchanged s doc (y.applyUpdate doc u).1 := by
  obtain ⟨first, rest, doc', e, queued, taken, failed⟩ := later
  have ran : runSteps s.integrate doc (s.queue doc u) = runSteps s.integrate doc' rest := by
    rw [queued, runSteps, taken]
  have applied := laws.applies doc u
  rw [ran] at applied
  have stays : first.id ∈ keys (s.held (runSteps s.integrate doc' rest).1).integrated := by
    apply runSteps_keeps (fun t b t' there went => laws.keeps t b t' went there)
    exact laws.takes doc u first rest doc' queued taken
  generalize runSteps s.integrate doc' rest = outcome at *
  obtain ⟨left, result⟩ := outcome
  obtain rfl : result = .error e := failed
  rw [applied]
  refine ⟨⟨e, rfl⟩, fun same => laws.lacks doc u first rest queued ?_⟩
  rw [← same.held]
  exact stays

theorem apply_restores (laws : s.Laws) (doc : y.Doc) (u : y.Update) :
    Restores s doc (y.applyUpdate doc u) ↔ ¬ RefusedLater s doc u := by
  constructor
  · intro restores later
    obtain ⟨⟨e, failed⟩, changed⟩ := refused_later laws later
    exact changed (restores e failed)
  · intro never e failed
    rw [laws.applies] at failed ⊢
    generalize ran : runSteps s.integrate doc (s.queue doc u) = outcome at *
    obtain ⟨left, result⟩ := outcome
    cases result with
    | ok _ => exact absurd failed (by simp [committed])
    | error e' =>
      rcases failed_cases (congrArg Prod.snd ran) with same | later
      · obtain rfl : left = doc := by rw [← same, ran]
        exact Unchanged.refl _
      · exact absurd later never

theorem docApplyUpdate_restores (laws : s.Laws) (doc : y.Doc) (bytes : Bytes) :
    Restores s doc (docApplyUpdate y doc bytes) ↔
      ∀ u, y.decodeV1 bytes = .ok u → ¬ RefusedLater s doc u := by
  unfold docApplyUpdate
  cases decoded : y.decodeV1 bytes with
  | error e =>
    constructor
    · intro _ u failed
      simp at failed
    · exact fun _ _ _ => Unchanged.refl doc
  | ok u => simpa using apply_restores laws doc u

theorem restores_map {A B : Type} {doc : y.Doc} {outcome : y.Doc × Except String A} {f : A → B} :
    Restores s doc (outcome.1, outcome.2.map f) ↔ Restores s doc outcome := by
  unfold Restores
  cases outcome.2 <;> simp [Except.map]

theorem handleSyncMessage_restores (doc : y.Doc) {data payload rest : Bytes}
    (carries : y.messageDecode data = .ok (.sync (.syncStep2 payload), rest) ∨
      y.messageDecode data = .ok (.sync (.update payload), rest)) :
    Restores s doc (handleSyncMessage y doc data) ↔ Restores s doc (docApplyUpdate y doc payload) := by
  unfold handleSyncMessage
  rcases carries with decoded | decoded
  · rw [decoded]
    exact restores_map
  · rw [decoded]
    exact restores_map

/-- A call that raises restores the document exactly where no block of the update had been
    integrated before the one that was refused. -/
theorem failed_apply_restores (laws : s.Laws) (doc : y.Doc) :
    (∀ bytes, Restores s doc (docApplyUpdate y doc bytes) ↔
      ∀ u, y.decodeV1 bytes = .ok u → ¬ RefusedLater s doc u) ∧
    ∀ data payload rest, (y.messageDecode data = .ok (.sync (.syncStep2 payload), rest) ∨
        y.messageDecode data = .ok (.sync (.update payload), rest)) →
      (Restores s doc (handleSyncMessage y doc data) ↔
        ∀ u, y.decodeV1 payload = .ok u → ¬ RefusedLater s doc u) := by
  refine ⟨docApplyUpdate_restores laws doc, fun data payload rest carries => ?_⟩
  rw [handleSyncMessage_restores doc carries]
  exact docApplyUpdate_restores laws doc payload

section
open Reference

def heldOf (r : Replica) : Held :=
  ⟨asSet r.integrated, asSet r.deletes, asSet r.parked, asSet r.parkedDeletes⟩

/- A reference document holds no shared types, so no block of it can be a parent. -/
def integrateBlock (r : Replica) (b : Block) : Except String Replica :=
  if b.parent.isSome then .error "invalid parent" else .ok (r.apply ⟨[b], []⟩)

def queueOf (r : Replica) (u : Delta) : List Block :=
  u.blocks.filter fun b => metBy r.integrated b && !decide (b.id ∈ r.ids)

def refusingApply (r : Replica) (u : Delta) : Replica × Except String Unit :=
  committed (Replica.apply · u) (runSteps integrateBlock r (queueOf r u))

def refusing : Yrs := { crate with applyUpdate := refusingApply }

def refusingSteps : Stepwise refusing where
  held := heldOf
  queue := queueOf
  integrate := integrateBlock
  finish := Replica.apply

theorem queued {r : Replica} {u : Delta} {first : Block} {rest : List Block}
    (queue : queueOf r u = first :: rest) :
    Met r.state.ids first ∧ first.id ∉ r.state.ids := by
  have mem : first ∈ queueOf r u := by simp [queue]
  have passes := (List.mem_filter.mp mem).2
  simp only [Bool.and_eq_true, Bool.not_eq_true', decide_eq_false_iff_not] at passes
  exact ⟨metBy_iff.mp passes.1, fun held => passes.2 (Replica.mem_ids.mpr held)⟩

theorem integrateBlock_ok {r r' : Replica} {b : Block} (ok : integrateBlock r b = .ok r') :
    r' = r.apply ⟨[b], []⟩ := by
  unfold integrateBlock at ok
  split at ok
  · simp at ok
  · exact (Except.ok.inj ok).symm

theorem refusing_laws : refusingSteps.Laws where
  applies _ _ := rfl
  lacks _ _ _ _ queue := (queued queue).2
  takes r u first rest r' queue ok := by
    obtain rfl := integrateBlock_ok ok
    have step := Replica.apply_integrates r ⟨[first], []⟩
    change first.id ∈ (r.apply ⟨[first], []⟩).state.ids
    rw [step.ids]
    change key first ∈ _
    exact closure_step (Or.inr (by simp [Delta.content]))
      (met_mono subset_closure (queued queue).1)
  keeps r b r' ok := by
    obtain rfl := integrateBlock_ok ok
    exact (Replica.apply_integrates r ⟨[b], []⟩).ids_grow

def holding : Replica := .after [⟨[typed 1 0 none], []⟩]

def spoilt : Bytes := encodeDelta ⟨[typed 1 1 (some ⟨1, 0⟩), ⟨⟨2, 0⟩, none, none, some ⟨1, 0⟩⟩], []⟩

theorem garbage_restores : Restores refusingSteps holding (docApplyUpdate refusing holding [1]) := by
  apply ((failed_apply_restores refusing_laws holding).1 [1]).mpr
  intro u decoded
  have failed : refusing.decodeV1 [1] = .error "failed to decode update" := rfl
  rw [failed] at decoded
  simp at decoded

theorem spoilt_applied : (docApplyUpdate refusing holding spoilt).2 = .error "invalid parent" := rfl

theorem spoilt_grows : refusing.stateVector (docApplyUpdate refusing holding spoilt).1 ≠
    refusing.stateVector holding := by
  have before : (refusing.stateVector holding).get 1 = 1 := by decide +kernel
  have after : (refusing.stateVector (docApplyUpdate refusing holding spoilt).1).get 1 = 2 := by
    decide +kernel
  intro same
  rw [same, before] at after
  simp at after

theorem spoilt_not_restored :
    ¬ Restores refusingSteps holding (docApplyUpdate refusing holding spoilt) ∧
    ¬ Restores refusingSteps holding (handleSyncMessage refusing holding (syncFrame 2 spoilt)) := by
  have kept : ¬ Restores refusingSteps holding (docApplyUpdate refusing holding spoilt) :=
    fun restores => spoilt_grows (restores _ spoilt_applied).stateVector
  have carries : refusing.messageDecode (syncFrame 2 spoilt) = .ok (.sync (.update spoilt), []) :=
    rfl
  refine ⟨kept, fun restores => kept ?_⟩
  exact (handleSyncMessage_restores holding (Or.inr carries)).mp restores

end

end Yrby.PartialApply
