import Yrby.Client
import Yrby.DurableLog
import Yrby.Reference.Client

/- The resync exchange: the server asks with a SyncStep1, the session answers, and a
   call handles the answer on the log as it is by then. -/
namespace Yrby.Resync
open Causal Document Wire Yrs Protocol Readiness Effects Session Frames Channel History DurableLog

def Counts (sv : StateVector) (asked : DocState) : Prop :=
  ∀ client clock, (⟨client, clock⟩ : ID) ∈ asked.ids ↔ clock < sv.get client

theorem Counts.cut {sv : StateVector} {asked : DocState} (counts : Counts sv asked) (b : Block) :
    sv.get b.id.client ≤ b.id.clock ↔ b.id ∉ asked.ids := by
  rw [counts b.id.client b.id.clock, Nat.not_lt]

section
variable {js : Yjs} {y : Yrs} {W : Type}

variable {stored : String → List Bytes} {c : Nat}
  {serve : Trace → (action : Action) → Trace × Except String (Reply action)}

/-- A store, a cable and a logger that answer every action and raise nothing. -/
structure Obliging (y : Yrs) (stored : String → List Bytes) (c : Nat)
    (serve : Trace → (action : Action) → Trace × Except String (Reply action)) : Prop where
  serves : ∀ h action, Serves y stored c h action (serve h action).2 (serve h action).1
  answers : ∀ h action, ∃ reply, (serve h action).2 = .ok reply

theorem Obliging.act (obliging : Obliging y stored c serve) (h : Trace) (action : Action) :
    ∃ h' reply, (Program.act action : Handler _).runWith serve h = (h', .ok reply) ∧
      Serves y stored c h action (.ok reply) h' := by
  obtain ⟨reply, answered⟩ := obliging.answers h action
  refine ⟨(serve h action).1, reply, ?_, answered ▸ obliging.serves h action⟩
  rw [Program.runWith_act, ← answered]

theorem Obliging.load (obliging : Obliging y stored c serve) (h : Trace) (key : String) :
    ∃ h' doc, (syncLoadDoc y key).runWith serve h = (h', .ok doc) ∧
      y.view doc = durable y stored h key ∧ durable y stored h' key = durable y stored h key := by
  obtain ⟨h', state, loaded, served⟩ := obliging.act h (.onLoad key)
  obtain ⟨rfl, doc, read, view⟩ := serves_load served
  refine ⟨_, doc, ?_, view, durable_did h c (.onLoad key) (.ok state) key⟩
  rw [syncLoadDoc, Program.runWith_ok loaded, read]
  rfl

theorem Obliging.distribute (obliging : Obliging y stored c serve) (h : Trace) (key encoded : String) :
    ∃ h', (syncDistribute key encoded).runWith serve h = (h', .ok ()) ∧
      durable y stored h' key = durable y stored h key := by
  obtain ⟨h', _, sent, served⟩ := obliging.act h (.broadcast (syncStreamName key) (syncEnvelope encoded))
  obtain rfl : h' = _ := served
  exact ⟨_, sent, durable_did h c (.broadcast _ _) (.ok ()) key⟩

theorem Obliging.record (laws : y.Laws) (obliging : Obliging y stored c serve) (h : Trace)
    (key : String) {update : Bytes} {u : y.Update} (decoded : y.decodeV1 update = .ok u)
    (ready : (durable y stored h key).Ready (y.content u)) :
    ∃ h', (syncRecordChange key update).runWith serve h = (h', .ok ()) ∧
      (durable y stored h' key).Contains (y.content u) := by
  obtain ⟨h', _, changed, served⟩ := obliging.act h (.onChange key update)
  obtain rfl := serves_change served
  obtain ⟨content, carried, contains⟩ := durable_recorded laws decoded ready (.ok ())
  obtain rfl := Option.some.inj ((contentOf_ok decoded).symm.trans carried)
  exact ⟨_, changed, contains⟩

theorem Obliging.transmit (obliging : Obliging y stored c serve) (h : Trace) (key : String)
    (bytes : Bytes) : ∃ h', (syncTransmit bytes).runWith serve h = (h', .ok ()) ∧
      durable y stored h' key = durable y stored h key ∧
      (c, .did (.transmit (syncEnvelope (Base64.strictEncode64 bytes))) (.ok ())) ∈ h' := by
  obtain ⟨h', _, sent, served⟩ :=
    obliging.act h (.transmit (syncEnvelope (Base64.strictEncode64 bytes)))
  obtain rfl : h' = _ := served
  exact ⟨_, sent, durable_did h c (.transmit _) (.ok ()) key, by simp⟩

theorem syncHandleFrame_docFrame {channel : Instance} {key encoded : String} {bytes update : Bytes}
    (hooks : syncValidateRequiredHooks channel = .ok ()) (keyed : syncValidateKey channel = .ok key)
    (frame : IsDocFrame y bytes update) :
    syncHandleFrame y channel encoded bytes = Program.bind (.ofExcept (mergedDocUpdate y bytes)) fun
      | none => .done .noop
      | some update => syncHandleUpdate y key encoded update := by
  simp only [syncHandleFrame, hooks, keyed, Program.ofExcept, Program.bind_def, Program.bind,
    classifyMessage_docFrame frame, msgKindSyncStep1, msgKindUpdate, OfNat.ofNat_ne_one,
    ↓reduceIte]
  rfl

/-- What a call makes of a document frame: it records it or holds it already, or it
    says :gap, leaves the log alone and asks again. -/
structure Judged (y : Yrs) (stored : String → List Bytes) (key : String) (c : Nat) (content : Content)
    (h h' : Trace) (outcome : Outcome) : Prop where
  gap : outcome = .gap ↔ ¬ (durable y stored h key).Ready content
  taken : outcome ≠ .gap → (durable y stored h' key).Contains content
  asked : outcome = .gap → durable y stored h' key = durable y stored h key ∧
    ∃ doc, y.view doc = durable y stored h key ∧
      (c, .did (.transmit (syncEnvelope (Base64.strictEncode64 (syncStep1 y doc)))) (.ok ())) ∈ h'

theorem handleUpdate_judged (laws : y.Laws) (obliging : Obliging y stored c serve) (h : Trace)
    (key encoded : String) {update : Bytes} {u : y.Update} (decoded : y.decodeV1 update = .ok u) :
    ∃ h' outcome, (syncHandleUpdate y key encoded update).runWith serve h = (h', .ok outcome) ∧
      Judged y stored key c (y.content u) h h' outcome := by
  obtain ⟨h₁, doc, loaded, view, same⟩ := obliging.load h key
  obtain ⟨verdict, ok, exact⟩ := updateIsReady_eq laws.toRules decoded (triable laws doc _).ready
  rw [view] at exact
  rw [syncHandleUpdate, Program.runWith_ok loaded, ok]
  cases verdict with
  | false =>
    obtain ⟨h₂, sent, still, asked⟩ := obliging.transmit h₁ key (syncStep1 y doc)
    have unready := exact.not.mp (by simp)
    refine ⟨h₂, .gap, ?_, by simpa using unready, by simp, fun _ => ⟨still.trans same, doc, view, asked⟩⟩
    simp only [Program.ok_bind, Bool.not_false, ↓reduceIte, syncRequestResync, Program.runWith_ok sent]
    rfl
  | true =>
    have ready := exact.mp rfl
    obtain ⟨u', advances, decoded', judged, held⟩ := ready_advances laws ok
    obtain rfl := Except.ok.inj (decoded.symm.trans decoded')
    rw [view] at held
    cases advances with
    | false =>
      obtain ⟨h₂, sent, still⟩ := obliging.distribute h₁ key encoded
      refine ⟨h₂, .applied, ?_, by simpa using ready, fun _ => ?_, by simp⟩
      · simp only [judged, Program.ok_bind, Bool.not_true, Bool.not_false, Bool.false_eq_true,
          ↓reduceIte, Program.runWith_ok sent]
        rfl
      · rw [still, same]
        exact held.mp rfl
    | true =>
      obtain ⟨h₂, changed, contains⟩ := obliging.record laws h₁ key decoded (same ▸ ready)
      obtain ⟨h₃, sent, still⟩ := obliging.distribute h₂ key encoded
      refine ⟨h₃, .recorded, ?_, by simpa using ready, fun _ => still ▸ contains, by simp⟩
      simp only [judged, Program.ok_bind, Bool.not_true, Bool.false_eq_true, ↓reduceIte,
        Program.runWith_ok changed, Program.runWith_ok sent]
      rfl

theorem Obliging.grows {α : Type} (obliging : Obliging y stored c serve) (p : Handler α) (h : Trace) :
    ∃ ext, (p.runWith serve h).1 = h ++ ext := by
  induction p generalizing h with
  | done _ => exact ⟨[], by simp [Program.runWith]⟩
  | raise _ => exact ⟨[], by simp [Program.runWith]⟩
  | perform action next ih =>
    obtain ⟨rest, grown⟩ := ih (serve h action).2 (serve h action).1
    obtain ⟨own, first⟩ : ∃ own, (serve h action).1 = h ++ own := by
      rcases serves_cases (obliging.serves h action) with first | ⟨_, _, _, first⟩ <;> exact ⟨_, first⟩
    exact ⟨own ++ rest, by rw [Program.runWith, grown, first, List.append_assoc]⟩

variable {channel : Instance} {key : String} {before : Trace} {doc : y.Doc}

end

theorem obey_obliging {y : Yrs} (laws : y.Laws) (stored : String → List Bytes) (c : Nat) :
    Obliging y stored c (obey y stored c) where
  serves := obey_serves laws c
  answers _ action := by cases action <;> exact ⟨_, rfl⟩

def room : Instance := ⟨some "doc", true, true, none, false⟩

def opened (replica : Reference.Replica) : State Reference.client Client.Host :=
  Session.construct (⟨replica, 1⟩ : Reference.Tab) none Client.Host.idle

theorem blank_view : Reference.crate.view Reference.crate.newDoc =
    durable Reference.crate (fun _ => []) [] "doc" := rfl

end Yrby.Resync
