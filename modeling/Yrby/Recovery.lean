import Yrby.Agreement
import Yrby.Resync

/- A session in use that gets through to the server once more catches up with the log and
   hands it all that is still in its queue. -/
namespace Yrby.Recovery
open Causal Document Wire Yrs Protocol Serving Readiness Effects ReliableSync Session Frames Channel
open History DurableLog Client Delivery NoLoss Downstream CaughtUp Agreement Resync
open Calls (reached_below)

/-- As delivered, and a session starts on content of the log, is handed content of the log
    as remote, and is told of edits that add something to a document with all they need. -/
def editing (y : Yrs) (js : Yjs) (stored : String → List Bytes) (key : String) : Setting js :=
  { delivered y js key with
    born h doc := Backed (durable y stored h key) [] (js.view doc)
    edits _ doc doc' update := ∃ c, y.contentOf update = some c ∧ ¬ c.IsEmpty ∧
      (js.view doc).Ready c ∧ Integrates (js.view doc) c (js.view doc')
    remote h update := Durable y stored h key update }

/-- All of c is integrated in d, and so is what it needs. -/
structure Holds (d : DocState) (c : Content) : Prop where
  contains : d.Contains c
  met : ∀ b ∈ c.blocks, Met d.ids b

section
variable {d e mine server : DocState} {c : Content} {enqueued pending : List Content}

theorem Holds.grow (holds : Holds d c) (within : Within d e) : Holds e c where
  contains := contains_mono within.1 within.2 holds.contains
  met b mem := met_mono within.1 (holds.met b mem)

theorem holds_edit (ready : d.Ready c) (step : Integrates d c e) : Holds e c where
  contains := step.ready_contains ready
  met b mem := by
    apply met_mono _ (ready.1 b mem)
    rw [step.ids]
    exact Causal.closure_mono subset_rfl Set.subset_union_right

/-- Whatever a document has beyond the server's, the queue stands for: then the server has
    all that the queue needs. -/
theorem queue_ready (backed : Backed server enqueued mine)
    (known : ∀ c ∈ enqueued, server.Contains c ∨ c ∈ pending)
    (holds : ∀ c ∈ pending, Holds mine c) : server.Ready (Content.join pending) := by
  have reached : mine.ids ⊆ Causal.closure server.ids (Content.join pending).blocks := by
    have grounded : Causal.closure ∅ mine.integrated = mine.ids := grounded_closure mine.grounded
    have inside : ∀ b ∈ mine.integrated,
        b.id ∈ server.ids ∨ b ∈ (Content.join pending).blocks := by
      intro b mem
      rcases backed.blocks b (Or.inl mem) with held | ⟨c, queued, carried⟩
      · exact Or.inl held
      · rcases known c queued with contained | waits
        · exact Or.inl (contained.1 ⟨b, carried, rfl⟩)
        · exact Or.inr ⟨c, waits, carried⟩
    rw [← grounded]
    apply Causal.closure_min (Set.empty_subset _)
    intro b mem met
    rcases inside b mem with held | waits
    · exact Causal.subset_closure held
    · exact closure_step waits met
  constructor
  · rintro b ⟨c, waits, carried⟩
    exact met_mono reached ((holds c waits).met b carried)
  · rintro i ⟨c, waits, carried⟩
    exact reached (mine.deletes_integrated ((holds c waits).contains.2 carried))

end

variable {y : Yrs} {stored : String → List Bytes} {key : String} {js : Yjs}
  {holder : Nat → Option Nat} {w : World js} {h : Trace}

theorem editing_traced : Traced y stored key (editing y js stored key) where
  born _ _ born := born
  edits _ _ _ _ edit := by
    obtain ⟨c, carried, _, _, step⟩ := edit
    exact ⟨c, carried, step⟩
  remote _ _ remote := remote
  frames _ _ _ _ frames := frames

theorem reached_holds (laws : y.Laws) (jsLaws : js.Laws y)
    (reached : Delivery.Reached y stored key holder (editing y js stored key) w) {p : Nat}
    {participant : Participant js} (there : w.participants p = some participant) :
    ∀ u ∈ participant.enqueued, ∃ c, y.contentOf u = some c ∧ ¬ c.IsEmpty ∧
      Holds (js.view participant.doc) c := by
  refine reached.every (F := fun _ _ participant => ∀ u ∈ participant.enqueued,
    ∃ c, y.contentOf u = some c ∧ ¬ c.IsEmpty ∧ Holds (js.view participant.doc) c) ?_ ?_ ?_ laws there
  · intro w p doc awareness _ _ u mem
    simp [Participant.fresh] at mem
  · exact fun _ _ _ _ _ _ _ holds => holds
  · intro w p participant input reached there allowed holds u mem
    obtain ⟨content, applies⟩ := takes_applies laws jsLaws editing_traced reached there allowed
    have grows := within_of_integrates applies.step
    have old : u ∈ participant.enqueued → ∃ c, y.contentOf u = some c ∧ ¬ c.IsEmpty ∧
        Holds (js.view (participant.takes input).doc) c := by
      intro was
      obtain ⟨c, carried, some, held⟩ := holds u was
      exact ⟨c, carried, some, held.grow grows⟩
    cases input with
    | transact doc update =>
      have entries : u ∈ participant.enqueued ∨ u = update := by
        simp only [Participant.takes] at mem
        split at mem
        · simpa using mem
        · exact Or.inl mem
      rcases entries with was | rfl
      · exact old was
      · obtain ⟨c, carried, some, ready, step⟩ := allowed
        have memo := (reached_sane jsLaws reached).memo p participant there
        have same : (participant.takes (.transact doc u)).doc = doc :=
          (takes_emits jsLaws _ memo).doc
        rw [same]
        exact ⟨c, carried, some, holds_edit ready step⟩
    | _ => exact old mem

def Quiet (s : Client.Session js) : Prop := s.2.2.faults = []

theorem hand_quiet {s : Client.Session js} (quiet : Quiet s) (frame : Bytes) (id : Option Nat) :
    Quiet (hand s frame id) := by
  simp only [Quiet] at quiet
  simp [Quiet, hand, Host.handed, quiet]

theorem transmit_quiet {s : Client.Session js} (quiet : Quiet s) {frame : Bytes} {id : Option Nat}
    {post : Unit → Client.Session js → Prop} {raised : Client.Session js → Prop} :
    Ends (transmit transport frame id) post raised s ↔ post () (hand s frame id) := by
  unfold Quiet at quiet
  rw [ends_transmit, quiet, if_neg (by simp)]

/- The frame of a local presence can be encoded, if there is one. -/
def Announces (s : Client.Session js) : Prop :=
  ∀ awareness, s.2.1.awareness = some awareness → (js.getLocalState awareness).isSome = true →
    ∃ frame, frameAwareness awareness [js.clientID s.2.1.doc] = .ok frame

def Handed (frame : Bytes) (id : Option Nat) (s : Client.Session js) : Prop :=
  ⟨s.2.2.connection, frame, id⟩ ∈ s.2.2.sent

theorem Handed.hand {s : Client.Session js} {frame : Bytes} {id : Option Nat}
    (handed : Handed frame id s) (frame' : Bytes) (id' : Option Nat) :
    Handed frame id (hand s frame' id') := List.mem_append_left _ handed

theorem hand_handed (s : Client.Session js) (frame : Bytes) (id : Option Nat) :
    Handed frame id (hand s frame id) := by
  simp [Handed, Client.hand, Host.handed]

/-- The session opened the connection it is on: its SyncStep1 went out, and all of its queue. -/
structure Opens (s t : Client.Session js) : Prop where
  asks : Handed (frameSyncStep1 s.2.1.doc) none t
  tail : ∀ last tail, s.1.pending.getLast? = some last →
    mergeTail js.mergeUpdates s.1.updates = .ok tail → Handed (frameUpdate js tail) (some last.seq) t

theorem opens_free (s : Client.Session js) : TimerFree (delivery transport js) (Opens s) where
  start _ _ _ _ opens eq := by
    obtain ⟨_, rfl⟩ := Prod.mk.inj eq
    exact ⟨opens.asks, opens.tail⟩
  stop _ _ _ opens := ⟨opens.asks, opens.tail⟩
  forget _ _ opens := ⟨opens.asks, opens.tail⟩

theorem replay_hands {s t : Client.Session js} (quiet : Quiet t) (same : t.1 = s.1)
    (memo : Memoized js.mergeUpdates s.1) (asks : Handed (frameSyncStep1 s.2.1.doc) none t) :
    Leaves (ReliableSync.onConnect (delivery transport js)) (Opens s) t := by
  obtain ⟨self, world⟩ := t
  obtain rfl : self = s.1 := same
  have armed : ∀ u : Client.Session js, Opens s u → Leaves (do
      let self ← this
      if self.hasPending then startTimer (delivery transport js)) (Opens s) u := by
    intro u opens
    simp only [ends_bind, ends_this, ends_ite]
    split
    · exact startTimer_leaves (opens_free s) opens
    · exact opens
  simp only [ReliableSync.onConnect, ends_bind, ends_assign, flush, ends_this]
  cases ends : s.1.pending.getLast? with
  | none => exact armed _ ⟨asks, fun last tail found => by simp [ends] at found⟩
  | some last =>
    simp only [ends_bind]
    have again : Memoized js.mergeUpdates { s.1 with connected := true } := memo
    apply mergedTail_ends again
    · intro tail merged
      have next : Quiet (({ s.1 with connected := true, tailCache := some tail }, world) :
          Client.Session js) := quiet
      apply (transmit_quiet next).mpr
      apply armed
      refine ⟨Handed.hand asks _ _, fun last' tail' ends' merged' => ?_⟩
      obtain rfl := Option.some.inj (ends.symm.trans ends')
      obtain rfl : tail = tail' := Except.ok.inj (merged.symm.trans merged')
      exact hand_handed _ _ _
    · intro e failed
      refine ⟨asks, fun last' tail _ merged => ?_⟩
      cases failed.symm.trans merged

theorem connect_opens {s : Client.Session js} (quiet : Quiet s) (announces : Announces s)
    (memo : Memoized js.mergeUpdates s.1) : Leaves (Session.onConnect transport) (Opens s) s := by
  have asked := hand_handed s (frameSyncStep1 s.2.1.doc) none
  have next := hand_quiet quiet (frameSyncStep1 s.2.1.doc) none
  simp only [Session.onConnect, ends_bind, ends_core]
  rw [transmit_quiet quiet]
  cases there : s.2.1.awareness with
  | none => exact replay_hands next rfl memo asked
  | some awareness =>
    simp only [ends_ite]
    split
    · rename_i present
      obtain ⟨frame, framed⟩ := announces awareness there present
      simp only [framed, ends_bind]
      rw [transmit_quiet next]
      exact replay_hands (hand_quiet next _ _) rfl memo (asked.hand _ _)
    · exact replay_hands next rfl memo asked

/-- The call that carries a frame of a session, on a channel with both hooks and no cap. -/
def carrying (connection : Nat) (key : String) (e : Sent) : Call :=
  ⟨connection, channel, .receive (envelope e) (some key)⟩

theorem carrying_program (y : Yrs) (connection : Nat) (key : String) (e : Sent) :
    (carrying connection key e).program y =
      (syncHandleFrame y { channel with syncKey := some key } (Base64.toBase64 e.frame) e.frame >>=
        syncSendAck ((envelope e).fetch "id")) := by
  have found : (envelope e).fetch "update" = .str (Base64.toBase64 e.frame) := rfl
  have decoded : Base64.strictDecode64 (Base64.toBase64 e.frame) = some e.frame :=
    Base64.strictDecode64_encode e.frame
  simp only [Call.program, carrying, syncReceive, found, exceedsEncoded, exceedsDecoded, channel,
    decoded, Bool.false_eq_true, ↓reduceIte, Option.some_or]

theorem handleUpdate_returns (encoded : String) (update : Bytes) :
    (syncHandleUpdate y key encoded update).Returns (· ≠ .noop) := by
  apply Program.returns_bind
  intro doc
  apply Program.returns_bind
  intro ready
  split
  · apply Program.returns_bind
    intro _
    exact Outcome.noConfusion
  · apply Program.returns_bind
    intro advances
    split
    · apply Program.returns_bind
      intro _
      exact Outcome.noConfusion
    · apply Program.returns_bind
      intro _
      apply Program.returns_bind
      intro _
      exact Outcome.noConfusion

variable {n connection : Nat}

theorem channel_keyed (valid : key.isEmpty = false) :
    syncValidateKey { channel with syncKey := some key } = .ok key := by
  simp [syncValidateKey, valid]

/-- A call that carries what the log has all the dependencies of takes it and acks it. -/
theorem carried_acked (laws : y.Laws) {e : Sent} {id : Nat} {tail : Bytes} {content : Content}
    (reliable : e.id = some id) (frame : IsDocFrame y e.frame tail)
    (carried : y.contentOf tail = some content) (something : ¬ content.IsEmpty)
    (ready : (durable y stored h key).Ready content) (valid : key.isEmpty = false) :
    (durable y stored (handled y stored n (carrying connection key e) h) key).Contains content ∧
      (n, .did (.transmit (ackEnvelope (.int id))) (.ok ())) ∈
        handled y stored n (carrying connection key e) h := by
  obtain ⟨u, decoded, rfl⟩ := contentOf_some carried
  have obliging := obey_obliging laws stored n
  have before : durable y stored (h ++ [(n, .began (carrying connection key e))]) key =
      durable y stored h key := durable_quiet rfl
  obtain ⟨h', outcome, ran, judged⟩ := handleUpdate_judged laws obliging
    (h ++ [(n, .began (carrying connection key e))]) key (Base64.toBase64 e.frame) decoded
  have noGap : outcome ≠ .gap := fun gap => judged.gap.mp gap (before ▸ ready)
  have taken : outcome = .recorded ∨ outcome = .applied := by
    have noNoop := Program.returns_ran (handleUpdate_returns _ _) ran
    cases outcome with
    | recorded => exact Or.inl rfl
    | applied => exact Or.inr rfl
    | gap => exact absurd rfl noGap
    | noop => exact absurd rfl noNoop
  have merged : mergedDocUpdate y e.frame = .ok (some tail) := by
    rcases mergedDocUpdate_decoded laws.toRules frame decoded with found | ⟨_, empty⟩
    · exact found
    · exact absurd empty something
  have framed : (syncHandleFrame y { channel with syncKey := some key } (Base64.toBase64 e.frame)
      e.frame).runWith (obey y stored n) (h ++ [(n, .began (carrying connection key e))]) =
        (h', .ok outcome) := by
    rw [syncHandleFrame_docFrame rfl (channel_keyed valid) frame, merged]
    exact ran
  have tagged : (envelope e).fetch "id" = .int id := by rw [envelope_id, reliable]
  have whole : handled y stored n (carrying connection key e) h =
      h' ++ [(n, .did (.transmit (ackEnvelope (.int id))) (.ok ()))] := by
    rw [handled, carrying_program, Program.runWith_ok framed, tagged, syncSendAck, if_pos taken]
    rfl
  rw [whole, durable_did]
  exact ⟨judged.taken noGap, by simp⟩

theorem ran_entries (p : Handler Unit) (h : Trace) :
    ∃ ext, (p.runWith (obey y stored n) h).1 = h ++ ext ∧
      ∀ c k u, (c, .recorded k u) ∈ ext → c = n ∧ ∃ reply, (n, .did (.onChange k u) reply) ∈ ext := by
  induction p generalizing h with
  | done _ => exact ⟨[], by simp [Program.runWith], by simp⟩
  | raise _ => exact ⟨[], by simp [Program.runWith], by simp⟩
  | perform action next ih =>
    obtain ⟨rest, grown, entries⟩ := ih (obey y stored n h action).2 (obey y stored n h action).1
    obtain ⟨own, first, mine⟩ : ∃ own, (obey y stored n h action).1 = h ++ own ∧
        ∀ c k u, (c, .recorded k u) ∈ own → c = n ∧ ∃ reply, (n, .did (.onChange k u) reply) ∈ own := by
      cases action with
      | onChange key update =>
        refine ⟨_, rfl, fun c k u mem => ?_⟩
        obtain ⟨rfl, rfl, rfl⟩ : c = n ∧ k = key ∧ u = update := by simpa using mem
        exact ⟨rfl, .ok (), by simp⟩
      | _ => exact ⟨_, rfl, by simp⟩
    refine ⟨own ++ rest, by rw [Program.runWith, grown, first, List.append_assoc], ?_⟩
    intro c k u mem
    rcases List.mem_append.mp mem with old | new
    · obtain ⟨same, reply, there⟩ := mine c k u old
      exact ⟨same, reply, List.mem_append_left _ there⟩
    · obtain ⟨same, reply, there⟩ := entries c k u new
      exact ⟨same, reply, List.mem_append_right _ there⟩

/-- A call that alone asks for what the log has leaves the log alone, and is answered with
    all of it above the clocks it names. -/
theorem asking_answered (laws : y.Laws) {frame : Bytes} {sv : StateVector}
    (decoded : y.messageDecode frame = .ok (.sync (.syncStep1 sv), [])) (valid : key.isEmpty = false) :
    ∃ doc served, y.view doc = durable y stored h key ∧ integratedUpdate y doc sv = .ok served ∧
      durable y stored (handled y stored n (carrying connection key ⟨some connection, frame, none⟩) h) key =
        durable y stored h key ∧
      (n, .did (.transmit (syncEnvelope (Base64.strictEncode64
        (y.messageEncode (.sync (.syncStep2 served)))))) (.ok ())) ∈
        handled y stored n (carrying connection key ⟨some connection, frame, none⟩) h := by
  let call := carrying connection key ⟨some connection, frame, none⟩
  have before : durable y stored (h ++ [(n, .began call)]) key = durable y stored h key :=
    durable_quiet rfl
  have obliging := obey_obliging laws stored n
  obtain ⟨h₁, doc, loaded, view, same⟩ := obliging.load (h ++ [(n, .began call)]) key
  obtain ⟨served, u, integrated, _⟩ := integratedUpdate_spec laws.toRules doc sv
  obtain ⟨h₂, sent, still, answered⟩ := obliging.transmit h₁ key (y.messageEncode (.sync (.syncStep2 served)))
  have kind : classifyMessage y frame = msgKindSyncStep1 := by simp [classifyMessage, decoded, msgKindSyncStep1]
  have reply : (handleSyncMessage y doc frame).2 =
      .ok (0, 0, y.messageEncode (.sync (.syncStep2 served))) := by
    simp [handleSyncMessage, decoded, integrated, Except.map]
  have framed : (syncHandleFrame y { channel with syncKey := some key } (Base64.toBase64 frame)
      frame).runWith (obey y stored n) (h ++ [(n, .began call)]) = (h₂, .ok .noop) := by
    have hooks : syncValidateRequiredHooks { channel with syncKey := some key } = .ok () := rfl
    simp only [syncHandleFrame, hooks, channel_keyed valid, Program.ok_bind, kind, ↓reduceIte]
    rw [Program.runWith_ok loaded, reply, Program.ok_bind, Program.runWith_ok sent]
    rfl
  have whole : handled y stored n call h = h₂ := by
    rw [handled, carrying_program, Program.runWith_ok framed]
    rfl
  refine ⟨doc, served, view.trans before, integrated, ?_, ?_⟩
  · rw [whole, still, same, before]
  · rw [whole]
    exact answered

theorem handled_entries (call : Call) :
    ∃ ext, handled y stored n call h = h ++ (n, .began call) :: ext ∧
      ∀ c k u, (c, .recorded k u) ∈ ext → c = n ∧ ∃ reply, (n, .did (.onChange k u) reply) ∈ ext := by
  obtain ⟨ext, grown, entries⟩ := ran_entries (call.program y) (h ++ [(n, .began call)])
  exact ⟨ext, by rw [handled, grown, List.append_assoc, List.singleton_append], entries⟩

def dropped (participant : Participant js) : Participant js :=
  (participant.takes .disconnect).takes (.fail [])

def reconnected (participant : Participant js) (connection : Nat) : Participant js :=
  (dropped participant).takes (.connect connection)

structure Reconnected (before after : Participant js) (connection : Nat) : Prop where
  memo : Memoized js.mergeUpdates after.session.1
  doc : after.doc = before.doc
  pending : after.pending = before.pending
  enqueued : after.enqueued = before.enqueued
  attached : after.attached = before.attached
  on : after.connection = some connection
  asks : ⟨some connection, frameSyncStep1 before.doc, none⟩ ∈ after.sent
  tail : ∀ last tail, before.pending.getLast? = some last →
    mergeTail js.mergeUpdates before.session.1.updates = .ok tail →
    ⟨some connection, frameUpdate js tail, some last.seq⟩ ∈ after.sent

theorem reconnected_sends (jsLaws : js.Laws y) {participant : Participant js}
    (memo : Memoized js.mergeUpdates participant.session.1)
    (announces : Announces (participant.takes .disconnect).session) (connection : Nat) :
    Reconnected participant (reconnected participant connection) connection := by
  have left := takes_emits jsLaws .disconnect memo
  have calmed := takes_emits jsLaws (.fail []) left.memo
  have emits : Emits (change (.connect connection) (dropped participant).session)
      (reconnected participant connection).session :=
    takes_emits jsLaws (.connect connection) calmed.memo
  have quiet : Quiet (change (.connect connection) (dropped participant).session) := rfl
  have pending : (dropped participant).session.1.pending = participant.session.1.pending :=
    calmed.pending.trans left.pending
  have doc : (dropped participant).session.2.1.doc = participant.doc := calmed.doc.trans left.doc
  have attached : (dropped participant).session.2.1.attached = participant.attached :=
    calmed.attached.trans left.attached
  have opens : Opens (change (.connect connection) (dropped participant).session)
      (reconnected participant connection).session :=
    leaves_iff.mp (connect_opens quiet announces calmed.memo)
  refine ⟨emits.memo, emits.doc.trans doc, emits.pending.trans pending, rfl,
    emits.attached.trans attached, emits.connection, ?_, ?_⟩
  · have asks := opens.asks
    rw [Handed, emits.connection] at asks
    rw [← doc]
    exact asks
  · intro last tail ends merged
    have same : (dropped participant).session.1.updates = participant.session.1.updates := by
      rw [updates, updates, pending]
    have handed := opens.tail last tail (pending ▸ ends) (same ▸ merged)
    rw [Handed, emits.connection] at handed
    exact handed

theorem asks_decoded (laws : y.Laws) (jsLaws : js.Laws y) (doc : js.Doc) :
    ∃ sv, y.messageDecode (frameSyncStep1 doc) = .ok (.sync (.syncStep1 sv), []) ∧
      ∀ client clock, clock < sv.get client → (⟨client, clock⟩ : ID) ∈ (js.view doc).ids := by
  obtain ⟨sv, decodes, counts⟩ := jsLaws.stateVector_counts doc
  have frame : frameSyncStep1 doc = syncFrame 0 (js.encodeStateVector doc) := by
    rw [frameSyncStep1, jsLaws.writeSyncStep1_eq, ← List.append_assoc]
    rfl
  have read := laws.decode_syncFrame (.syncStep1 sv) (js.encodeStateVector doc) [] decodes
  rw [List.append_nil] at read
  exact ⟨sv, frame ▸ read, fun client clock below => (counts client clock).mpr below⟩

/-- A session that is on a connection, has all of the server's document and may have sent
    its queue there. -/
structure Caught (before after : Participant js) (server : DocState) (connection : Nat) : Prop where
  enqueued : after.enqueued = before.enqueued
  pending : after.pending = before.pending
  attached : after.attached = before.attached
  synced : after.synced = true
  within : Within server (js.view after.doc)
  tail : ∀ last tail, before.pending.getLast? = some last →
    mergeTail js.mergeUpdates before.session.1.updates = .ok tail →
    ⟨some connection, frameUpdate js tail, some last.seq⟩ ∈ after.sent

theorem answered_catches_up (jsLaws : js.Laws y) {before after : Participant js}
    {connection : Nat} (reconnected : Reconnected before after connection) {sv : StateVector} {served : Bytes}
    {server : DocState} (covered : ∀ client clock, clock < sv.get client →
      (⟨client, clock⟩ : ID) ∈ (js.view before.doc).ids)
    (content : y.contentOf served = some (diff server.pruned sv))
    (safe : (syncFrame messageYjsSyncStep2 served).length ≤ maxSafeInteger) :
    Caught before (after.takes (.receive (syncFrame messageYjsSyncStep2 served))) server connection := by
  have emits := takes_emits jsLaws (.receive (syncFrame messageYjsSyncStep2 served)) reconnected.memo
  have change := documentChange_syncFrame (syncFrame_isSyncFrame messageYjsSyncStep2 served) safe
    (Or.inl rfl)
  refine ⟨reconnected.enqueued, emits.pending.trans reconnected.pending,
    emits.attached.trans reconnected.attached, ?_, ?_, ?_⟩
  · apply emits.synced.trans
    simp [Client.change, isSyncStep2, change]
  · have same : (after.takes (.receive (syncFrame messageYjsSyncStep2 served))).doc =
        (js.applyUpdate before.doc served).1 := by
      apply emits.doc.trans
      rw [← reconnected.doc]
      simp [Client.change, changedDoc, change, Participant.doc]
    rw [same]
    exact diff_catches_up covered (jsLaws.apply_integrates before.doc served _ content)
  · intro last tail ends merged
    exact sent_grows jsLaws _ reconnected.memo (reconnected.tail last tail ends merged)

section
variable {p k : Nat} {participant : Participant js}

theorem catches_up (laws : y.Laws) (jsLaws : js.Laws y)
    (reached : Delivery.Reached y stored key holder (editing y js stored key) w)
    (there : w.participants p = some participant) (held : holder k = some p) (unused : k ∉ w.used)
    (valid : key.isEmpty = false) (announces : Announces (participant.takes .disconnect).session)
    (safe : ∀ doc sv served, y.view doc = durable y stored w.server.world key →
      integratedUpdate y doc sv = .ok served →
      (syncFrame messageYjsSyncStep2 served).length ≤ maxSafeInteger) :
    ∃ h participants used n caught,
      Ahead y stored key holder (editing y js stored key) w h participants used n ∧
      participants p = some caught ∧ (∀ q, q ≠ p → participants q = w.participants q) ∧
      durable y stored h key = durable y stored w.server.world key ∧
      Caught participant caught (durable y stored w.server.world key) k := by
  obtain ⟨n, below⟩ := reached_below (reached_server reached)
  have memo := (reached_sane jsLaws reached).memo p participant there
  have start : Ahead y stored key holder (editing y js stored key) w w.server.world w.participants
      w.used n := ⟨w.server.tasks, .refl, below⟩
  have left := start.input p participant .disconnect there fun _ => trivial
  have calmed := left.input p _ (.fail []) (Function.update_self ..) fun _ => trivial
  have connected := calmed.input p _ (.connect k) (Function.update_self ..) fun _ =>
    ⟨held, unused, trivial⟩
  have sends := reconnected_sends jsLaws memo announces k
  obtain ⟨sv, decoded, covered⟩ := asks_decoded laws jsLaws participant.doc
  let call := carrying k key ⟨some k, frameSyncStep1 participant.doc, none⟩
  have asked := connected.handled laws call fun _ =>
    .frame held (Function.update_self ..) sends.asks rfl rfl rfl
  obtain ⟨doc, served, view, integrated, same, answered⟩ :=
    @asking_answered y stored key w.server.world n k laws _ sv decoded valid
  rw [laws.encode_syncStep2] at answered
  have short := safe doc sv served view integrated
  obtain ⟨ext, grown, _⟩ := @handled_entries y stored w.server.world n call
  have sentTo : SentTo (handled y stored n call w.server.world) k (syncFrame messageYjsSyncStep2 served) :=
    ⟨n, call, _, .ok (), by rw [grown]; simp, rfl, answered, Base64.fromBase64_encode _⟩
  have caught := asked.input p (reconnected participant k) (.receive (syncFrame messageYjsSyncStep2 served))
    (Function.update_self ..) fun _ => ⟨short, Or.inr ⟨k, sends.on, sentTo⟩⟩
  have content : y.contentOf served = some (diff (durable y stored w.server.world key).pruned sv) := by
    obtain ⟨bytes, u, ok, decodes, carried⟩ := integratedUpdate_spec laws.toRules doc sv
    obtain rfl := Except.ok.inj (integrated.symm.trans ok)
    rw [contentOf_ok decodes, carried, view]
  refine ⟨_, _, _, _, _, caught, Function.update_self .., fun q other => ?_, same,
    answered_catches_up jsLaws sends covered content short⟩
  simp [Function.update_of_ne other]

end

theorem tail_merges (jsLaws : js.Laws y) {updates : List Bytes}
    (decode : ∀ u ∈ updates, ∃ c, y.contentOf u = some c) :
    ∃ tail, mergeTail js.mergeUpdates updates = .ok tail := by
  obtain ⟨contents, carried⟩ := contents_exist decode
  obtain ⟨merged, ok, _⟩ := jsLaws.merge_joins updates contents carried
  unfold mergeTail
  split
  · exact ⟨_, rfl⟩
  · exact ⟨merged, ok⟩

theorem acked_all {enqueued : List Bytes} {self : ReliableSync} {last : Pending}
    (queued : Queued y stored key h enqueued self) (counted : enqueued.length ≤ maxSafeInteger)
    (ends : self.pending.getLast? = some last) : (self.acked (.int last.seq)).pending = [] := by
  obtain ⟨front, rest, rfl, pending, _⟩ := queued.rest
  have seq : last.seq = front.length + rest.length := number_last (pending ▸ ends)
  rw [List.length_append] at counted
  have valid : ackedSeq (.int last.seq) = some last.seq := by
    simp only [ackedSeq, Int.natAbs_natCast]
    rw [if_pos ⟨by omega, by omega⟩]
  have past : self.fromFuture last.seq = false := by simp [fromFuture, ends]
  have beyond : last.seq - front.length = rest.length := by omega
  simp only [ReliableSync.acked, valid, past, Bool.false_eq_true, ↓reduceIte, prune, pending]
  rw [prune_number, beyond, List.drop_length]
  rfl

theorem carrying_recorded (order : InOrder y stored h) {c : Nat} {e : Sent} {tail update : Bytes}
    {reply : Except String Unit} (began : (c, .began (carrying connection key e)) ∈ h)
    (frame : IsDocFrame y e.frame tail) (changed : (c, .did (.onChange key update) reply) ∈ h) :
    update = tail := by
  obtain ⟨before, after, split⟩ := List.append_of_mem changed
  obtain ⟨⟨encoded, bytes, id, received, framed⟩, _⟩ := order.justified before c _ _ after split
  obtain ⟨call, mem, carries, _, _⟩ := received.began
  obtain rfl := order.single c call (carrying connection key e)
    (by rw [split]; exact List.mem_append_left _ mem) began
  obtain rfl := envelope_carries rfl carries
  exact docFrame_unique framed frame

theorem editing_kept (laws : y.Laws) (jsLaws : js.Laws y)
    (reached : Delivery.Reached y stored key holder (editing y js stored key) w) {p : Nat}
    {participant : Participant js} (there : w.participants p = some participant)
    (attached : participant.attached = true) : Kept y stored key w.server.world participant := by
  refine reached_kept laws jsLaws ?_ reached there attached
  rintro h doc doc' update ⟨content, carried, _⟩
  exact ⟨content, carried⟩

/-- What is left of the edits of a session: the document holds it, and the log has all that
    it needs. -/
structure Left (y : Yrs) (stored : String → List Bytes) (key : String) {js : Yjs} (h : Trace)
    (p : Participant js) (front rest : List Bytes) (contents : List Content) : Prop where
  split : p.enqueued = front ++ rest
  carried : rest.map y.contentOf = contents.map some
  durable : ∀ u ∈ front, Durable y stored h key u
  holds : ∀ c ∈ contents, Holds (js.view p.doc) c
  something : ∀ c ∈ contents, ¬ c.IsEmpty
  ready : (History.durable y stored h key).Ready (Content.join contents)

theorem reached_left (laws : y.Laws) (jsLaws : js.Laws y)
    (reached : Delivery.Reached y stored key holder (editing y js stored key) w) {p : Nat}
    {participant : Participant js} (there : w.participants p = some participant)
    (attached : participant.attached = true)
    (kept : Kept y stored key w.server.world participant) :
    ∃ front rest contents, Left y stored key w.server.world participant front rest contents ∧
      participant.pending = number front.length rest := by
  obtain ⟨front, rest, split, pending, durable⟩ := kept.queue.rest
  obtain ⟨contents, carried⟩ := contents_exist fun u mem =>
    kept.decode u (split ▸ List.mem_append_right front mem)
  have edits : ∀ c ∈ contents, ¬ c.IsEmpty ∧ Holds (js.view participant.doc) c := by
    intro c mem
    have listed : some c ∈ rest.map y.contentOf := carried ▸ List.mem_map_of_mem mem
    obtain ⟨u, queued, same⟩ := List.mem_map.mp listed
    obtain ⟨c', carried', something, holds⟩ := reached_holds laws jsLaws reached there u
      (split ▸ List.mem_append_right front queued)
    obtain rfl := Option.some.inj (same.symm.trans carried')
    exact ⟨something, holds⟩
  have backed := (reached_sourced laws jsLaws editing_traced reached there).backed attached
  refine ⟨front, rest, contents, ⟨split, carried, durable, fun c mem => (edits c mem).2,
    fun c mem => (edits c mem).1, queue_ready backed ?_ fun c mem => (edits c mem).2⟩, pending⟩
  intro c queued
  obtain ⟨u, mem, is⟩ := List.mem_filterMap.mp queued
  rw [split] at mem
  rcases List.mem_append.mp mem with old | new
  · obtain ⟨content, same, contains⟩ := durable u old
    exact Or.inl (Option.some.inj (is.symm.trans same) ▸ contains)
  · have listed : some c ∈ contents.map some := carried ▸ is ▸ List.mem_map_of_mem new
    exact Or.inr (by simpa using listed)

theorem join_something {contents : List Content} (some : contents ≠ [])
    (something : ∀ c ∈ contents, ¬ c.IsEmpty) : ¬ (Content.join contents).IsEmpty := by
  obtain ⟨c, rest, rfl⟩ := List.exists_cons_of_ne_nil some
  rintro ⟨blocks, deletes⟩
  apply something c (List.mem_cons_self ..)
  constructor
  · exact Set.eq_empty_of_forall_notMem fun b mem =>
      blocks.subset ⟨c, List.mem_cons_self .., mem⟩
  · exact Set.eq_empty_of_forall_notMem fun i mem =>
      deletes.subset ⟨c, List.mem_cons_self .., mem⟩

/-- What is left in a queue merges to one update, of something that the document holds and
    the log is ready for. -/
theorem Left.tail (jsLaws : js.Laws y) {participant : Participant js} {front rest : List Bytes}
    {contents : List Content} (left : Left y stored key h participant front rest contents)
    (some_ : rest ≠ []) : ∃ tail content, mergeTail js.mergeUpdates rest = .ok tail ∧
      y.contentOf tail = some content ∧ ¬ content.IsEmpty ∧
      (History.durable y stored h key).Ready content ∧ Offered (js.view participant.doc) content := by
  have decode : ∀ u ∈ rest, ∃ c, y.contentOf u = some c := by
    intro u mem
    have listed : y.contentOf u ∈ contents.map some := left.carried ▸ List.mem_map_of_mem mem
    obtain ⟨c, _, same⟩ := List.mem_map.mp listed
    exact ⟨c, same.symm⟩
  obtain ⟨tail, ok⟩ := tail_merges jsLaws decode
  obtain ⟨contents', carried, joined⟩ := mergeTail_joins jsLaws decode ok
  obtain rfl : contents = contents' :=
    List.map_injective_iff.mpr (Option.some_injective _) (left.carried.symm.trans carried)
  have several : contents ≠ [] := by
    intro none
    rw [none] at carried
    exact some_ (List.map_eq_nil_iff.mp carried)
  refine ⟨tail, _, ok, joined, join_something several left.something, left.ready, ?_, ?_⟩
  · rintro b ⟨c, listed, inside⟩
    exact Or.inl ((left.holds c listed).contains.1 ⟨b, inside, rfl⟩)
  · rintro i ⟨c, listed, inside⟩
    exact Or.inl ((left.holds c listed).contains.2 inside)

/-- Who has all of the log, and was offered what a frame carries, has all of the log once the
    call that carries the frame has run. -/
theorem carried_within (laws : y.Laws) {e : Sent} {tail : Bytes} {content : Content}
    (clean : (History.durable y stored h key).NothingParked)
    (order : InOrder y stored (handled y stored n (carrying connection key e) h))
    (frame : IsDocFrame y e.frame tail) (carried : y.contentOf tail = some content) {d : DocState}
    (within : Within (History.durable y stored h key) d) (offered : Offered d content) :
    Within (History.durable y stored (handled y stored n (carrying connection key e) h) key) d := by
  obtain ⟨ext, grown, entries⟩ := @handled_entries y stored h n (carrying connection key e)
  rw [grown] at order ⊢
  have began : (n, .began (carrying connection key e)) ∈
      h ++ (n, .began (carrying connection key e)) :: ext := by simp
  apply offered_all laws _ order clean within
  intro c update content' mem carried'
  have recorded : (c, .recorded key update) ∈ ext := by simpa using mem
  obtain ⟨rfl, reply, changed⟩ := entries c key update recorded
  have is : update = tail := carrying_recorded order began frame
    (List.mem_append_right _ (List.mem_cons_of_mem _ changed))
  obtain rfl := Option.some.inj (carried.symm.trans (is ▸ carried'))
  exact offered

section
variable {p k : Nat} {participant : Participant js}

/-- A session that is caught up hands the server its queue, and then holds what the log
    replays to. -/
theorem hands_over (laws : y.Laws) (jsLaws : js.Laws y)
    (start : hasPending y (replay y (stored key)) = false)
    (reached : Delivery.Reached y stored key holder (editing y js stored key) w)
    (there : w.participants p = some participant) (held : holder k = some p)
    (valid : key.isEmpty = false) (attached : participant.attached = true)
    (counted : participant.enqueued.length ≤ maxSafeInteger)
    (within : Within (durable y stored w.server.world key) (js.view participant.doc))
    (tail : ∀ last tail, participant.pending.getLast? = some last →
      mergeTail js.mergeUpdates participant.session.1.updates = .ok tail →
      ⟨some k, frameUpdate js tail, some last.seq⟩ ∈ participant.sent) :
    ∃ w' settled, Relation.ReflTransGen (Delivery.Step y stored key holder (editing y js stored key)) w w' ∧
      w'.participants p = some settled ∧ (∀ q, q ≠ p → w'.participants q = w.participants q) ∧
      settled.enqueued = participant.enqueued ∧ settled.pending = [] ∧
      settled.attached = true ∧ settled.synced = participant.synced ∧
      Within (durable y stored w'.server.world key) (js.view settled.doc) := by
  have kept := editing_kept laws jsLaws reached there attached
  obtain ⟨front, rest, contents, left, pending⟩ := reached_left laws jsLaws reached there attached kept
  cases ends : participant.pending.getLast? with
  | none => exact ⟨w, participant, .refl, there, fun _ _ => rfl, rfl, List.getLast?_eq_none_iff.mp ends,
      attached, rfl, within⟩
  | some last =>
    have updates : participant.session.1.updates = rest := by
      rw [ReliableSync.updates, ← number_updates front.length rest]
      exact congrArg _ pending
    have queued : rest ≠ [] := by
      rintro rfl
      have nothing : participant.pending = [] := pending
      simp [nothing] at ends
    obtain ⟨merged, content, ok, joined, something, ready, offered⟩ := left.tail jsLaws queued
    have sent := tail last merged ends (updates ▸ ok)
    have frame : IsDocFrame y (frameUpdate js merged) merged := by
      rw [frameUpdate_eq jsLaws]
      exact docFrame_update laws merged
    obtain ⟨n, below⟩ := reached_below (reached_server reached)
    let call := carrying k key ⟨some k, frameUpdate js merged, some last.seq⟩
    -- the call with the tail runs alone, and the session takes its ack
    have begun : Ahead y stored key holder (editing y js stored key) w w.server.world w.participants
        w.used n := ⟨w.server.tasks, .refl, below⟩
    have posted := begun.handled laws call fun _ => .frame held there sent rfl rfl rfl
    obtain ⟨_, acked⟩ := @carried_acked y stored key w.server.world n k laws
      ⟨some k, frameUpdate js merged, some last.seq⟩ last.seq merged _ rfl frame joined something
      ready valid
    have began : (n, .began call) ∈ handled y stored n call w.server.world := by
      obtain ⟨ext, grown, _⟩ := @handled_entries y stored w.server.world n call
      rw [grown]
      simp
    obtain ⟨tasks, steps, _⟩ := posted.input p participant (.ack (.int last.seq)) there
      fun _ => ⟨n, _, .ok (), began, held, acked⟩
    have memo := (reached_sane jsLaws reached).memo p participant there
    have emits := takes_emits jsLaws (.ack (.int last.seq)) memo
    have clean := order_clean laws start (reached_order laws reached)
    have doc : (participant.takes (.ack (.int last.seq))).doc = participant.doc := emits.doc
    refine ⟨_, _, steps, Function.update_self .., fun q other => Function.update_of_ne other .., rfl,
      emits.pending.trans (acked_all kept.queue counted ends), emits.attached.trans attached,
      emits.synced, ?_⟩
    rw [doc]
    exact carried_within laws clean (reached_order laws (reached.trans steps)) frame joined within offered

/-- Where a session can announce its presence, no state of an editing run is a dead end. In
    every such run over a log that starts with nothing parked, a session in use that gets a
    connection of its own again, where its frames are taken, can reach, with what the server
    and the session do anyway, a state where its queue is empty and durable, and where it has
    caught up and holds what the log replays to. -/
theorem always_recoverable (laws : y.Laws) (jsLaws : js.Laws y)
    (start : hasPending y (replay y (stored key)) = false)
    (reached : Delivery.Reached y stored key holder (editing y js stored key) w)
    (there : w.participants p = some participant) (attached : participant.attached = true)
    (held : holder k = some p) (unused : k ∉ w.used) (valid : key.isEmpty = false)
    (announces : Announces (participant.takes .disconnect).session)
    (counted : participant.enqueued.length ≤ maxSafeInteger)
    (safe : ∀ doc sv served, y.view doc = durable y stored w.server.world key →
      integratedUpdate y doc sv = .ok served →
      (syncFrame messageYjsSyncStep2 served).length ≤ maxSafeInteger) :
    ∃ w' settled, Relation.ReflTransGen (Delivery.Step y stored key holder (editing y js stored key)) w w' ∧
      w'.participants p = some settled ∧ (∀ q, q ≠ p → w'.participants q = w.participants q) ∧
      settled.enqueued = participant.enqueued ∧ settled.pending = [] ∧ settled.synced = true ∧
      (∀ u ∈ participant.enqueued, Durable y stored w'.server.world key u) ∧
      Agrees (durable y stored w'.server.world key) (js.view settled.doc) := by
  obtain ⟨h, participants, used, n, caught, ⟨tasks, steps, _⟩, there', others, same, facts⟩ :=
    catches_up laws jsLaws reached there held unused valid announces safe
  have onward := reached.trans steps
  have within : Within (durable y stored h key) (js.view caught.doc) := same ▸ facts.within
  have sent : ∀ last tail, caught.pending.getLast? = some last →
      mergeTail js.mergeUpdates caught.session.1.updates = .ok tail →
      ⟨some k, frameUpdate js tail, some last.seq⟩ ∈ caught.sent := by
    intro last tail ends merged
    have queue : caught.session.1.updates = participant.session.1.updates :=
      congrArg (List.map Pending.update) facts.pending
    exact facts.tail last tail (facts.pending ▸ ends) (queue ▸ merged)
  obtain ⟨w', settled, more, there'', others', enqueued, empty, attached', synced, all⟩ :=
    hands_over laws jsLaws start onward there' held valid (facts.attached.trans attached)
      (facts.enqueued ▸ counted) within sent
  have final := onward.trans more
  have kept := editing_kept laws jsLaws final there'' attached'
  have backed := (reached_sourced laws jsLaws editing_traced final there'').backed attached'
  refine ⟨w', settled, steps.trans more, there'', fun q other => (others' q other).trans (others q other),
    enqueued.trans facts.enqueued, empty, synced.trans facts.synced, ?_,
    kept_agrees kept empty backed all⟩
  rw [← facts.enqueued, ← enqueued]
  exact queue_durable kept empty

end

theorem empty_unique {replica : Reference.Replica} (nothing : replica.state = .empty) :
    replica = .empty := by
  have none {A : Type} {l : List A} (no : asSet l = ∅) : l = [] :=
    List.eq_nil_iff_forall_not_mem.mpr fun a mem => no.subset mem
  have integrated := none (congrArg DocState.integrated nothing)
  have deletes := none (congrArg DocState.deletes nothing)
  have parked := none (congrArg DocState.parked nothing)
  have parkedDeletes := none (congrArg DocState.parkedDeletes nothing)
  cases replica
  subst integrated deletes parked parkedDeletes
  rfl

def unsent : Participant Reference.client := (Participant.fresh (blank : Reference.client.Doc) none).takes keystroke

theorem unsent_reaches : ∃ w, Delivery.Reached Reference.crate (fun _ => []) "doc" ofWriter
      (editing Reference.crate Reference.client (fun _ => []) "doc") w ∧
    w.participants 0 = some unsent ∧ w.used = [] ∧ w.server.world = [] := by
  have nothing : Reference.client.view blank = DocState.empty := Reference.Replica.state_empty
  have born : (editing Reference.crate Reference.client (fun _ => []) "doc").born [] blank := by
    change Backed _ [] (Reference.client.view blank)
    rw [nothing]
    exact backed_empty _
  have start : Ahead Reference.crate (fun _ => []) "doc" ofWriter
      (editing Reference.crate Reference.client (fun _ => []) "doc") (World.initial _) [] _ [] 0 :=
    ahead_initial
  have step := Reference.Replica.apply_integrates blank.replica character
  have ready : (Reference.client.view blank).Ready character.content := by
    refine ⟨complete_of_met ?_, by rintro i (none : i ∈ asSet []); cases none⟩
    intro b mem i need
    obtain rfl : b = Reference.typed 1 0 none := List.mem_singleton.mp mem
    cases need
  obtain ⟨tasks, reached, _⟩ := (start.construct 0 none rfl born).input 0 (.fresh blank none) keystroke
    (by simp) fun _ => ⟨_, Reference.contentOf_encodeDelta character, by
      rintro ⟨blocks, _⟩
      exact blocks.subset (show Reference.typed 1 0 none ∈ character.content.blocks from
        List.mem_singleton_self _), ready, step⟩
  exact ⟨_, reached, by simp [unsent], rfl, rfl⟩

theorem unsent_recovers : ∃ (w : World Reference.client) (settled : Participant Reference.client),
    w.participants 0 = some settled ∧ settled.enqueued = [Reference.encodeDelta character] ∧
    settled.pending = [] ∧ settled.synced = true ∧
    Durable Reference.crate (fun _ => []) w.server.world "doc" (Reference.encodeDelta character) ∧
    Agrees (durable Reference.crate (fun _ => []) w.server.world "doc") (Reference.client.view settled.doc) := by
  obtain ⟨w, reached, there, unused, world⟩ := unsent_reaches
  obtain ⟨w', settled, _, there', _, enqueued, empty, synced, durable, agrees⟩ :=
    @always_recoverable Reference.crate (fun _ => []) "doc" Reference.client ofWriter w 0 0 unsent
      Reference.crate_laws Reference.client_laws (by decide +kernel) reached there (by decide +kernel)
      (by decide +kernel) (by simp [unused]) rfl (by rintro awareness there; cases there) (by decide +kernel) (by
        intro doc sv served view integrated
        rw [world, ← blank_view] at view
        obtain rfl := empty_unique (view.trans Reference.Replica.state_empty)
        obtain rfl := Except.ok.inj integrated
        exact (by decide +kernel : (syncFrame messageYjsSyncStep2
          (Reference.encodeDelta ⟨[], []⟩)).length ≤ maxSafeInteger))
  have edits : unsent.enqueued = [Reference.encodeDelta character] := by rfl
  exact ⟨w', settled, there', enqueued.trans edits, empty, synced,
    durable _ (by rw [edits]; simp), agrees⟩

end Yrby.Recovery
