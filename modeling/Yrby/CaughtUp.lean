import Yrby.Downstream
import Yrby.NoLoss

/- What the synced flag says. The answer to the SyncStep1 of a connection catches the
   document up with the log; a relayed SyncStep2 raises the flag all the same. -/
namespace Yrby.CaughtUp
open Causal Document Wire Yrs Protocol Serving Effects Session Frames Channel History DurableLog
open Client Delivery NoLoss Downstream

/-- Edits that integrate, and frames as the server sends them: broadcasts at any time,
    the frames of a connection while it is the current one. -/
def delivered (y : Yrs) (js : Yjs) (key : String) : Setting js where
  born _ _ := True
  edits _ doc doc' update := ∃ c, y.contentOf update = some c ∧
    Integrates (js.view doc) c (js.view doc')
  remote _ update := ∃ c, y.contentOf update = some c
  frames h _ participant frame := Broadcast h key frame ∨
    ∃ connection, participant.connection = some connection ∧ SentTo h connection frame

/-- As delivered, but a session takes no relayed SyncStep2 while its flag is down, and
    no new connection while it is up. What the server sends to the connection itself it
    takes at any time, be it the bytes of an earlier broadcast. -/
def ownAnswerFirst (y : Yrs) (js : Yjs) (key : String) : Setting js := { delivered y js key with
  frames h _ participant frame :=
    (Broadcast h key frame ∧ (isSyncStep2 frame = true → participant.synced = true)) ∨
      ∃ connection, participant.connection = some connection ∧ SentTo h connection frame
  connects participant := participant.synced = false }

/-- A call on the connection received a SyncStep1, loaded the log as it was, and sent
    an answer. -/
def Answered (y : Yrs) (h : Trace) (key : String) (connection : Nat) (before : Trace) : Prop :=
  ∃ (c : Nat) (call : Call) (asked answer : String) (bytes : Bytes) (sv : StateVector)
    (state : Option Bytes) (reply : Except String Unit) (after : Trace),
    (c, .began call) ∈ before ∧ call.connection = connection ∧ call.Carries asked bytes ∧
      y.messageDecode bytes = .ok (.sync (.syncStep1 sv), []) ∧
      h = before ++ (c, .did (.onLoad key) (.ok state)) :: after ∧
      (c, .did (.transmit (syncEnvelope answer)) reply) ∈ after

def Within (d e : DocState) : Prop := d.ids ⊆ e.ids ∧ d.deletes ⊆ e.deletes

theorem Within.trans {d e f : DocState} (one : Within d e) (two : Within e f) : Within d f :=
  ⟨one.1.trans two.1, one.2.trans two.2⟩

theorem within_of_integrates {d e : DocState} {c : Content} (step : Integrates d c e) : Within d e :=
  ⟨step.ids_grow, step.deletes_grow⟩

/-- A diff against clocks that a document has brings it all that is integrated. -/
theorem diff_catches_up {mine server mine' : DocState} {sv : StateVector}
    (covered : ∀ client clock, clock < sv.get client → (⟨client, clock⟩ : ID) ∈ mine.ids)
    (step : Integrates mine (diff server.pruned sv) mine') : Within server mine' := by
  have reached : server.ids ⊆ mine'.ids := by
    have grown := (cut_ready (d := server) covered).2
    rw [step.ids]
    exact (Set.subset_union_right.trans grown.ge).trans (closure_mono subset_rfl Set.subset_union_right)
  refine ⟨reached, fun i mem => ?_⟩
  rw [step.deletes]
  exact ⟨Or.inr (Or.inl mem), reached (server.deletes_integrated mem)⟩

variable {y : Yrs} {stored : String → List Bytes} {key : String} {js : Yjs}
  {holder : Nat → Option Nat} {h : Trace}

def Covered (y : Yrs) (js : Yjs) (doc : js.Doc) (frame : Bytes) : Prop :=
  ∀ sv, y.messageDecode frame = .ok (.sync (.syncStep1 sv), []) →
    ∀ client clock, clock < sv.get client → (⟨client, clock⟩ : ID) ∈ (js.view doc).ids

theorem Covered.grow {doc doc' : js.Doc} {frame : Bytes} (covered : Covered y js doc frame)
    (within : Within (js.view doc) (js.view doc')) : Covered y js doc' frame :=
  fun sv decoded client clock below => within.1 (covered sv decoded client clock below)

theorem emitted_covered (laws : y.Laws) (jsLaws : js.Laws y) {doc : js.Doc} {pending : List Pending}
    {e : Sent} (emitted : Emitted doc pending e) : Covered y js doc e.frame := by
  intro sv decoded
  have sync : ∀ (msg : SyncMessage) {payload : Bytes}, y.Carries msg payload →
      e.frame = syncFrame msg.syncType payload → msg = .syncStep1 sv := by
    intro msg payload carries frame
    have read := laws.decode_syncFrame msg payload [] carries
    rw [List.append_nil, ← frame, decoded] at read
    cases read
    rfl
  cases emitted with
  | syncStep1 frame _ =>
    obtain ⟨own, decodes, counts⟩ := jsLaws.stateVector_counts doc
    have framed : e.frame = syncFrame 0 (js.encodeStateVector doc) := by
      rw [frame, frameSyncStep1, jsLaws.writeSyncStep1_eq, ← List.append_assoc]
      rfl
    obtain rfl := SyncMessage.syncStep1.inj (sync (.syncStep1 own) decodes framed)
    exact fun client clock below => (counts client clock).mpr below
  | @awareness payload frame _ =>
    obtain ⟨vector, _, tag, sub, len, tagShape, _, _, framed⟩ := laws.decode_sync_shape _ _ decoded
    have asSync := readVarUint_spells tagShape (sub ++ (len ++ vector)) (Nat.zero_le _)
    have asAwareness := readVarUint_spells (write_spelling messageAwareness)
      (writeVarUint8Array payload) (by decide)
    rw [← framed, frame, asAwareness] at asSync
    cases asSync
  | answer frame _ => exact absurd (sync (.syncStep2 _) rfl frame) (by simp)
  | tail _ _ frame _ =>
    exact absurd (sync (.update _) rfl (frame.trans (frameUpdate_eq jsLaws _))) (by simp)

structure InTouch (y : Yrs) (stored : String → List Bytes) (key : String) {js : Yjs} (h : Trace)
    (p : Participant js) : Prop where
  covered : ∀ e ∈ p.sent, Covered y js p.doc e.frame
  caughtUp : p.synced = true → ∃ connection before, p.connection = some connection ∧
    Answered y h key connection before ∧ Within (durable y stored before key) (js.view p.doc)

theorem Answered.later {connection : Nat} {before : Trace}
    (answered : Answered y h key connection before) (ext : Trace) :
    Answered y (h ++ ext) key connection before := by
  obtain ⟨c, call, asked, answer, bytes, sv, state, reply, after, began, on, carries, decoded, split,
    sent⟩ := answered
  exact ⟨c, call, asked, answer, bytes, sv, state, reply, after ++ ext, began, on, carries, decoded,
    by rw [split, List.append_assoc, List.cons_append], List.mem_append_left _ sent⟩

theorem broadcast_change (laws : y.Laws) (order : InOrder y stored h) {frame : Bytes}
    (safe : frame.length ≤ maxSafeInteger) (broadcast : Broadcast h key frame) :
    documentChange frame = none ∨ ∃ syncType update content,
      documentChange frame = some (syncType, some update) ∧ y.contentOf update = some content := by
  rcases broadcast_frame laws order broadcast with ⟨payload, shape⟩ | ⟨update, doc, content, carried, _⟩
  · exact Or.inl (documentChange_awareness shape)
  · obtain ⟨syncType, change⟩ := docFrame_change laws doc safe
    exact Or.inr ⟨syncType, update, content, change, carried⟩

/-- A frame sent to the connection of a session leaves its document alone, or it
    answers a SyncStep1 the session sent there. -/
theorem direct_change (laws : y.Laws) (order : InOrder y stored h) {p : Participant js}
    {frame : Bytes} {connection : Nat} (safe : frame.length ≤ maxSafeInteger)
    (covered : ∀ e ∈ p.sent, Covered y js p.doc e.frame)
    (owned : ∀ c call, (c, .began call) ∈ h → call.connection = connection →
      call.request = .subscribed key ∨ ∃ e room, e ∈ p.sent ∧
        call.request = .receive (envelope e) room ∧ call.key = some key)
    (sent : SentTo h connection frame) :
    documentChange frame = none ∨ ∃ before syncType update sv,
      Answered y h key connection before ∧ documentChange frame = some (syncType, some update) ∧
      y.contentOf update = some (diff (durable y stored before key).pruned sv) ∧
      ∀ client clock, clock < sv.get client → (⟨client, clock⟩ : ID) ∈ (js.view p.doc).ids := by
  obtain ⟨c, call, encoded, reply, began, on, transmitted, decoded⟩ := sent
  cases transmitted_frame laws order began transmitted decoded with
  | asks shape => exact Or.inl (documentChange_syncStep1 shape)
  | @answers key' asked bytes update sv before after state carries keyed read split began' is content
      answered =>
    rcases owned c call began on with subscribed | ⟨e, room, mem, request, keyed'⟩
    · obtain ⟨_, _, received, _⟩ := carries
      simp [subscribed] at received
    · obtain rfl := Option.some.inj (keyed.symm.trans keyed')
      obtain rfl := envelope_carries request carries
      obtain ⟨answer, reply', replied, _⟩ := answered
      subst is
      obtain ⟨syncType, change⟩ := docFrame_change laws (docFrame_syncStep2 laws update) safe
      exact Or.inr ⟨before, syncType, update, sv, ⟨c, call, asked, answer, e.frame, sv, state, reply',
        after, began', on, carries, read, split, replied⟩, change, content, covered e mem sv read⟩

theorem InTouch.later {p : Participant js} (inTouch : InTouch y stored key h p) (ext : Trace) :
    InTouch y stored key (h ++ ext) p where
  covered := inTouch.covered
  caughtUp synced := by
    obtain ⟨connection, before, on, answered, within⟩ := inTouch.caughtUp synced
    exact ⟨connection, before, on, answered.later ext, within⟩

structure Changed (y : Yrs) (stored : String → List Bytes) (key : String) {js : Yjs} (h : Trace)
    (p : Participant js) (input : Input js) : Prop where
  grows : Within (js.view p.doc) (js.view (change input p.session).2.1.doc)
  caughtUp : (change input p.session).2.1.synced = true → ∃ connection before,
    (change input p.session).2.2.connection = some connection ∧ Answered y h key connection before ∧
      Within (durable y stored before key) (js.view (change input p.session).2.1.doc)

/-- Step lemma: what goes out is covered by the document there is. -/
theorem InTouch.takes (laws : y.Laws) (jsLaws : js.Laws y) {p : Participant js}
    (inTouch : InTouch y stored key h p) (memo : ReliableSync.Memoized js.mergeUpdates p.session.1)
    {input : Input js} (changed : Changed y stored key h p input) :
    InTouch y stored key h (p.takes input) := by
  have emits := takes_emits jsLaws input memo
  refine ⟨fun e mem => ?_, fun synced => ?_⟩
  · rw [Participant.doc, emits.doc]
    obtain ⟨l, sent, kinds⟩ := emits.sent
    rw [Participant.sent, sent, change_sent] at mem
    rcases List.mem_append.mp mem with old | new
    · exact (inTouch.covered e old).grow changed.grows
    · exact emitted_covered laws jsLaws (kinds e new).2
  · rw [Participant.synced, emits.synced] at synced
    rw [Participant.connection, emits.connection, Participant.doc, emits.doc]
    exact changed.caughtUp synced

theorem within_refl (d : DocState) : Within d d := ⟨subset_rfl, subset_rfl⟩

theorem InTouch.grown {p : Participant js} (inTouch : InTouch y stored key h p) {input : Input js}
    (grows : Within (js.view p.doc) (js.view (change input p.session).2.1.doc))
    (synced : (change input p.session).2.1.synced = p.synced)
    (connection : (change input p.session).2.2.connection = p.connection) :
    Changed y stored key h p input := by
  refine ⟨grows, fun up => ?_⟩
  rw [synced] at up
  rw [connection]
  obtain ⟨k, before, on, answered, within⟩ := inTouch.caughtUp up
  exact ⟨k, before, on, answered, within.trans grows⟩

/- A frame that is no SyncStep2 or comes while the flag is up only makes it grow. -/
theorem receive_grows (jsLaws : js.Laws y) {p : Participant js} {frame : Bytes}
    (change : documentChange frame = none ∨ ∃ syncType update content,
      documentChange frame = some (syncType, some update) ∧ y.contentOf update = some content) :
    Within (js.view p.doc) (js.view (changedDoc js frame p.doc)) := by
  rcases change with none | ⟨syncType, update, content, change, carried⟩
  · simp only [changedDoc, none]
    exact within_refl _
  · simp only [changedDoc, change]
    exact within_of_integrates (jsLaws.apply_integrates p.doc update content carried)

variable {w : World js}

theorem changed_allowed (laws : y.Laws) (jsLaws : js.Laws y) {p : Nat} {participant : Participant js}
    (order : InOrder y stored w.server.world) (sane : Sane w key holder)
    (there : w.participants p = some participant)
    (inTouch : InTouch y stored key w.server.world participant) {input : Input js}
    (owner : ∀ k, participant.connection = some k → holder k = some p)
    (allowed : Allowed holder (ownAnswerFirst y js key) w p participant input) :
    Changed y stored key w.server.world participant input := by
  cases input with
  | transact doc update =>
    obtain ⟨c, _, step⟩ := allowed
    exact inTouch.grown (within_of_integrates step) rfl rfl
  | connect connection =>
    refine ⟨within_refl _, fun up => ?_⟩
    have down : participant.synced = false := allowed.2.2
    exact absurd (show participant.synced = true from up) (by simp [down])
  | disconnect => exact ⟨within_refl _, fun up => by simp [change] at up⟩
  | receive frame =>
    obtain ⟨safe, sent⟩ := allowed
    rcases sent with ⟨broadcast, own⟩ | ⟨connection, on, direct⟩
    · have grows := receive_grows (p := participant) jsLaws
        (broadcast_change laws order safe broadcast)
      refine inTouch.grown grows ?_ rfl
      change (participant.synced || isSyncStep2 frame) = participant.synced
      cases step2 : isSyncStep2 frame with
      | false => simp
      | true => simp [own step2]
    · have owned : ∀ c call, (c, .began call) ∈ w.server.world → call.connection = connection →
          call.request = .subscribed key ∨ ∃ e room, e ∈ participant.sent ∧
            call.request = .receive (envelope e) room ∧ call.key = some key := by
        intro c call began at_
        rcases sane.owned c call p began (at_ ▸ owner connection on) with
          subscribed | ⟨participant', e, room, there', mem, _, request, keyed⟩
        · exact Or.inl subscribed
        · obtain rfl := Option.some.inj (there.symm.trans there')
          exact Or.inr ⟨e, room, mem, request, keyed⟩
      rcases direct_change laws order safe inTouch.covered owned direct with
        none | ⟨before, syncType, update, sv, answered, change, content, covered⟩
      · exact inTouch.grown (receive_grows jsLaws (Or.inl none))
          (by simp [Client.change, isSyncStep2, none, Participant.synced]) rfl
      · refine ⟨receive_grows jsLaws (Or.inr ⟨syncType, update, _, change, content⟩), fun _ =>
          ⟨connection, before, on, answered, ?_⟩⟩
        have step := jsLaws.apply_integrates participant.doc update _ content
        simp only [Client.change, changedDoc, change]
        exact diff_catches_up covered step
  | applyRemoteUpdate update =>
    obtain ⟨c, carried⟩ := allowed
    exact inTouch.grown (within_of_integrates (jsLaws.apply_integrates _ update c carried)) rfl rfl
  | _ => exact inTouch.grown (within_refl _) rfl rfl

variable {setting : Setting js}

theorem reached_owner (laws : y.Laws) (jsLaws : js.Laws y)
    (reached : Reached y stored key holder setting w) {p : Nat} {participant : Participant js}
    (there : w.participants p = some participant) :
    ∀ k, participant.connection = some k → holder k = some p := by
  refine reached.every (F := fun _ p participant =>
    ∀ k, participant.connection = some k → holder k = some p) ?_ ?_ ?_ laws there
  · intro w p doc awareness _ _ k on
    simp [Participant.fresh, Participant.connection, Session.construct, Host.idle] at on
  · exact fun _ _ _ _ _ _ _ owner => owner
  · intro w p participant input reached there allowed owner k on
    have emits := takes_emits jsLaws input ((reached_sane jsLaws reached).memo p participant there)
    rw [Participant.connection, emits.connection] at on
    cases input with
    | connect connection => exact Option.some.inj on ▸ allowed.1
    | disconnect => simp [Client.change] at on
    | _ => exact owner k on

theorem reached_inTouch (laws : y.Laws) (jsLaws : js.Laws y)
    (reached : Reached y stored key holder (ownAnswerFirst y js key) w) {p : Nat}
    {participant : Participant js} (there : w.participants p = some participant) :
    InTouch y stored key w.server.world participant := by
  refine reached.every (F := fun h _ participant => InTouch y stored key h participant)
    ?_ ?_ ?_ laws there
  · intro w p doc awareness _ _
    exact ⟨fun e mem => by simp [Participant.fresh, Participant.sent, Session.construct, Host.idle] at mem,
      fun up => by simp [Participant.fresh, Participant.synced, Session.construct] at up⟩
  · exact fun _ ext _ _ _ _ _ inTouch => inTouch.later ext
  · intro w p participant input reached there allowed inTouch
    have sane := reached_sane jsLaws reached
    exact inTouch.takes laws jsLaws (sane.memo p participant there) (changed_allowed laws jsLaws
      (reached_order laws reached) sane there inTouch (reached_owner laws jsLaws reached there) allowed)

/-- When synced means caught up: in every run in which no relayed SyncStep2 reaches a
    session before its own answer, and no transport connects anew while the flag is
    up, a session whose flag is up is connected, and its document has all that was in
    the log as the call that answered its SyncStep1 on that connection loaded it. -/
theorem synced_caught_up (laws : y.Laws) (jsLaws : js.Laws y)
    (reached : Reached y stored key holder (ownAnswerFirst y js key) w) {p : Nat}
    {participant : Participant js} (there : w.participants p = some participant)
    (synced : participant.synced = true) :
    ∃ connection before, participant.connection = some connection ∧
      Answered y w.server.world key connection before ∧
      (durable y stored before key).ids ⊆ (js.view participant.doc).ids ∧
      (durable y stored before key).deletes ⊆ (js.view participant.doc).deletes :=
  (reached_inTouch laws jsLaws reached there).caughtUp synced

def seeded (_ : String) : List Bytes := [Reference.encodeDelta ⟨[Reference.typed 9 0 none], []⟩]

def offline : Reference.client.Doc := (⟨.after [⟨[Reference.typed 1 0 none], []⟩], 1⟩ : Reference.Tab)

def connected : Participant Reference.client := (Participant.fresh offline none).takes (.connect 0)

def channel : Instance := ⟨none, true, true, none, false⟩

theorem connected_reaches (setting : Setting Reference.client) (born : setting.born [] offline)
    (connects : setting.connects (.fresh offline none)) :
    Ahead Reference.crate seeded "doc" ofWriter setting (World.initial _) []
      (Function.update (fun _ => none) 0 (some connected)) [0] 0 := by
  have start : Ahead Reference.crate seeded "doc" ofWriter setting (World.initial _) [] _ [] 0 :=
    ahead_initial
  have on := (start.construct 0 none rfl born).input 0 (.fresh offline none) (.connect 0) (by simp)
    fun _ => ⟨rfl, by simp, connects⟩
  rwa [Function.update_idem] at on

def asking : Call := ⟨0, channel, .receive (envelope ⟨some 0,
  syncFrame 0 (Reference.encodeVector ⟨[(1, 1)]⟩), none⟩) (some "doc")⟩

def asked : Trace := handled Reference.crate seeded 0 asking []

def ownAnswer : Bytes := syncFrame 1 (Reference.encodeDelta ⟨[Reference.typed 9 0 none], []⟩)

def caught : Participant Reference.client := connected.takes (.receive ownAnswer)

theorem asked_eq : asked = [(0, .began asking),
    (0, .did (.onLoad "doc") (.ok (loadState Reference.crate (seeded "doc")))),
    (0, .did (.transmit (syncEnvelope (Base64.strictEncode64 ownAnswer))) (.ok ()))] := by rfl

theorem asked_sentTo : SentTo asked 0 ownAnswer := by
  refine ⟨0, asking, Base64.strictEncode64 ownAnswer, .ok (), ?_, rfl, ?_, Base64.fromBase64_encode _⟩
  · rw [asked_eq]
    simp
  · rw [asked_eq]
    simp

theorem caught_reached : ∃ w : World Reference.client,
    Delivery.Reached Reference.crate seeded "doc" ofWriter
      (ownAnswerFirst Reference.crate Reference.client "doc") w ∧ w.participants 0 = some caught := by
  have down : (Participant.fresh offline none).synced = false := rfl
  have handled := (connected_reaches (ownAnswerFirst Reference.crate Reference.client "doc") trivial
    down).handled Reference.crate_laws asking fun _ =>
      .frame rfl (show _ = some connected by simp) (by decide +kernel) rfl rfl rfl
  obtain ⟨tasks, reached, _⟩ := handled.input 0 connected (.receive ownAnswer) (by simp) fun _ =>
    ⟨by decide +kernel, Or.inr ⟨0, by decide +kernel, asked_sentTo⟩⟩
  exact ⟨_, reached, by simp [caught]⟩

theorem caught_up : ∃ (w : World Reference.client) (before : Trace),
    w.participants 0 = some caught ∧ caught.synced = true ∧ caught.connection = some 0 ∧
    Answered Reference.crate w.server.world "doc" 0 before ∧
    (durable Reference.crate seeded before "doc").ids ⊆ (Reference.client.view caught.doc).ids := by
  obtain ⟨w, reached, there⟩ := caught_reached
  have synced : caught.synced = true := by decide +kernel
  obtain ⟨connection, before, on, answered, ids, _⟩ :=
    synced_caught_up Reference.crate_laws Reference.client_laws reached there synced
  have zero : caught.connection = some 0 := by decide +kernel
  obtain rfl := Option.some.inj (on.symm.trans zero)
  exact ⟨w, before, there, synced, zero, answered, ids⟩

def subscribing : Call := ⟨0, channel, .subscribed "doc"⟩

def subscribed : Trace := handled Reference.crate seeded 0 subscribing []

def opening : Bytes := syncStep1 Reference.crate (replay Reference.crate (seeded "doc"))

def greeted : Participant Reference.client := connected.takes (.receive opening)

def offlineAnswer : Bytes := syncFrame 1 (Reference.encodeDelta ⟨[Reference.typed 1 0 none], []⟩)

def answering : Call :=
  ⟨0, channel, .receive (envelope ⟨some 0, offlineAnswer, none⟩) (some "doc")⟩

def relayed : Trace := handled Reference.crate seeded 1 answering subscribed

def echoed : Participant Reference.client := greeted.takes (.receive offlineAnswer)

theorem subscribed_eq : subscribed = [(0, .began subscribing),
    (0, .did (.streamFrom (syncStreamName "doc") false) (.ok ())),
    (0, .did (.onLoad "doc") (.ok (loadState Reference.crate (seeded "doc")))),
    (0, .did (.transmit (syncEnvelope (Base64.strictEncode64 opening))) (.ok ()))] := by rfl

theorem relayed_eq : relayed = subscribed ++ [(1, .began answering),
    (1, .did (.onLoad "doc") (.ok (loadState Reference.crate (seeded "doc")))),
    (1, .did (.onChange "doc" (Reference.encodeDelta ⟨[Reference.typed 1 0 none], []⟩)) (.ok ())),
    (1, .recorded "doc" (Reference.encodeDelta ⟨[Reference.typed 1 0 none], []⟩)),
    (1, .did (.broadcast (syncStreamName "doc")
      (syncEnvelope (Base64.strictEncode64 offlineAnswer))) (.ok ()))] := by rfl

theorem subscribed_sentTo : SentTo subscribed 0 opening := by
  refine ⟨0, subscribing, Base64.strictEncode64 opening, .ok (), ?_, rfl, ?_, Base64.fromBase64_encode _⟩
  · rw [subscribed_eq]
    simp
  · rw [subscribed_eq]
    simp

theorem relayed_broadcast : Broadcast relayed "doc" offlineAnswer := by
  refine ⟨1, Base64.strictEncode64 offlineAnswer, .ok (), ?_, Base64.fromBase64_encode _⟩
  rw [relayed_eq]
  simp

theorem relayed_unanswered (before : Trace) : ¬ Answered Reference.crate relayed "doc" 0 before := by
  rintro ⟨c, call, text, answer, bytes, sv, state, reply, after, began, _, carries, read, split, _⟩
  have mem : (c, .began call) ∈ relayed := by
    rw [split]
    exact List.mem_append_left _ began
  rw [relayed_eq, subscribed_eq] at mem
  simp at mem
  rcases mem with ⟨_, rfl⟩ | ⟨_, rfl⟩
  · obtain ⟨_, _, received, _⟩ := carries
    simp [subscribing] at received
  · obtain rfl := envelope_carries (e := ⟨some 0, offlineAnswer, none⟩) rfl carries
    rcases docFrame_syncStep2 Reference.crate_laws
      (Reference.encodeDelta ⟨[Reference.typed 1 0 none], []⟩) with step2 | step2 <;>
      cases read.symm.trans step2

/-- Its own SyncStep2, relayed back to it, raises the flag of client 1, whose SyncStep1
    nobody has answered and which lacks what the log held from the start. -/
theorem echo_raises_flag : ∃ w : World Reference.client,
    Delivery.Reached Reference.crate seeded "doc" ofWriter
      (delivered Reference.crate Reference.client "doc") w ∧
    w.participants 0 = some echoed ∧ echoed.synced = true ∧ echoed.connection = some 0 ∧
    (∀ before, ¬ Answered Reference.crate w.server.world "doc" 0 before) ∧
    (⟨9, 0⟩ : ID) ∈ (durable Reference.crate seeded [] "doc").ids ∧
    (⟨9, 0⟩ : ID) ∉ (Reference.client.view echoed.doc).ids := by
  have greeting := ((connected_reaches (delivered Reference.crate Reference.client "doc") trivial
    trivial).handled Reference.crate_laws subscribing fun _ => .subscribe rfl).input 0 connected
      (.receive opening) (by simp) fun _ =>
        ⟨by decide +kernel, Or.inr ⟨0, by decide +kernel, subscribed_sentTo⟩⟩
  have relaying := greeting.handled Reference.crate_laws answering fun _ =>
    .frame rfl (show _ = some greeted by simp [greeted]) (by decide +kernel) rfl rfl rfl
  obtain ⟨tasks, reached, _⟩ := relaying.input 0 greeted (.receive offlineAnswer)
    (Function.update_self ..) fun _ => ⟨by decide +kernel, Or.inl relayed_broadcast⟩
  refine ⟨_, reached, by simp [echoed], by decide +kernel, by decide +kernel,
    relayed_unanswered, Reference.Replica.mem_ids.mp (by decide +kernel), fun held => ?_⟩
  exact absurd (Reference.Replica.mem_ids.mpr held) (by decide +kernel)

end Yrby.CaughtUp
