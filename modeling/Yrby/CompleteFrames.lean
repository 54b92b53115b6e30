import Yrby.Downstream
import Yrby.NoLoss
import Yrby.Rooted

/- Why a client's reliable frames never gap: its document hangs on nothing but what is
   durable or still queued, and a frame carries the whole queue. -/
namespace Yrby.CompleteFrames
open Causal Document Wire Yrs Protocol Readiness Effects ReliableSync Session Frames Channel
open History DurableLog Client Delivery NoLoss Downstream

/-- A local edit hangs on integrated content, and nothing in the log waits for its
    ids: they are new. -/
def LocalEdit (server before after : DocState) (c : Content) : Prop :=
  before.Ready c ∧ Integrates before c after ∧ server.Unaware c

/-- Documents that start from logged content, and meet only local edits, frames that
    the server sent, and logged content. -/
def fromServer (y : Yrs) (js : Yjs) (stored : String → List Bytes) (key : String)
    (holder : Nat → Option Nat) : Setting js where
  born h doc := ∀ b ∈ (js.view doc).integrated ∪ (js.view doc).parked, (durable y stored h key).Logs b
  edits h doc doc' update := ∃ c, y.contentOf update = some c ∧
    LocalEdit (durable y stored h key) (js.view doc) (js.view doc') c
  remote h update := ∃ c, y.contentOf update = some c ∧
    ∀ b ∈ c.blocks, (durable y stored h key).Logs b
  frames h p _ frame := Broadcast h key frame ∨
    ∃ connection, holder connection = some p ∧ SentTo h connection frame

/-- A frame with an update that is ready over the durable log. -/
def FrameReady (y : Yrs) (stored : String → List Bytes) (key : String) (h : Trace)
    (frame : Bytes) : Prop :=
  ∃ update content, frame = syncFrame messageYjsUpdate update ∧
    y.contentOf update = some content ∧ (durable y stored h key).Ready content

def Hangs (y : Yrs) (js : Yjs) (server : DocState) (doc : js.Doc) (pending : List Pending) : Prop :=
  ∃ contents, (pending.map Pending.update).map y.contentOf = contents.map some ∧
    Rooted server (js.view doc) contents

structure InStep (y : Yrs) (stored : String → List Bytes) (key : String) {js : Yjs} (h : Trace)
    (p : Participant js) : Prop where
  hangs : p.attached = true → Hangs y js (durable y stored h key) p.doc p.pending
  silent : p.attached = false → p.pending = []
  sent : ∀ e ∈ p.sent, ∀ id, e.id = some id → FrameReady y stored key h e.frame

variable {y : Yrs} {stored : String → List Bytes} {key : String} {js : Yjs}
  {holder : Nat → Option Nat} {h : Trace}

theorem durable_event (laws : y.Laws) {e : Nat × Event} {rest : Trace}
    (order : InOrder y stored (h ++ e :: rest)) :
    Settles (durable y stored h key) (durable y stored (h ++ [e]) key) := by
  cases entry : recordedUnder key e with
  | none =>
    have same : durable y stored (h ++ [e]) key = durable y stored h key := by
      rw [durable, durable, logOf_append, List.filterMap_cons_none entry, List.filterMap_nil,
        List.append_nil]
    exact same ▸ Settles.refl _
  | some update =>
    obtain ⟨c, event⟩ := e
    cases event with
    | began call => simp [recordedUnder] at entry
    | did action reply => simp [recordedUnder] at entry
    | recorded k u =>
      obtain ⟨rfl, rfl⟩ : k = key ∧ u = update := by simpa [recordedUnder] using entry
      obtain ⟨content, carried, ready⟩ := order.ready h c k u rest rfl
      have step := replay_content laws (logOf stored h k) carried
      have moved : durable y stored (h ++ [(c, .recorded k u)]) k =
          y.view (replay y (logOf stored h k ++ [u])) := by
        rw [durable, logOf_append, List.filterMap_cons_some entry, List.filterMap_nil]
      rw [moved]
      exact step.settles ready

theorem durable_settles (laws : y.Laws) (ext : Trace) (order : InOrder y stored (h ++ ext)) :
    Settles (durable y stored h key) (durable y stored (h ++ ext) key) := by
  induction ext generalizing h with
  | nil => simpa using Settles.refl _
  | cons e rest ih =>
    have first : Settles (durable y stored h key) _ := durable_event laws order
    have regrouped : h ++ e :: rest = (h ++ [e]) ++ rest := by simp
    rw [regrouped] at order ⊢
    exact first.trans (ih order)

theorem FrameReady.later (laws : y.Laws) {frame : Bytes} (ready : FrameReady y stored key h frame)
    (ext : Trace) : FrameReady y stored key (h ++ ext) frame := by
  obtain ⟨update, content, is, carried, ready⟩ := ready
  exact ⟨update, content, is, carried, ready_mono (durable_grows laws stored h ext key).1 ready⟩

theorem Hangs.remote {server : DocState} {doc doc' : js.Doc} {pending : List Pending}
    {content : Content} (hangs : Hangs y js server doc pending)
    (logged : ∀ b ∈ content.blocks, server.Logs b)
    (step : Integrates (js.view doc) content (js.view doc')) : Hangs y js server doc' pending := by
  obtain ⟨contents, carried, rooted⟩ := hangs
  exact ⟨contents, carried, rooted.remote logged step⟩

theorem served_logged (laws : y.Laws) (order : InOrder y stored h) {p : Nat} {frame : Bytes}
    (owned : ∀ c call, (c, .began call) ∈ h → holder call.connection = some p →
      call.request = .subscribed key ∨ call.key = some key)
    (safe : frame.length ≤ maxSafeInteger)
    (served : Broadcast h key frame ∨ ∃ connection, holder connection = some p ∧
      SentTo h connection frame) :
    documentChange frame = none ∨ ∃ syncType update content,
      documentChange frame = some (syncType, some update) ∧ y.contentOf update = some content ∧
      ∀ b ∈ content.blocks, b.id ∈ (durable y stored h key).ids := by
  rcases served with broadcast | ⟨connection, held, c, call, encoded, reply, began, rfl, sent, decoded⟩
  · rcases broadcast_frame laws order broadcast with ⟨payload, shape⟩ | ⟨update, doc, durable⟩
    · exact Or.inl (documentChange_awareness shape)
    · obtain ⟨syncType, change⟩ := docFrame_change laws doc safe
      obtain ⟨content, carried, contains⟩ := durable
      exact Or.inr ⟨syncType, update, content, change, carried, fun b mem => contains.1 ⟨b, mem, rfl⟩⟩
  · cases transmitted_frame laws order began sent decoded with
    | asks shape => exact Or.inl (documentChange_syncStep1 shape)
    | @answers key' encoded' bytes update sv before after state carries keyed asked split _ is content _ =>
      subst is
      obtain ⟨syncType, change⟩ := docFrame_change laws (docFrame_syncStep2 laws update) safe
      refine Or.inr ⟨syncType, update, _, change, content, fun b mem => ?_⟩
      have same : key' = key := by
        rcases owned c call began held with subscribed | room
        · obtain ⟨_, _, received, _⟩ := carries
          simp [subscribed] at received
        · exact Option.some.inj (keyed.symm.trans room)
      subst same
      rw [split]
      apply (durable_grows laws stored before _ key').1
      rcases mem with ⟨inside, _⟩ | none
      · exact ⟨b, inside, rfl⟩
      · exact none.elim

def Sourced (y : Yrs) (key : String) (stored : String → List Bytes) (h : Trace)
    (p : Participant js) : Input js → Prop
  | .transact doc update => ∃ c, y.contentOf update = some c ∧
      LocalEdit (durable y stored h key) (js.view p.doc) (js.view doc) c
  | .receive frame => documentChange frame = none ∨ ∃ syncType update content,
      documentChange frame = some (syncType, some update) ∧ y.contentOf update = some content ∧
      ∀ b ∈ content.blocks, (durable y stored h key).Logs b
  | .applyRemoteUpdate update => ∃ c, y.contentOf update = some c ∧
      ∀ b ∈ c.blocks, (durable y stored h key).Logs b
  | .ack id => p.attached = true → Confirmed y stored key h p.enqueued id
  | _ => True

theorem InStep.change (jsLaws : js.Laws y) {p : Participant js} (inStep : InStep y stored key h p)
    (queued : p.attached = true → Queued y stored key h p.enqueued p.session.1)
    {input : Input js} (sourced : Sourced y key stored h p input)
    (attached : (Client.change input p.session).2.1.attached = true) :
    Hangs y js (durable y stored h key) (Client.change input p.session).2.1.doc
      (Client.change input p.session).1.pending := by
  cases input with
  | transact doc update =>
    have on : p.attached = true := attached
    have on' : p.session.2.1.attached = true := attached
    obtain ⟨contents, carried, rooted⟩ := inStep.hangs on
    obtain ⟨c, decodes, ready, step, unaware⟩ := sourced
    simp only [Client.change, on', ↓reduceIte, push]
    refine ⟨contents ++ [c], ?_, rooted.edit ready unaware step⟩
    rw [List.map_append, List.map_append, List.map_append]
    exact congrArg₂ (· ++ ·) carried (by simp [decodes])
  | ack id =>
    have on : p.attached = true := attached
    obtain ⟨contents, carried, rooted⟩ := inStep.hangs on
    obtain ⟨pruned, split, held⟩ := (queued on).acked_split (sourced on)
    have all : (pruned ++ (p.session.1.acked id).updates).map y.contentOf = contents.map some :=
      split ▸ carried
    rw [List.map_append] at all
    obtain ⟨first, rest, rfl, here, there⟩ := List.map_eq_append_iff.mp all.symm
    refine ⟨rest, there.symm, rooted.prune fun c mem => ?_⟩
    have listed : some c ∈ pruned.map y.contentOf := here ▸ List.mem_map_of_mem mem
    obtain ⟨u, inside, decodes⟩ := List.mem_map.mp listed
    obtain ⟨content, same, contains⟩ := held u inside
    obtain rfl := Option.some.inj (decodes.symm.trans same)
    exact contains.1
  | receive frame =>
    have hangs := inStep.hangs attached
    rcases sourced with none | ⟨syncType, update, content, change, carried, logged⟩
    · have same : changedDoc js frame p.session.2.1.doc = p.doc := by simp [changedDoc, none, Participant.doc]
      simp only [Client.change, same]
      exact hangs
    · have step := jsLaws.apply_integrates p.doc update content carried
      simp only [Client.change, changedDoc, change]
      exact hangs.remote logged step
  | applyRemoteUpdate update =>
    have hangs := inStep.hangs attached
    obtain ⟨content, carried, logged⟩ := sourced
    exact hangs.remote logged (jsLaws.apply_integrates p.doc update content carried)
  | destroy => simp [Client.change] at attached
  | _ => exact inStep.hangs attached

theorem InStep.silent_change {p : Participant js} (inStep : InStep y stored key h p)
    (input : Input js) (off : (Client.change input p.session).2.1.attached = false) :
    (Client.change input p.session).1.pending = [] := by
  cases input with
  | transact doc update =>
    have off' : p.session.2.1.attached = false := off
    simp only [Client.change, off', Bool.false_eq_true, ↓reduceIte]
    exact inStep.silent off
  | ack id =>
    have none : p.session.1.pending = [] := inStep.silent off
    simp only [Client.change, acked]
    split
    · split
      · exact none
      · simp [prune, none]
    · exact none
  | destroy => rfl
  | _ => exact inStep.silent off

/-- Step lemma: the tail that goes out, if one does, is ready over the log. -/
theorem InStep.takes (jsLaws : js.Laws y) {p : Participant js} (inStep : InStep y stored key h p)
    (memo : Memoized js.mergeUpdates p.session.1)
    (queued : p.attached = true → Queued y stored key h p.enqueued p.session.1)
    {input : Input js} (sourced : Sourced y key stored h p input) :
    InStep y stored key h (p.takes input) := by
  have emits := takes_emits jsLaws input memo
  have hangs := inStep.change jsLaws queued sourced
  refine ⟨fun on => ?_, fun off => ?_, fun e mem id some => ?_⟩
  · rw [Participant.attached, emits.attached] at on
    rw [Participant.doc, Participant.pending, emits.doc, emits.pending]
    exact hangs on
  · rw [Participant.attached, emits.attached] at off
    rw [Participant.pending, emits.pending]
    exact inStep.silent_change input off
  · obtain ⟨l, sent, kinds⟩ := emits.sent
    rw [Participant.sent, sent, change_sent] at mem
    rcases List.mem_append.mp mem with old | new
    · exact inStep.sent e old id some
    · cases (kinds e new).2 with
      | syncStep1 _ none => simp [none] at some
      | awareness _ none => simp [none] at some
      | answer _ none => simp [none] at some
      | @tail update last ends merged frame is =>
        cases on : (Client.change input p.session).2.1.attached with
        | false =>
          rw [inStep.silent_change input on] at ends
          simp at ends
        | true =>
          obtain ⟨contents, carried, rooted⟩ := hangs on
          have decode : ∀ u ∈ (Client.change input p.session).1.pending.map Pending.update,
              ∃ c, y.contentOf u = Option.some c := by
            intro u mem
            have listed := carried ▸ List.mem_map_of_mem (f := y.contentOf) mem
            obtain ⟨c, _, same⟩ := List.mem_map.mp listed
            exact ⟨c, same.symm⟩
          obtain ⟨contents', carried', joined⟩ := mergeTail_joins jsLaws decode merged
          obtain rfl : contents' = contents :=
            List.map_injective_iff.mpr (Option.some_injective _) (carried'.symm.trans carried)
          exact ⟨update, _, frame.trans (frameUpdate_eq jsLaws update), joined, rooted.ready⟩

variable {w : World js}

theorem fromServer_edits (h : Trace) (doc doc' : js.Doc) (update : Bytes)
    (edit : (fromServer y js stored key holder).edits h doc doc' update) :
    ∃ c, y.contentOf update = some c := by
  obtain ⟨c, carried, _⟩ := edit
  exact ⟨c, carried⟩

theorem Sane.keyed (sane : Sane w key holder) {p : Nat} :
    ∀ c call, (c, .began call) ∈ w.server.world → holder call.connection = some p →
      call.request = .subscribed key ∨ call.key = some key := by
  intro c call began held
  rcases sane.owned c call p began held with subscribed | ⟨_, _, _, _, _, _, _, keyed⟩
  · exact Or.inl subscribed
  · exact Or.inr keyed

theorem reached_inStep (laws : y.Laws) (jsLaws : js.Laws y)
    (reached : Reached y stored key holder (fromServer y js stored key holder) w) {p : Nat}
    {participant : Participant js} (there : w.participants p = some participant) :
    InStep y stored key w.server.world participant := by
  refine reached.every (F := fun h _ participant => InStep y stored key h participant)
    ?_ ?_ ?_ laws there
  · intro w p doc awareness _ born
    exact ⟨fun _ => ⟨[], rfl, Rooted.born born⟩, fun _ => rfl, fun e mem => by
      simp [Participant.fresh, Participant.sent, Session.construct, Host.idle] at mem⟩
  · intro w ext p participant _ _ order inStep
    refine ⟨fun on => ?_, inStep.silent, fun e mem id some => (inStep.sent e mem id some).later laws ext⟩
    obtain ⟨contents, carried, rooted⟩ := inStep.hangs on
    exact ⟨contents, carried, rooted.later (durable_settles laws ext order)⟩
  · intro w p participant input reached there allowed inStep
    have sane := reached_sane jsLaws reached
    have order := reached_order laws reached
    have kept := fun on => reached_kept laws jsLaws fromServer_edits reached there on
    refine inStep.takes jsLaws (sane.memo p participant there) (fun on => (kept on).queue) ?_
    cases input with
    | transact doc update => exact allowed
    | ack id => exact fun on => ack_confirms laws order sane there (kept on) allowed
    | receive frame =>
      rcases served_logged laws order (Sane.keyed sane) allowed.1 allowed.2 with
        none | ⟨syncType, update, content, change, carried, inside⟩
      · exact Or.inl none
      · exact Or.inr ⟨syncType, update, content, change, carried, fun b mem => Or.inl (inside b mem)⟩
    | applyRemoteUpdate update => exact allowed
    | _ => trivial

/-- A call on the connection of a session: if it carries a reliable frame, the frame
    was ready over the log whenever the call could look. -/
def Answerable (y : Yrs) (stored : String → List Bytes) (key : String) (h : Trace) (c : Nat)
    (call : Call) : Prop :=
  call.request = .subscribed key ∨ ∃ e room, call.request = .receive (envelope e) room ∧
    call.key = some key ∧ ∀ id, e.id = some id → ∀ before after, h = before ++ after →
      (c, .began call) ∈ before → FrameReady y stored key before e.frame

theorem Answerable.later (laws : y.Laws) {c : Nat} {call : Call}
    (answerable : Answerable y stored key h c call) (began : (c, .began call) ∈ h) (ext : Trace) :
    Answerable y stored key (h ++ ext) c call := by
  rcases answerable with subscribed | ⟨e, room, request, keyed, ready⟩
  · exact Or.inl subscribed
  · refine Or.inr ⟨e, room, request, keyed, fun id some before after split mem => ?_⟩
    rcases List.append_eq_append_iff.mp split with ⟨rest, rfl, _⟩ | ⟨rest, rfl, _⟩
    · exact (ready id some h [] (by simp) began).later laws rest
    · exact ready id some before rest rfl mem

theorem reached_answerable (laws : y.Laws) (jsLaws : js.Laws y)
    (reached : Reached y stored key holder (fromServer y js stored key holder) w) {c p : Nat}
    {call : Call} (began : (c, .began call) ∈ w.server.world)
    (held : holder call.connection = some p) : Answerable y stored key w.server.world c call := by
  induction reached with
  | refl => simp [World.initial, Pool.initial] at began
  | @tail w w' reached step ih =>
    cases step.moves with
    | construct _ _ _ => exact ih began
    | input _ _ _ => exact ih began
    | server ext grown _ calls =>
      rw [grown] at began ⊢
      rcases List.mem_append.mp began with old | new
      · exact (ih old).later laws old ext
      · obtain ⟨admissible, fresh⟩ := calls c call new
        rcases admissible.carried held with subscribed | ⟨participant, e, room, there, sent, _,
          request, keyed⟩
        · exact Or.inl subscribed
        · refine Or.inr ⟨e, room, request, keyed, fun id some before after split mem => ?_⟩
          have now := (reached_inStep laws jsLaws reached there).sent e sent id some
          rcases List.append_eq_append_iff.mp split with ⟨rest, rfl, _⟩ | ⟨rest, old, _⟩
          · exact now.later laws rest
          · exact absurd rfl (fresh _ (old ▸ List.mem_append_left _ mem))

theorem envelope_injective {e e' : Sent} (same : envelope e = envelope e') :
    e.frame = e'.frame ∧ e.id = e'.id := by
  have update : (envelope e).fetch "update" = (envelope e').fetch "update" := by rw [same]
  have text : Base64.toBase64 e.frame = Base64.toBase64 e'.frame := Value.str.inj update
  have bytes := congrArg Base64.strictDecode64 text
  rw [Base64.toBase64, Base64.toBase64, Base64.strictDecode64_encode,
    Base64.strictDecode64_encode] at bytes
  refine ⟨Option.some.inj bytes, ?_⟩
  have ids : (envelope e).fetch "id" = (envelope e').fetch "id" := by rw [same]
  rw [envelope_id, envelope_id] at ids
  cases one : e.id <;> cases two : e'.id <;> simp_all

/- A call that received a document frame that is ready only ever sends an ack. -/
theorem only_acks (laws : y.Laws) (order : InOrder y stored h) {c : Nat} {call : Call} {e : Sent}
    {room : Option String} {message : Value} {reply : Except String Unit}
    (began : (c, .began call) ∈ h) (request : call.request = .receive (envelope e) room)
    (keyed : call.key = some key)
    (ready : ∀ before after, h = before ++ after → (c, .began call) ∈ before →
      FrameReady y stored key before e.frame)
    (sent : (c, .did (.transmit message) reply) ∈ h) : ∃ id, message = ackEnvelope id := by
  obtain ⟨before, after, split⟩ := List.append_of_mem sent
  obtain ⟨update, content, is, carried, _⟩ := ready h [] (by simp) began
  have frame : IsDocFrame y e.frame update := is ▸ docFrame_update laws update
  have only : ∀ {trace call'}, (∃ rest, h = trace ++ rest) → (c, Event.began call') ∈ trace →
      call' = call := by
    rintro trace call' ⟨rest, rfl⟩ mem
    exact order.single c call' call (List.mem_append_left _ mem) began
  cases order.transmitted split with
  | ack _ _ content => exact ⟨_, content⟩
  | opening began' requested parts =>
    have same := only ⟨_, by rw [split, parts, List.append_assoc]⟩ began'
    simp [same, request] at requested
  | @resync key' encoded bytes id update' u doc early state late received asked parts _ decoded gap _ =>
    obtain ⟨call', began', carries, keyed', _⟩ := received.began
    have inside : h = early ++ ((c, .did (.onLoad key') (.ok state)) :: late ++
        (c, .did (.transmit message) reply) :: after) := by rw [split, parts, List.append_assoc]
    obtain rfl := only ⟨_, inside⟩ began'
    obtain rfl := envelope_carries request carries
    obtain rfl := Option.some.inj (keyed.symm.trans keyed')
    obtain ⟨update'', content', is', carried', nowReady⟩ := ready early _ inside began'
    have frame' : IsDocFrame y e.frame update'' := is' ▸ docFrame_update laws update''
    obtain rfl := docFrame_unique asked frame'
    obtain rfl := Option.some.inj ((contentOf_ok decoded).symm.trans carried')
    exact absurd nowReady gap
  | @answer key' encoded bytes id sv doc served early state late received asked parts _ _ _ =>
    obtain ⟨call', began', carries, _⟩ := received.began
    obtain rfl := only ⟨_, by rw [split, parts, List.append_assoc]⟩ began'
    obtain rfl := envelope_carries request carries
    rcases frame with decoded | decoded <;> simp [decoded] at asked

/-- The client's frames are causally complete: in every state of every run, each
    reliable frame that any session has sent by then is ready at the durable state,
    update_is_ready says so, and a call that carries it sends nothing but acks. -/
theorem frames_complete (laws : y.Laws) (jsLaws : js.Laws y)
    (reached : Reached y stored key holder (fromServer y js stored key holder) w) {p : Nat}
    {participant : Participant js} (there : w.participants p = some participant) {e : Sent}
    (sent : e ∈ participant.sent) {id : Nat} (reliable : e.id = some id) :
    (∃ update content, e.frame = syncFrame messageYjsUpdate update ∧
      y.contentOf update = some content ∧
      (durable y stored w.server.world key).Ready content ∧
      ∀ doc, y.view doc = durable y stored w.server.world key →
        updateIsReady y doc update = .ok true) ∧
    ∀ c call room message reply, (c, .began call) ∈ w.server.world →
      holder call.connection = some p → call.request = .receive (envelope e) room →
      (c, .did (.transmit message) reply) ∈ w.server.world → ∃ id, message = ackEnvelope id := by
  constructor
  · obtain ⟨update, content, is, carried, ready⟩ :=
      (reached_inStep laws jsLaws reached there).sent e sent id reliable
    refine ⟨update, content, is, carried, ready, fun doc same => ?_⟩
    obtain ⟨u, decoded, rfl⟩ := contentOf_some carried
    obtain ⟨verdict, ok, exact⟩ := updateIsReady_eq laws.toRules decoded (triable laws doc _).ready
    rw [same] at exact
    rw [ok, exact.mpr ready]
  · intro c call room message reply began held request transmitted
    rcases reached_answerable laws jsLaws reached began held with subscribed |
      ⟨e', room', request', keyed, ready⟩
    · simp [subscribed] at request
    · obtain ⟨same, sameId⟩ := envelope_injective (Request.receive.inj (request.symm.trans request')).1
      refine only_acks laws (reached_order laws reached) began request keyed ?_ transmitted
      intro before after split mem
      rw [same]
      exact ready id (by rw [← sameId, reliable]) before after split mem

theorem settled_complete : ∃ w : World Reference.client, w.participants 0 = some settled ∧
    (∃ update content,
      syncFrame 2 (Reference.encodeDelta character) = syncFrame messageYjsUpdate update ∧
      Reference.crate.contentOf update = some content ∧
      (durable Reference.crate (fun _ => []) w.server.world "doc").Ready content) ∧
    (0, .did (.transmit (ackEnvelope (.int 1))) (.ok ())) ∈ w.server.world := by
  have empty : durable Reference.crate (fun _ => []) [] "doc" = .empty :=
    Reference.crate_laws.view_newDoc
  have born : (fromServer Reference.crate Reference.client (fun _ => []) "doc" ofWriter).born []
      blank := by
    intro b mem
    have none : b ∉ DocState.empty.integrated ∪ DocState.empty.parked := by simp [DocState.empty]
    exact absurd (Reference.Replica.state_empty ▸ mem) none
  have edits : (fromServer Reference.crate Reference.client (fun _ => []) "doc" ofWriter).edits []
      blank (⟨blank.replica.apply character, 1⟩ : Reference.Tab) (Reference.encodeDelta character) := by
    refine ⟨_, Reference.contentOf_encodeDelta character, ⟨?_, ?_⟩, ?_, ?_⟩
    · intro b typed i need
      obtain rfl := List.mem_singleton.mp typed
      simp [needs, Block.needs, ID.previous, Reference.typed] at need
    · exact fun i none => absurd none (by simp [character, Reference.Delta.content])
    · exact Reference.Replica.apply_integrates _ _
    · rw [empty]
      exact fun b none => none.elim
  obtain ⟨w, reached, world, there⟩ := settled_reached _ (fun _ => trivial) born edits
  obtain ⟨⟨update, content, frame, carried, ready, _⟩, _⟩ := frames_complete Reference.crate_laws
    Reference.client_laws reached there
    (e := ⟨some 0, syncFrame 2 (Reference.encodeDelta character), some 1⟩) (by decide +kernel) rfl
  exact ⟨w, there, ⟨update, content, frame, carried, ready⟩, world ▸ posting_acked⟩

end Yrby.CompleteFrames
