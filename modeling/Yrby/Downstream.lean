import Yrby.Delivery
import Yrby.Reference.Client

/- What reaches a session from the server: presence, document content that is
   durable, and on its own connection questions and answers. -/
namespace Yrby.Downstream
open Causal Document Wire Yrs Protocol Serving Effects Session Frames Channel History DurableLog
open Delivery

/-- A frame the server broadcast on the stream of a document. -/
def Broadcast (h : Trace) (key : String) (frame : Bytes) : Prop :=
  ∃ (c : Nat) (encoded : String) (reply : Except String Unit),
    (c, .did (.broadcast (syncStreamName key) (syncEnvelope encoded)) reply) ∈ h ∧
      Base64.fromBase64 encoded = some frame

/-- A frame some call sent to its own connection. -/
def SentTo (h : Trace) (connection : Nat) (frame : Bytes) : Prop :=
  ∃ (c : Nat) (call : Call) (encoded : String) (reply : Except String Unit),
    (c, .began call) ∈ h ∧ call.connection = connection ∧
      (c, .did (.transmit (syncEnvelope encoded)) reply) ∈ h ∧
      Base64.fromBase64 encoded = some frame

/-- A frame to one connection is a SyncStep1, or answers the SyncStep1 of its call
    from the log as the call loaded it. -/
inductive Direct (y : Yrs) (stored : String → List Bytes) (h : Trace) (c : Nat) (call : Call)
    (frame : Bytes) : Prop where
  | asks {payload : Bytes} (shape : IsSyncFrame messageYjsSyncStep1 payload frame)
  | answers {key encoded : String} {bytes update : Bytes} {sv : StateVector} {before after : Trace}
      {state : Option Bytes}
      (carries : call.Carries encoded bytes) (keyed : call.key = some key)
      (asked : y.messageDecode bytes = .ok (.sync (.syncStep1 sv), []))
      (split : h = before ++ (c, .did (.onLoad key) (.ok state)) :: after)
      (began : (c, .began call) ∈ before)
      (is : frame = syncFrame messageYjsSyncStep2 update)
      (content : y.contentOf update = some (diff (durable y stored before key).pruned sv))
      (answered : ∃ (encoded : String) (reply : Except String Unit),
        (c, .did (.transmit (syncEnvelope encoded)) reply) ∈ after ∧
          Base64.fromBase64 encoded = some frame)

variable {y : Yrs} {stored : String → List Bytes} {key : String} {h : Trace} {frame : Bytes}

theorem syncEnvelope_injective {encoded encoded' : String}
    (same : syncEnvelope encoded = syncEnvelope encoded') : encoded = encoded' := by
  simpa [syncEnvelope] using same

theorem syncStreamName_injective {key' : String} (same : syncStreamName key = syncStreamName key') :
    key = key' := by
  have chars := congrArg String.toList same
  simp only [syncStreamName, String.toList_append] at chars
  exact String.toList_injective (List.append_cancel_left chars)

/-- Broadcast frames are presence or durable content. -/
theorem broadcast_frame (laws : y.Laws) (order : InOrder y stored h)
    (broadcast : Broadcast h key frame) : (∃ payload, IsAwarenessFrame payload frame) ∨
      ∃ update, IsDocFrame y frame update ∧ Durable y stored h key update := by
  obtain ⟨c, encoded, reply, sent, decoded⟩ := broadcast
  obtain ⟨before, after, split⟩ := List.append_of_mem sent
  obtain ⟨⟨key', encoded', bytes, id, received, stream, message, relayable⟩, _⟩ :=
    order.distributed split
  obtain rfl := syncStreamName_injective stream
  obtain rfl := syncEnvelope_injective message
  obtain ⟨call, _, ⟨_, _, _, _, strict⟩, _⟩ := received.began
  obtain rfl := Option.some.inj (decoded.symm.trans (Base64.fromBase64_strictDecode strict))
  rcases relayable with ⟨clients, presence⟩ | ⟨update, doc, held⟩
  · exact Or.inl (laws.decode_awareness_shape _ _ presence)
  · exact Or.inr ⟨update, doc, split ▸ held.later laws _⟩

theorem transmitted_frame (laws : y.Laws) (order : InOrder y stored h) {c : Nat} {call : Call}
    {encoded : String} {reply : Except String Unit} (began : (c, .began call) ∈ h)
    (sent : (c, .did (.transmit (syncEnvelope encoded)) reply) ∈ h)
    (decoded : Base64.fromBase64 encoded = some frame) : Direct y stored h c call frame := by
  obtain ⟨before, after, split⟩ := List.append_of_mem sent
  have only : ∀ call', (c, Event.began call') ∈ before → call' = call := fun call' mem =>
    order.single c call' call (by rw [split]; exact List.mem_append_left _ mem) began
  have asks : ∀ doc : y.Doc,
      syncEnvelope encoded = syncEnvelope (Base64.strictEncode64 (syncStep1 y doc)) →
      Direct y stored h c call frame := by
    intro doc same
    rw [syncEnvelope_injective same, Base64.fromBase64_encode, syncStep1, laws.encode_syncStep1]
      at decoded
    exact .asks (Option.some.inj decoded ▸ syncFrame_isSyncFrame messageYjsSyncStep1 _)
  cases order.transmitted split with
  | ack _ _ content => exact absurd content.symm (ackEnvelope_ne _ _)
  | opening _ _ _ _ content => exact asks _ content
  | resync _ _ _ _ _ _ content => exact asks _ content
  | @answer key encoded' bytes id sv doc served earlier state between received asked parts loaded
      integrated content =>
    have text := decoded
    rw [syncEnvelope_injective content, Base64.fromBase64_encode, laws.encode_syncStep2] at decoded
    obtain ⟨bytes', u, ok, decodes, carried⟩ := integratedUpdate_spec laws.toRules doc sv
    obtain rfl := Except.ok.inj (integrated.symm.trans ok)
    obtain ⟨call', mem, carries, keyed, _⟩ := received.began
    obtain rfl := only call' (by rw [parts]; exact List.mem_append_left _ mem)
    refine .answers carries keyed asked (by rw [split, parts, List.append_assoc, List.cons_append]) mem
      (Option.some.inj decoded).symm ?_ ⟨encoded, reply, by simp, text⟩
    rw [contentOf_ok decodes, carried, loaded]

theorem docFrame_change (laws : y.Laws) {update : Bytes} (doc : IsDocFrame y frame update)
    (safe : frame.length ≤ maxSafeInteger) :
    ∃ syncType, documentChange frame = some (syncType, some update) := by
  rcases doc with decoded | decoded
  · obtain ⟨payload, rfl, shape⟩ := laws.decode_sync_shape _ _ decoded
    exact ⟨_, documentChange_syncFrame shape safe (Or.inl rfl)⟩
  · obtain ⟨payload, rfl, shape⟩ := laws.decode_sync_shape _ _ decoded
    exact ⟨_, documentChange_syncFrame shape safe (Or.inr rfl)⟩

/-- An update wrapped into a frame is that update to everyone. The gate lets the frame in as a
    document frame; extracting its update gives the bytes back, or nothing where they carry
    nothing, or the error of decoding them; handling the message applies them to the document
    of the server, and receiving the frame applies them to the document of a session. -/
theorem wrapped_update {js : Yjs} {W : Type} (laws : y.Laws) (jsLaws : js.Laws y) (update : Bytes) :
    classifyMessage y (wrapUpdate y update) = 2 ∧
    (∀ e, y.decodeV1 update = .error e → mergedDocUpdate y (wrapUpdate y update) = .error e) ∧
    (∀ u, y.decodeV1 update = .ok u →
      ((y.content u).IsEmpty → mergedDocUpdate y (wrapUpdate y update) = .ok none) ∧
      (¬ (y.content u).IsEmpty → mergedDocUpdate y (wrapUpdate y update) = .ok (some update))) ∧
    (∀ doc, handleSyncMessage y doc (wrapUpdate y update) = ((docApplyUpdate y doc update).1,
      (docApplyUpdate y doc update).2.map fun _ => (0, 2, []))) ∧
    ∀ (opts : Session.Options W) (s : State js W), (wrapUpdate y update).length ≤ maxSafeInteger →
      Ends (receive opts (wrapUpdate y update)) (fun _ t =>
        t.2.1.doc = (js.applyUpdate s.2.1.doc update).1 ∧ t.2.1.synced = s.2.1.synced ∧ t.1 = s.1)
        (fun _ => False) s := by
  have is : wrapUpdate y update = syncFrame 2 update := laws.encode_update update
  have frame : IsDocFrame y (wrapUpdate y update) update := is ▸ docFrame_update laws update
  have read : y.messageDecode (wrapUpdate y update) = .ok (.sync (.update update), []) := by
    have decoded := laws.decode_syncFrame (.update update) update [] rfl
    rw [List.append_nil] at decoded
    exact is ▸ decoded
  refine ⟨classifyMessage_docFrame frame, fun e => mergedDocUpdate_undecodable laws.toRules frame, ?_, ?_, ?_⟩
  · intro u decoded
    refine ⟨mergedDocUpdate_nothing laws.toRules frame decoded, fun something => ?_⟩
    rcases mergedDocUpdate_decoded laws.toRules frame decoded with found | ⟨_, empty⟩
    · exact found
    · exact absurd empty something
  · intro doc
    simp only [handleSyncMessage, read]
  · intro opts s safe
    rw [is] at safe ⊢
    have change := documentChange_syncFrame (syncFrame_isSyncFrame messageYjsUpdate update) safe
      (Or.inr rfl)
    refine (receive_ends jsLaws (syncFrame 2 update) s).mono (fun _ t received => ?_) fun _ => id
    refine ⟨received.doc.trans ?_, received.synced.trans ?_, received.queue⟩
    · simp only [changedDoc, messageYjsUpdate] at change ⊢
      rw [change]
    · simp only [isSyncStep2, messageYjsUpdate] at change ⊢
      rw [change]
      simp [messageYjsSyncStep2]

theorem character_wrapped :
    mergedDocUpdate Reference.crate
        (wrapUpdate Reference.crate (Reference.encodeDelta ⟨[Reference.typed 1 0 none], []⟩)) =
      .ok (some (Reference.encodeDelta ⟨[Reference.typed 1 0 none], []⟩)) ∧
    classifyMessage Reference.crate
      (wrapUpdate Reference.crate (Reference.encodeDelta ⟨[Reference.typed 1 0 none], []⟩)) = 2 := by
  obtain ⟨kind, _, extracted, _⟩ := @wrapped_update Reference.crate Reference.client Unit
    Reference.crate_laws Reference.client_laws (Reference.encodeDelta ⟨[Reference.typed 1 0 none], []⟩)
  obtain ⟨u, decoded, content⟩ :=
    contentOf_some (Reference.contentOf_encodeDelta ⟨[Reference.typed 1 0 none], []⟩)
  refine ⟨(extracted u decoded).2 ?_, kind⟩
  rintro ⟨blocks, _⟩
  rw [content] at blocks
  exact blocks.subset (show Reference.typed 1 0 none ∈ asSet [Reference.typed 1 0 none] from
    List.mem_singleton_self _)

end Yrby.Downstream
