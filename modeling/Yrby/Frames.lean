import Yrby.Session

/- What a frame does to the session that receives it. Only a sync message can touch
   the document or the synced flag, and only as documentChange says. -/
namespace Yrby.Frames
open Causal Document Wire Effects ReliableSync Session

/-- The sync type of a frame that changes the document, with the update it applies.
    A payload that cannot be read is swallowed where nothing is left after it. -/
def documentChange (frame : Bytes) : Option (Number × Option Bytes) :=
  match readVarUint frame with
  | .error _ _ => none
  | .ok type rest =>
    if type = messageSync then
      match readVarUint rest with
      | .error _ _ => none
      | .ok syncType rest =>
        if syncType = messageYjsSyncStep2 ∨ syncType = messageYjsUpdate then
          match readVarUint8Array rest with
          | .ok update rest => if hasContent rest then none else some (syncType, some update)
          | .error _ rest => if hasContent rest then none else some (syncType, none)
        else none
    else none

def changedDoc (js : Yjs) (frame : Bytes) (doc : js.Doc) : js.Doc :=
  match documentChange frame with
  | some (_, some update) => (js.applyUpdate doc update).1
  | _ => doc

def isSyncStep2 (frame : Bytes) : Bool :=
  match documentChange frame with
  | some (syncType, _) => syncType == (messageYjsSyncStep2 : Number)
  | none => false

/-- lib0 reads a sync frame back: the tag, the sync type, the payload, and no more. -/
theorem read_syncFrame {syncType : Nat} {payload frame : Bytes}
    (shape : IsSyncFrame syncType payload frame) (safe : frame.length ≤ maxSafeInteger)
    (bound : syncType ≤ maxSafeInteger) :
    ∃ rest rest', readVarUint frame = .ok messageSync rest ∧
      readVarUint rest = .ok syncType rest' ∧ readVarUint8Array rest' = .ok payload [] := by
  obtain ⟨tag, sub, len, tagShape, subShape, lenShape, rfl⟩ := shape
  simp only [List.length_append] at safe
  have body := readVarUint8Array_spells lenShape [] (by omega)
  rw [List.append_nil] at body
  exact ⟨_, _, readVarUint_spells tagShape _ (Nat.zero_le _), readVarUint_spells subShape _ bound, body⟩

theorem documentChange_syncFrame {syncType : Nat} {payload frame : Bytes}
    (shape : IsSyncFrame syncType payload frame) (safe : frame.length ≤ maxSafeInteger)
    (kind : syncType = messageYjsSyncStep2 ∨ syncType = messageYjsUpdate) :
    documentChange frame = some (.finite syncType, some payload) := by
  have kind' : Number.finite syncType = messageYjsSyncStep2 ∨ Number.finite syncType = messageYjsUpdate :=
    kind.imp (congrArg _) (congrArg _)
  have bound : syncType ≤ maxSafeInteger := by rcases kind with rfl | rfl <;> decide
  obtain ⟨rest, rest', tag, sub, body⟩ := read_syncFrame shape safe bound
  simp only [documentChange, tag, sub, body, kind', ↓reduceIte, hasContent, List.isEmpty_nil,
    Bool.not_true, Bool.false_eq_true]

theorem documentChange_syncStep1 {payload frame : Bytes}
    (shape : IsSyncFrame messageYjsSyncStep1 payload frame) : documentChange frame = none := by
  obtain ⟨tag, sub, len, tagShape, subShape, lenShape, rfl⟩ := shape
  simp only [documentChange, readVarUint_spells tagShape _ (Nat.zero_le _),
    readVarUint_spells subShape _ (Nat.zero_le _), messageSync, ↓reduceIte]
  simp [messageYjsSyncStep1, messageYjsSyncStep2, messageYjsUpdate]

theorem documentChange_awareness {payload frame : Bytes} (shape : IsAwarenessFrame payload frame) :
    documentChange frame = none := by
  obtain ⟨tag, len, tagShape, lenShape, rfl⟩ := shape
  simp [documentChange, readVarUint_spells tagShape _ (by decide), messageSync]

variable {js : Yjs} {y : Yrs} {W : Type} {opts : Session.Options W}

/- The ways readSyncMessage can go. -/
theorem sync_error (laws : js.Laws y) {decoder rest encoder : Bytes} {doc : js.Doc} {e : JsError}
    (read : readVarUint decoder = .error e rest) :
    js.readSyncMessage ⟨decoder, encoder, doc⟩ = .error e ⟨rest, encoder, doc⟩ := by
  simp [laws.readSyncMessage_eq, Yjs.documentedSync, Yjs.onDecoder, zoom, bind, EStateM.bind, read]

theorem sync_step1 (laws : js.Laws y) {decoder rest encoder : Bytes} {doc : js.Doc}
    (read : readVarUint decoder = .ok messageYjsSyncStep1 rest) :
    js.readSyncMessage ⟨decoder, encoder, doc⟩ =
      match readVarUint8Array rest with
      | .error e rest => .error e ⟨rest, encoder, doc⟩
      | .ok sv rest =>
        match js.encodeStateAsUpdate doc sv with
        | .error e => .error e ⟨rest, encoder, doc⟩
        | .ok update => .ok messageYjsSyncStep1
          ⟨rest, encoder ++ writeVarUint messageYjsSyncStep2 ++ writeVarUint8Array update, doc⟩ := by
  simp only [laws.readSyncMessage_eq, Yjs.documentedSync, Yjs.documentedSyncStep1, Yjs.onDecoder,
    zoom, bind, EStateM.bind, read, ↓reduceIte]
  cases readVarUint8Array rest with
  | error e rest => rfl
  | ok sv rest =>
    simp only [run_get]
    cases js.encodeStateAsUpdate doc sv <;> rfl

theorem sync_update (laws : js.Laws y) {decoder rest encoder : Bytes} {doc : js.Doc} {syncType : Number}
    (read : readVarUint decoder = .ok syncType rest)
    (kind : syncType = messageYjsSyncStep2 ∨ syncType = messageYjsUpdate) :
    js.readSyncMessage ⟨decoder, encoder, doc⟩ =
      match readVarUint8Array rest with
      | .error _ rest => .ok syncType ⟨rest, encoder, doc⟩
      | .ok update rest => .ok syncType ⟨rest, encoder, (js.applyUpdate doc update).1⟩ := by
  have other : syncType ≠ messageYjsSyncStep1 := by
    rcases kind with rfl | rfl <;> decide
  simp only [laws.readSyncMessage_eq, Yjs.documentedSync, Yjs.documentedUpdate, Yjs.onDecoder,
    zoom, bind, EStateM.bind, read, other, kind, ↓reduceIte, run_tryCatch]
  cases readVarUint8Array rest with
  | error e rest => rfl
  | ok update rest =>
    simp only [run_get]
    cases (js.applyUpdate doc update).2 <;>
      simp [run_set, run_throw, pure, EStateM.pure]

theorem sync_unknown (laws : js.Laws y) {decoder rest encoder : Bytes} {doc : js.Doc} {syncType : Number}
    (read : readVarUint decoder = .ok syncType rest) (step1 : syncType ≠ messageYjsSyncStep1)
    (kind : ¬ (syncType = messageYjsSyncStep2 ∨ syncType = messageYjsUpdate)) :
    js.readSyncMessage ⟨decoder, encoder, doc⟩ = .error "Unknown message type" ⟨rest, encoder, doc⟩ := by
  simp only [laws.readSyncMessage_eq, Yjs.documentedSync, Yjs.onDecoder, zoom, bind, EStateM.bind,
    read, step1, kind, ↓reduceIte]
  rfl

/-- What is the same after a frame as before, and what the frame changed. -/
structure Received (opts : Session.Options W) (frame : Bytes) (s : State js W)
    (reply : Option Bytes) (t : State js W) : Prop where
  queue : t.1 = s.1
  doc : t.2.1.doc = changedDoc js frame s.2.1.doc
  synced : t.2.1.synced = (s.2.1.synced || isSyncStep2 frame)
  attached : t.2.1.attached = s.2.1.attached
  world : t.2.2 = s.2.2 ∨ ∃ e, t.2.2 = opts.onError e "receive" s.2.2
  reply : ∀ r, reply = some r → ∃ update, r = syncFrame messageYjsSyncStep2 update

theorem validate_sync {frame rest : Bytes} (read : readVarUint frame = .ok messageSync rest) :
    validateFrame js frame = match dryRun js rest with
      | .error e rest => .error e rest
      | .ok _ rest =>
        if hasContent rest then .error "frame has trailing bytes after a complete message" rest
        else .ok (some messageSync) rest := by
  simp only [validateFrame, bind, EStateM.bind, read, ↓reduceIte]
  cases dryRun js rest with
  | error e rest => rfl
  | ok u rest =>
    simp only [run_get]
    cases hasContent rest <;> rfl

theorem validate_update (laws : js.Laws y) {frame rest left : Bytes} {syncType : Number}
    (read : readVarUint frame = .ok messageSync rest) (inner : readVarUint rest = .ok syncType left)
    (kind : syncType = messageYjsSyncStep2 ∨ syncType = messageYjsUpdate) :
    validateFrame js frame = match readVarUint8Array left with
      | .error _ left | .ok _ left =>
        if hasContent left then .error "frame has trailing bytes after a complete message" left
        else .ok (some messageSync) left := by
  rw [validate_sync read, dryRun, sync_update laws inner kind]
  cases readVarUint8Array left <;> rfl

theorem documentChange_update {frame rest left : Bytes} {syncType : Number}
    (read : readVarUint frame = .ok messageSync rest) (inner : readVarUint rest = .ok syncType left)
    (kind : syncType = messageYjsSyncStep2 ∨ syncType = messageYjsUpdate) :
    documentChange frame = match readVarUint8Array left with
      | .error _ left => if hasContent left then none else some (syncType, none)
      | .ok update left => if hasContent left then none else some (syncType, some update) := by
  simp only [documentChange, read, inner, kind, ↓reduceIte]
  cases readVarUint8Array left <;> rfl

theorem validate_other {frame rest : Bytes} {type : Number} (read : readVarUint frame = .ok type rest)
    (sync : type ≠ messageSync) (awareness : type ≠ messageAwareness) :
    validateFrame js frame = .ok none rest := by
  simp only [validateFrame, bind, EStateM.bind, read, sync, awareness, ↓reduceIte]
  rfl

theorem Received.unchanged {frame : Bytes} {s : State js W} (none : documentChange frame = none)
    {awareness : Option js.Awareness} {world : W} {reply : Option Bytes}
    (onward : world = s.2.2 ∨ ∃ e, world = opts.onError e "receive" s.2.2)
    (answer : ∀ r, reply = some r → ∃ update, r = syncFrame messageYjsSyncStep2 update) :
    Received opts frame s reply (s.1, { s.2.1 with awareness := awareness }, world) where
  queue := rfl
  doc := by simp [changedDoc, none]
  synced := by simp [isSyncStep2, none]
  attached := rfl
  world := onward
  reply := answer

def Dispatched (opts : Session.Options W) (frame : Bytes) (s : State js W) (reply : Option Bytes)
    (t : State js W) : Prop := Received opts frame s reply t ∧ t.2.2 = s.2.2

theorem Dispatched.unchanged {frame : Bytes} {s : State js W} (none : documentChange frame = none)
    (awareness : Option js.Awareness) : Dispatched opts frame s Option.none
      (s.1, { s.2.1 with awareness := awareness }, s.2.2) :=
  ⟨Received.unchanged none (Or.inl rfl) (by simp), rfl⟩

theorem dispatch_dropped {frame rest : Bytes} {s : State js W} {e : JsError}
    (invalid : validateFrame js frame = .error e rest) (none : documentChange frame = none) :
    Ends (dispatch frame) (Dispatched opts frame s) (Dispatched opts frame s Option.none) s := by
  simp only [dispatch, invalid, ends_throw]
  exact Dispatched.unchanged none s.2.1.awareness

theorem dispatch_valid {frame rest left : Bytes} (read : readVarUint frame = .ok messageSync rest)
    (valid : validateFrame js frame = .ok (some messageSync) left) :
    (dispatch frame : Method js W (Option Bytes)) = receiveSync rest := by
  simp [dispatch, valid, read]

theorem receiveSync_step1 (laws : js.Laws y) {frame rest rest' : Bytes} {s : State js W}
    (read : readVarUint rest = .ok messageYjsSyncStep1 rest') (none : documentChange frame = none) :
    Ends (receiveSync rest) (Dispatched opts frame s) (Dispatched opts frame s Option.none) s := by
  simp only [receiveSync, ends_bind, ends_core]
  rw [sync_step1 laws read]
  have same : ∀ reply, (∀ r, reply = some r → ∃ update, r = syncFrame messageYjsSyncStep2 update) →
      Dispatched opts frame s reply (s.1, { s.2.1 with
        doc := s.2.1.doc, synced := s.2.1.synced || messageYjsSyncStep1 == messageYjsSyncStep2 },
        s.2.2) := by
    intro reply answer
    refine ⟨⟨rfl, ?_, ?_, rfl, Or.inl rfl, answer⟩, rfl⟩
    · simp [changedDoc, none]
    · simp [isSyncStep2, none, messageYjsSyncStep1, messageYjsSyncStep2]
  cases readVarUint8Array rest' with
  | error e rest => exact Dispatched.unchanged none s.2.1.awareness
  | ok sv rest =>
    dsimp only
    cases js.encodeStateAsUpdate s.2.1.doc sv with
    | error e => exact Dispatched.unchanged none s.2.1.awareness
    | ok update =>
      apply same
      intro r answer
      refine ⟨update, ?_⟩
      unfold replyOf at answer
      split at answer
      · exact (Option.some.inj answer).symm
      · simp at answer

theorem receiveSync_update (laws : js.Laws y) {frame rest rest' : Bytes} {s : State js W}
    {syncType : Number} (read : readVarUint rest = .ok syncType rest')
    (kind : syncType = messageYjsSyncStep2 ∨ syncType = messageYjsUpdate)
    (change : documentChange frame = some (syncType, match readVarUint8Array rest' with
      | .error _ _ => none
      | .ok update _ => some update)) :
    Ends (receiveSync rest) (Dispatched opts frame s) (Dispatched opts frame s none) s := by
  simp only [receiveSync, ends_bind, ends_core]
  rw [sync_update laws read kind]
  have silent : ∀ r, replyOf (writeVarUint messageSync) = some r →
      ∃ update, r = syncFrame messageYjsSyncStep2 update := by
    intro r answer
    have short : replyOf (writeVarUint messageSync) = none := by decide
    rw [short] at answer
    simp at answer
  cases payload : readVarUint8Array rest' with
  | error e rest =>
    rw [payload] at change
    exact ⟨⟨rfl, by simp [changedDoc, change], by simp [isSyncStep2, change], rfl, Or.inl rfl,
      silent⟩, rfl⟩
  | ok update rest =>
    rw [payload] at change
    exact ⟨⟨rfl, by simp [changedDoc, change], by simp [isSyncStep2, change], rfl, Or.inl rfl,
      silent⟩, rfl⟩

theorem dispatch_update (laws : js.Laws y) {frame rest left : Bytes} {syncType : Number} {s : State js W}
    (read : readVarUint frame = .ok messageSync rest) (inner : readVarUint rest = .ok syncType left)
    (kind : syncType = messageYjsSyncStep2 ∨ syncType = messageYjsUpdate) :
    Ends (dispatch frame) (Dispatched opts frame s) (Dispatched opts frame s none) s := by
  have valid : validateFrame js frame = _ := validate_update laws read inner kind
  have change := documentChange_update read inner kind
  cases payload : readVarUint8Array left with
  | error e more =>
    rw [payload] at valid change
    cases trailing : hasContent more with
    | true =>
      simp only [trailing, ↓reduceIte] at valid change
      exact dispatch_dropped valid change
    | false =>
      simp only [trailing, Bool.false_eq_true, ↓reduceIte] at valid change
      rw [dispatch_valid read valid]
      exact receiveSync_update laws inner kind (by rw [change, payload])
  | ok update more =>
    rw [payload] at valid change
    cases trailing : hasContent more with
    | true =>
      simp only [trailing, ↓reduceIte] at valid change
      exact dispatch_dropped valid change
    | false =>
      simp only [trailing, Bool.false_eq_true, ↓reduceIte] at valid change
      rw [dispatch_valid read valid]
      exact receiveSync_update laws inner kind (by rw [change, payload])

theorem dispatch_step1 (laws : js.Laws y) {frame rest left : Bytes} {s : State js W}
    (read : readVarUint frame = .ok messageSync rest)
    (inner : readVarUint rest = .ok messageYjsSyncStep1 left) (unread : documentChange frame = none) :
    Ends (dispatch frame) (Dispatched opts frame s) (Dispatched opts frame s none) s := by
  cases checked : validateFrame js frame with
  | error e more => exact dispatch_dropped checked unread
  | ok type more =>
    have valid : type = some messageSync := by
      rw [validate_sync read] at checked
      split at checked
      · simp at checked
      · split at checked
        · simp at checked
        · exact (EStateM.Result.ok.inj checked).1.symm
    subst valid
    rw [dispatch_valid read checked]
    exact receiveSync_step1 laws inner unread

theorem dispatch_sync (laws : js.Laws y) {frame rest : Bytes} {s : State js W}
    (read : readVarUint frame = .ok messageSync rest) :
    Ends (dispatch frame) (Dispatched opts frame s) (Dispatched opts frame s none) s := by
  cases inner : readVarUint rest with
  | error e left =>
    have invalid : validateFrame js frame = .error e left := by
      rw [validate_sync read, dryRun, sync_error laws inner]
    exact dispatch_dropped invalid (by simp [documentChange, read, inner])
  | ok syncType left =>
    by_cases kind : syncType = messageYjsSyncStep2 ∨ syncType = messageYjsUpdate
    · exact dispatch_update laws read inner kind
    · have unread : documentChange frame = none := by
        simp [documentChange, read, inner, kind]
      by_cases step1 : syncType = messageYjsSyncStep1
      · subst step1
        exact dispatch_step1 laws read inner unread
      · have invalid : validateFrame js frame = .error "Unknown message type" left := by
          rw [validate_sync read, dryRun, sync_unknown laws inner step1 kind]
        exact dispatch_dropped invalid unread

theorem receiveAwareness_ends {frame rest : Bytes} {s : State js W}
    (none : documentChange frame = none) :
    Ends (receiveAwareness rest) (Dispatched opts frame s) (Dispatched opts frame s Option.none) s := by
  simp only [receiveAwareness, ends_bind, ends_core]
  cases s.2.1.awareness with
  | none => exact Dispatched.unchanged none s.2.1.awareness
  | some awareness =>
    cases readVarUint8Array rest with
    | error e left => exact Dispatched.unchanged none s.2.1.awareness
    | ok update left =>
      simp only [ends_bind, ends_assignCore]
      cases (js.applyAwarenessUpdate awareness update).2 <;>
        exact Dispatched.unchanged none (some (js.applyAwarenessUpdate awareness update).1)

theorem dispatch_ends (laws : js.Laws y) (frame : Bytes) (s : State js W) :
    Ends (dispatch frame) (Dispatched opts frame s) (Dispatched opts frame s none) s := by
  cases read : readVarUint frame with
  | error e left =>
    have invalid : validateFrame js frame = .error e left := by
      simp [validateFrame, bind, EStateM.bind, read]
    exact dispatch_dropped invalid (by simp [documentChange, read])
  | ok type rest =>
    by_cases sync : type = messageSync
    · subst sync
      exact dispatch_sync laws read
    · have unread : documentChange frame = none := by simp [documentChange, read, sync]
      by_cases awareness : type = messageAwareness
      · subst awareness
        cases checked : validateFrame js frame with
        | error e left => exact dispatch_dropped checked unread
        | ok type left =>
          simp only [dispatch, checked, read, sync, ↓reduceIte]
          cases type with
          | none => exact Dispatched.unchanged unread s.2.1.awareness
          | some type => exact receiveAwareness_ends unread
      · simp only [dispatch, validate_other read sync awareness]
        exact Dispatched.unchanged unread s.2.1.awareness

/-- receive never throws. It applies what documentChange says and raises the synced
    flag for a SyncStep2; queue and transport are not touched. -/
theorem receive_ends (laws : js.Laws y) (frame : Bytes) (s : State js W) :
    Ends (receive opts frame) (Received opts frame s) (fun _ => False) s := by
  have ends : Ends _ (Dispatched opts frame s) _ s := dispatch_ends laws frame s
  unfold Ends at ends
  simp only [receive, ends_tryCatch]
  split
  · rename_i reply t returned
    rw [returned] at ends
    exact ends.1
  · rename_i e t thrown
    rw [thrown] at ends
    obtain ⟨received, world⟩ := ends
    simp only [ends_bind, ends_modify]
    exact ⟨received.queue, received.doc, received.synced, received.attached,
      Or.inr ⟨e, by rw [world]⟩, received.reply⟩

end Yrby.Frames
