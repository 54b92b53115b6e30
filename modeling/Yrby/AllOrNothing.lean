import Yrby.Client
import Yrby.Presence
import Yrby.Reference.Client

/- Whether a received frame is applied in full or not at all. y-protocols keeps to
   itself what is raised while an update is read or applied, so validation passes
   such a frame. -/
namespace Yrby.AllOrNothing
open Causal Document Wire Effects Session Frames Presence

inductive ClientMessage where
  | syncStep1 (stateVector : Bytes)
  | syncStep2 (update : Bytes)
  | update (update : Bytes)
  | awareness (entries : List Entry)

/-- What a frame is to a session. -/
inductive Class where
  | message (m : ClientMessage)
  | foreign
  | malformed

variable {js : Yjs} {y : Yrs} {hear : js.Awareness → Entry → js.Awareness}

def syncClass (js : Yjs) (doc : js.Doc) (syncType : Number) (payload : Bytes) : Class :=
  if syncType = messageYjsSyncStep1 then
    if (js.encodeStateAsUpdate doc payload).isOk then .message (.syncStep1 payload) else .malformed
  else if syncType = messageYjsSyncStep2 then
    if (js.applyUpdate doc payload).2.isOk then .message (.syncStep2 payload) else .malformed
  else if syncType = messageYjsUpdate then
    if (js.applyUpdate doc payload).2.isOk then .message (.update payload) else .malformed
  else .malformed

def presenceClass (rest : Bytes) : Class :=
  match presenceOf rest with
  | some found => if isSound found then .message (.awareness found.2) else .malformed
  | none => .malformed

def classOf (js : Yjs) (frame : Bytes) (doc : js.Doc) : Class :=
  match readVarUint frame with
  | .error _ _ => .malformed
  | .ok type rest =>
    if type = messageSync then
      match readVarUint rest with
      | .error _ _ => .malformed
      | .ok syncType rest =>
        match readVarUint8Array rest with
        | .ok payload [] => syncClass js doc syncType payload
        | _ => .malformed
    else if type = messageAwareness then presenceClass rest
    else .foreign

def Applied (hear : js.Awareness → Entry → js.Awareness) (s : Client.Session js)
    (reply : Option Bytes) (t : Client.Session js) : ClientMessage → Prop
  | .syncStep1 stateVector => t = s ∧ ∃ update,
      js.encodeStateAsUpdate s.2.1.doc stateVector = .ok update ∧
        reply = some (syncFrame messageYjsSyncStep2 update)
  | .syncStep2 update => reply = none ∧ t = (s.1, { s.2.1 with
      doc := (js.applyUpdate s.2.1.doc update).1, synced := true }, s.2.2)
  | .update update => reply = none ∧ t = (s.1, { s.2.1 with
      doc := (js.applyUpdate s.2.1.doc update).1 }, s.2.2)
  | .awareness entries => reply = none ∧ t = (s.1, { s.2.1 with
      awareness := s.2.1.awareness.map (entries.foldl hear) }, s.2.2)

def Dropped (s : Client.Session js) (reply : Option Bytes) (t : Client.Session js) : Prop :=
  reply = none ∧ ∃ e, t = (s.1, s.2.1, { s.2.2 with errors := s.2.2.errors ++ [(e, "receive")] })

/-- receive never throws, and what it did is what the class of the frame says. -/
def Whole (hear : js.Awareness → Entry → js.Awareness) (frame : Bytes)
    (s : Client.Session js) : Prop :=
  Ends (receive Client.transport frame) (fun reply t =>
    match classOf js frame s.2.1.doc with
    | .message m => Applied hear s reply t m
    | .foreign => reply = none ∧ t = s
    | .malformed => Dropped s reply t) (fun _ => False) s

/-- A SyncStep2 or an Update at whose payload y-protocols logs an error: it cannot be
    read, or not be applied, and nothing is left after it. -/
def Swallowed (js : Yjs) (frame : Bytes) (doc : js.Doc) : Prop :=
  match documentChange frame with
  | none => False
  | some (_, none) => True
  | some (_, some update) => (js.applyUpdate doc update).2.isOk = false

/-- An awareness message that is read to its end, with a count, a client id or a clock
    that is spelled in more bytes than a double counts in. -/
def Overflown (frame : Bytes) : Prop :=
  ∃ rest found, readVarUint frame = .ok messageAwareness rest ∧ presenceOf rest = some found ∧
    isSound found = false

variable {frame rest : Bytes} {s : Client.Session js}

theorem receive_returns {post : Option Bytes → Client.Session js → Prop}
    (ends : Ends (dispatch frame) post (fun _ => False) s) :
    Ends (receive Client.transport frame) post (fun _ => False) s := by
  unfold Ends at ends
  simp only [receive, ends_tryCatch]
  split at ends
  · rename_i reply t returned
    simpa [returned] using ends
  · exact ends.elim

theorem receive_drops {e : JsError} (invalid : validateFrame js frame = .error e rest) :
    Ends (receive Client.transport frame) (Dropped s) (fun _ => False) s := by
  have thrown : dispatch frame s = .error e s := by
    simp only [dispatch, invalid]
    rfl
  simp only [receive, ends_tryCatch, thrown, ends_bind, ends_modify]
  exact ⟨rfl, e, rfl⟩

theorem whole_malformed {e : JsError} (malformed : classOf js frame s.2.1.doc = .malformed)
    (invalid : validateFrame js frame = .error e rest) : Whole hear frame s := by
  unfold Whole
  rw [malformed]
  exact receive_drops invalid

theorem whole_message {m : ClientMessage} (message : classOf js frame s.2.1.doc = .message m)
    (applied : Ends (dispatch frame) (fun reply t => Applied hear s reply t m) (fun _ => False) s) :
    Whole hear frame s := by
  unfold Whole
  rw [message]
  exact receive_returns applied

theorem syncClass_other {doc : js.Doc} {syncType : Number} {payload : Bytes}
    (step1 : syncType ≠ messageYjsSyncStep1)
    (other : ¬ (syncType = messageYjsSyncStep2 ∨ syncType = messageYjsUpdate)) :
    syncClass js doc syncType payload = .malformed := by
  obtain ⟨step2, update⟩ := not_or.mp other
  simp only [syncClass, step1, step2, update, ↓reduceIte]

theorem classOf_sync {left : Bytes} {syncType : Number} {payload : Bytes} (doc : js.Doc)
    (read : readVarUint frame = .ok messageSync rest) (inner : readVarUint rest = .ok syncType left)
    (body : readVarUint8Array left = .ok payload []) :
    classOf js frame doc = syncClass js doc syncType payload := by
  simp only [classOf, read, inner, body, ↓reduceIte]

theorem classOf_unread {left : Bytes} {syncType : Number} (doc : js.Doc)
    (read : readVarUint frame = .ok messageSync rest) (inner : readVarUint rest = .ok syncType left)
    (body : ∀ payload, readVarUint8Array left ≠ .ok payload []) :
    classOf js frame doc = .malformed := by
  simp only [classOf, read, inner, ↓reduceIte]

theorem validate_step1 (laws : js.Laws y) {left : Bytes}
    (read : readVarUint frame = .ok messageSync rest)
    (inner : readVarUint rest = .ok messageYjsSyncStep1 left) :
    validateFrame js frame = match readVarUint8Array left with
      | .error e left => .error e left
      | .ok sv left =>
        match js.encodeStateAsUpdate js.newDoc sv with
        | .error e => .error e left
        | .ok _ =>
          if hasContent left then .error "frame has trailing bytes after a complete message" left
          else .ok (some messageSync) left := by
  rw [validate_sync read, dryRun, sync_step1 laws inner]
  cases readVarUint8Array left with
  | error e left => rfl
  | ok sv left =>
    dsimp only
    cases js.encodeStateAsUpdate js.newDoc sv <;> rfl

theorem replyOf_syncStep2 (update : Bytes) :
    replyOf (writeVarUint messageSync ++ writeVarUint messageYjsSyncStep2 ++
      writeVarUint8Array update) = some (syncFrame messageYjsSyncStep2 update) := by
  unfold replyOf
  rw [if_pos]
  · rfl
  · have tag : (writeVarUint messageSync).length = 1 := rfl
    have kind : (writeVarUint messageYjsSyncStep2).length = 1 := rfl
    simp only [List.length_append]
    omega

/- A state vector is read on the scratch document as on the real one. -/
theorem whole_step1 (laws : js.Laws y) (readable : Readable js) {left : Bytes}
    (read : readVarUint frame = .ok messageSync rest)
    (inner : readVarUint rest = .ok messageYjsSyncStep1 left) : Whole hear frame s := by
  have checked := validate_step1 laws read inner
  cases body : readVarUint8Array left with
  | error e left' =>
    rw [body] at checked
    exact whole_malformed (classOf_unread _ read inner (by simp [body])) checked
  | ok sv left' =>
    simp only [body] at checked
    have same := readable js.newDoc s.2.1.doc sv
    cases scratch : js.encodeStateAsUpdate js.newDoc sv with
    | error e =>
      simp only [scratch] at checked same
      apply whole_malformed _ checked
      cases left' with
      | nil =>
        rw [classOf_sync _ read inner body]
        have unreadable : (js.encodeStateAsUpdate s.2.1.doc sv).isOk = false := same.symm
        simp only [syncClass, ↓reduceIte, unreadable, Bool.false_eq_true]
      | cons b left' => exact classOf_unread _ read inner (by simp [body])
    | ok update =>
      simp only [scratch] at checked same
      cases left' with
      | cons b left' =>
        exact whole_malformed (classOf_unread _ read inner (by simp [body])) checked
      | nil =>
        have valid : validateFrame js frame = .ok (some messageSync) [] := checked
        cases answer : js.encodeStateAsUpdate s.2.1.doc sv with
        | error e => simp [answer, Except.isOk, Except.toBool] at same
        | ok update' =>
          have message : classOf js frame s.2.1.doc = .message (.syncStep1 sv) := by
            rw [classOf_sync _ read inner body]
            simp only [syncClass, ↓reduceIte, answer, Except.isOk, Except.toBool]
          apply whole_message message
          rw [dispatch_valid read valid]
          simp only [receiveSync, ends_bind, ends_core]
          rw [sync_step1 laws inner, body]
          simp only [answer, ends_bind, ends_assignCore, ends_pure, replyOf_syncStep2]
          have asked : ((messageYjsSyncStep1 : Number) == messageYjsSyncStep2) = false := by decide
          refine ⟨?_, update', answer, rfl⟩
          simp only [asked, Bool.or_false]

theorem whole_applied (laws : js.Laws y) {left update : Bytes} {syncType : Number}
    (read : readVarUint frame = .ok messageSync rest) (inner : readVarUint rest = .ok syncType left)
    (kind : syncType = messageYjsSyncStep2 ∨ syncType = messageYjsUpdate)
    (body : readVarUint8Array left = .ok update [])
    (taken : (js.applyUpdate s.2.1.doc update).2.isOk = true) : Whole hear frame s := by
  have valid : validateFrame js frame = .ok (some messageSync) [] := by
    rw [validate_update laws read inner kind, body]
    rfl
  have class_eq := classOf_sync s.2.1.doc read inner body
  have silent : replyOf (writeVarUint messageSync) = none := by decide
  rcases kind with rfl | rfl
  · have message : classOf js frame s.2.1.doc = .message (.syncStep2 update) := by
      rw [class_eq]
      simp [syncClass, messageYjsSyncStep1, messageYjsSyncStep2, taken]
    apply whole_message message
    rw [dispatch_valid read valid]
    simp only [receiveSync, ends_bind, ends_core]
    rw [sync_update laws inner (Or.inl rfl), body]
    simp only [ends_bind, ends_assignCore, ends_pure, silent]
    exact ⟨rfl, by simp⟩
  · have message : classOf js frame s.2.1.doc = .message (.update update) := by
      rw [class_eq]
      simp [syncClass, messageYjsSyncStep1, messageYjsSyncStep2, messageYjsUpdate, taken]
    apply whole_message message
    rw [dispatch_valid read valid]
    simp only [receiveSync, ends_bind, ends_core]
    rw [sync_update laws inner (Or.inr rfl), body]
    simp only [ends_bind, ends_assignCore, ends_pure, silent]
    exact ⟨rfl, by simp [messageYjsSyncStep2, messageYjsUpdate]⟩

theorem receive_silent (laws : js.Laws y) {left more : Bytes} {syncType : Number}
    (read : readVarUint frame = .ok messageSync rest) (inner : readVarUint rest = .ok syncType left)
    (kind : syncType = messageYjsSyncStep2 ∨ syncType = messageYjsUpdate)
    (valid : validateFrame js frame = .ok (some messageSync) more) :
    Ends (receive Client.transport frame) (fun _ t => t.2.2 = s.2.2) (fun _ => False) s := by
  apply receive_returns
  rw [dispatch_valid read valid]
  simp only [receiveSync, ends_bind, ends_core]
  rw [sync_update laws inner kind]
  cases readVarUint8Array left <;> simp only [ends_bind, ends_assignCore, ends_pure]

theorem malformed_reported (malformed : classOf js frame s.2.1.doc = .malformed)
    (whole : Whole hear frame s)
    (silent : Ends (receive Client.transport frame) (fun _ t => t.2.2 = s.2.2) (fun _ => False) s) :
    False := by
  unfold Whole at whole
  rw [malformed] at whole
  unfold Ends at whole silent
  split at whole
  · rename_i reply t returned
    rw [returned] at silent
    obtain ⟨_, e, rfl⟩ := whole
    simpa using congrArg Client.Host.errors silent
  · exact whole

theorem swallowed_update {doc : js.Doc} (swallowed : Swallowed js frame doc) :
    ∃ rest left syncType, readVarUint frame = .ok messageSync rest ∧
      readVarUint rest = .ok syncType left ∧
      (syncType = messageYjsSyncStep2 ∨ syncType = messageYjsUpdate) := by
  cases read : readVarUint frame with
  | error e left => simp [Swallowed, documentChange, read] at swallowed
  | ok type rest =>
    by_cases sync : type = messageSync
    · subst sync
      cases inner : readVarUint rest with
      | error e left => simp [Swallowed, documentChange, read, inner] at swallowed
      | ok syncType left =>
        by_cases kind : syncType = messageYjsSyncStep2 ∨ syncType = messageYjsUpdate
        · exact ⟨rest, left, syncType, rfl, inner, kind⟩
        · simp [Swallowed, documentChange, read, inner, kind] at swallowed
    · simp [Swallowed, documentChange, read, sync] at swallowed

theorem swallowed_malformed {doc : js.Doc} (swallowed : Swallowed js frame doc) :
    classOf js frame doc = .malformed := by
  obtain ⟨rest, left, syncType, read, inner, kind⟩ := swallowed_update swallowed
  unfold Swallowed at swallowed
  rw [documentChange_update read inner kind] at swallowed
  cases body : readVarUint8Array left with
  | error e more => exact classOf_unread _ read inner (by simp [body])
  | ok update more =>
    simp only [body] at swallowed
    cases more with
    | cons b more => simp [hasContent] at swallowed
    | nil =>
      have refused : (js.applyUpdate doc update).2.isOk = false := swallowed
      rw [classOf_sync _ read inner body]
      rcases kind with rfl | rfl
      · simp [syncClass, messageYjsSyncStep1, messageYjsSyncStep2, refused]
      · simp [syncClass, messageYjsSyncStep1, messageYjsSyncStep2, messageYjsUpdate, refused]

theorem swallowed_not_whole (laws : js.Laws y) (swallowed : Swallowed js frame s.2.1.doc) :
    ¬ Whole hear frame s := by
  intro whole
  apply malformed_reported (swallowed_malformed swallowed) whole
  obtain ⟨rest, left, syncType, read, inner, kind⟩ := swallowed_update swallowed
  unfold Swallowed at swallowed
  rw [documentChange_update read inner kind] at swallowed
  have valid := validate_update laws read inner kind
  cases body : readVarUint8Array left with
  | error e more =>
    simp only [body] at swallowed valid
    cases more with
    | cons b more => simp [hasContent] at swallowed
    | nil => exact receive_silent laws read inner kind valid
  | ok update more =>
    simp only [body] at swallowed valid
    cases more with
    | cons b more => simp [hasContent] at swallowed
    | nil => exact receive_silent laws read inner kind valid

theorem whole_update (laws : js.Laws y) {left : Bytes} {syncType : Number}
    (read : readVarUint frame = .ok messageSync rest) (inner : readVarUint rest = .ok syncType left)
    (kind : syncType = messageYjsSyncStep2 ∨ syncType = messageYjsUpdate)
    (clear : ¬ Swallowed js frame s.2.1.doc) : Whole hear frame s := by
  unfold Swallowed at clear
  rw [documentChange_update read inner kind] at clear
  have checked := validate_update laws read inner kind
  cases body : readVarUint8Array left with
  | error e more =>
    simp only [body] at clear checked
    cases more with
    | nil => simp [hasContent] at clear
    | cons b more =>
      exact whole_malformed (classOf_unread _ read inner (by simp [body])) checked
  | ok update more =>
    simp only [body] at clear checked
    cases more with
    | nil =>
      apply whole_applied laws read inner kind body
      simpa [hasContent] using clear
    | cons b more =>
      exact whole_malformed (classOf_unread _ read inner (by simp [body])) checked

theorem whole_sync (laws : js.Laws y) (readable : Readable js)
    (read : readVarUint frame = .ok messageSync rest) (clear : ¬ Swallowed js frame s.2.1.doc) :
    Whole hear frame s := by
  cases inner : readVarUint rest with
  | error e left =>
    have invalid : validateFrame js frame = .error e left := by
      rw [validate_sync read, dryRun, sync_error laws inner]
    have malformed : classOf js frame s.2.1.doc = .malformed := by
      simp only [classOf, read, inner, ↓reduceIte]
    exact whole_malformed malformed invalid
  | ok syncType left =>
    by_cases kind : syncType = messageYjsSyncStep2 ∨ syncType = messageYjsUpdate
    · exact whole_update laws read inner kind clear
    · by_cases step1 : syncType = messageYjsSyncStep1
      · subst step1
        exact whole_step1 laws readable read inner
      · have invalid : validateFrame js frame = .error "Unknown message type" left := by
          rw [validate_sync read, dryRun, sync_unknown laws inner step1 kind]
        apply whole_malformed _ invalid
        simp only [classOf, read, inner, ↓reduceIte]
        split
        · exact syncClass_other step1 kind
        · rfl

theorem receive_presence (hears : Presence.Laws js hear) {found : Number × List Entry}
    (read : readVarUint frame = .ok messageAwareness rest) (presence : presenceOf rest = some found) :
    Ends (receive Client.transport frame) (fun reply t => Applied hear s reply t (.awareness found.2))
      (fun _ => False) s := by
  have valid : validateFrame js frame = .ok (some messageAwareness) [] := validate_presence read presence
  have other : (messageAwareness : Number) ≠ messageSync := by decide
  obtain ⟨payload, body, inside⟩ := presenceOf_some.mp presence
  apply receive_returns
  simp only [dispatch, valid, read, other, ↓reduceIte, receiveAwareness, ends_bind, ends_core]
  cases present : s.2.1.awareness with
  | none =>
    have absent : s.2.1.awareness.map (found.2.foldl hear) = s.2.1.awareness := by
      rw [present]
      rfl
    refine ⟨rfl, ?_⟩
    rw [absent]
  | some awareness =>
    have heard := documentedAwareness_read hear inside awareness
    rw [← hears.applyAwarenessUpdate_eq] at heard
    simp only [body, heard, ends_bind, ends_assignCore]
    exact ⟨rfl, by simp [present]⟩

theorem classOf_presence (doc : js.Doc) (read : readVarUint frame = .ok messageAwareness rest) :
    classOf js frame doc = presenceClass rest := by
  have other : (messageAwareness : Number) ≠ messageSync := by decide
  simp only [classOf, read, other, ↓reduceIte]

theorem overflown_not_whole (hears : Presence.Laws js hear) (overflown : Overflown frame) :
    ¬ Whole hear frame s := by
  intro whole
  obtain ⟨rest, found, read, presence, unsound⟩ := overflown
  have malformed : classOf js frame s.2.1.doc = .malformed := by
    simp only [classOf_presence _ read, presenceClass, presence, unsound, Bool.false_eq_true, ↓reduceIte]
  apply malformed_reported malformed whole
  exact (receive_presence hears read presence).mono (fun _ _ applied => by rw [applied.2]) fun _ => id

theorem not_overflown {type : Number} (read : readVarUint frame = .ok type rest)
    (other : type ≠ messageAwareness) : ¬ Overflown frame := by
  intro ⟨rest', found, read', _⟩
  rw [read] at read'
  exact other (EStateM.Result.ok.inj read').1

theorem message_not_overflown {doc : js.Doc} {m : ClientMessage}
    (message : classOf js frame doc = .message m) : ¬ Overflown frame := by
  intro ⟨rest, found, read, presence, unsound⟩
  rw [classOf_presence _ read, presenceClass, presence] at message
  simp only [unsound, Bool.false_eq_true, ↓reduceIte] at message
  cases message

theorem whole_presence (hears : Presence.Laws js hear)
    (read : readVarUint frame = .ok messageAwareness rest) (fits : ¬ Overflown frame) :
    Whole hear frame s := by
  cases presence : presenceOf rest with
  | none =>
    obtain ⟨e, left, invalid⟩ := @validate_absent js _ _ read presence
    apply whole_malformed _ invalid
    simp only [classOf_presence _ read, presenceClass, presence]
  | some found =>
    have sound : isSound found = true := by
      by_contra unsound
      exact fits ⟨rest, found, read, presence, Bool.not_eq_true _ ▸ unsound⟩
    have message : classOf js frame s.2.1.doc = .message (.awareness found.2) := by
      simp only [classOf_presence _ read, presenceClass, presence, sound, ↓reduceIte]
    unfold Whole
    rw [message]
    exact receive_presence hears read presence

theorem whole_clear (laws : js.Laws y) (hears : Presence.Laws js hear) (readable : Readable js)
    (clear : ¬ Swallowed js frame s.2.1.doc) (fits : ¬ Overflown frame) : Whole hear frame s := by
  cases read : readVarUint frame with
  | error e left =>
    have invalid : validateFrame js frame = .error e left := by
      simp [validateFrame, bind, EStateM.bind, read]
    have malformed : classOf js frame s.2.1.doc = .malformed := by simp only [classOf, read]
    exact whole_malformed malformed invalid
  | ok type rest =>
    by_cases sync : type = messageSync
    · subst sync
      exact whole_sync laws readable read clear
    · by_cases awareness : type = messageAwareness
      · subst awareness
        exact whole_presence hears read fits
      · have foreign : classOf js frame s.2.1.doc = .foreign := by
          simp only [classOf, read, sync, awareness, ↓reduceIte]
        unfold Whole
        rw [foreign]
        apply receive_returns
        simp only [dispatch, validate_other read sync awareness]
        exact ⟨rfl, rfl⟩

/-- A frame is received in full or not at all, unless y-protocols swallows it or a number
    of its presence overflows. -/
theorem whole_iff (laws : js.Laws y) (hears : Presence.Laws js hear) (readable : Readable js)
    (frame : Bytes) (s : Client.Session js) :
    Whole hear frame s ↔ ¬ Swallowed js frame s.2.1.doc ∧ ¬ Overflown frame := by
  constructor
  · intro whole
    constructor
    · intro swallowed
      exact swallowed_not_whole laws swallowed whole
    · intro overflown
      exact overflown_not_whole hears overflown whole
  · intro ⟨clear, fits⟩
    exact whole_clear laws hears readable clear fits

def typing : Bytes := Reference.encodeDelta ⟨[Reference.typed 1 0 none], []⟩

def fresh : Client.Session Reference.client :=
  construct Reference.client.newDoc (some (Reference.client.newAwareness Reference.client.newDoc))
    Client.Host.idle

theorem typed_and_cut_whole : Whole Reference.Cursors.heard (syncFrame messageYjsUpdate typing) fresh ∧
    Whole Reference.Cursors.heard [0] fresh := by
  have sync : ∀ rest, ¬ Overflown (0 :: rest) := fun rest =>
    not_overflown (readVarUint_byte (r := 0) (by decide) rest) (by decide)
  constructor
  · apply (whole_iff Reference.client_laws Reference.client_hears Reference.client_readable _ _).mpr
    have change : documentChange (syncFrame messageYjsUpdate typing) =
        some (.finite messageYjsUpdate, some typing) := by decide +kernel
    refine ⟨?_, sync _⟩
    have taken : (Reference.client.applyUpdate fresh.2.1.doc typing).2.isOk = true := by decide +kernel
    simp only [Swallowed, change, taken]
    simp
  · exact (whole_iff Reference.client_laws Reference.client_hears Reference.client_readable _ _).mpr
      ⟨id, sync []⟩

/- A SyncStep2 cut after its type raises the synced flag, and is not reported. -/
theorem cut_syncStep2_swallowed : ¬ ∀ (js : Yjs) (y : Yrs)
    (hear : js.Awareness → Entry → js.Awareness), js.Laws y → Presence.Laws js hear → Readable js →
    ∀ (frame : Bytes) (s : Client.Session js), Whole hear frame s := by
  intro always
  have whole := always _ _ _ Reference.client_laws Reference.client_hears Reference.client_readable
    [0, 1] (construct Reference.client.newDoc none Client.Host.idle)
  have clear := (whole_iff Reference.client_laws Reference.client_hears Reference.client_readable _ _).mp whole
  exact clear.1 trivial

end Yrby.AllOrNothing
