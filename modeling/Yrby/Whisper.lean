import Yrby.Effects.Runs
import Yrby.Provider
import Yrby.Reference.Client

/- What a whispered message can touch. received takes whispers, broadcasts and acks
   alike, so what another client whispers under update or ack counts as the server's. -/
namespace Yrby.Whisper
open Document Wire Effects Session Frames Provider

variable {js : Yjs} {y : Yrs}

structure Untouched (s t : ActionCableProvider js) : Prop where
  doc : t.2.1.doc = s.2.1.doc
  pending : t.1.pending = s.1.pending
  synced : Session.synced t = Session.synced s

/-- An ack that takes something off the queue. -/
def Prunes (self : ReliableSync) (id : Value) : Prop :=
  ∃ n, ReliableSync.ackedSeq id = some n ∧ self.fromFuture n = false ∧ ∃ p ∈ self.pending, p.seq ≤ n

/-- An ack takes nothing off the queue, and a frame holds no update that is new to
    the document, nor the first SyncStep2. -/
def Harmless (s : ActionCableProvider js) (message : Value) : Prop :=
  match openMessage message with
  | .ack id => ¬ Prunes s.1 id
  | .frame frame => ∀ syncType update, documentChange frame = some (syncType, update) →
      (syncType = messageYjsSyncStep2 → Session.synced s = true) ∧
      ∀ u, update = some u → (js.applyUpdate s.2.1.doc u).1 = s.2.1.doc
  | _ => True

theorem prunes_iff {self : ReliableSync} {id : Value} :
    (self.acked id).pending = self.pending ↔ ¬ Prunes self id := by
  unfold ReliableSync.acked Prunes
  cases ReliableSync.ackedSeq id with
  | none => simp
  | some n =>
    cases future : self.fromFuture n with
    | true => simp [future]
    | false =>
      simp only [future, Bool.false_eq_true, ↓reduceIte, ReliableSync.prune, List.filter_eq_self,
        decide_eq_true_eq, Option.some.injEq, not_exists, not_and, not_le]
      constructor
      · intro above m same _
        rw [← same]
        exact above
      · intro above
        exact above n rfl future

theorem harmless_frame {s : ActionCableProvider js} {frame : Bytes} :
    (changedDoc js frame s.2.1.doc = s.2.1.doc ∧
        (s.2.1.synced || isSyncStep2 frame) = s.2.1.synced) ↔
      ∀ syncType update, documentChange frame = some (syncType, update) →
        (syncType = messageYjsSyncStep2 → s.2.1.synced = true) ∧
        ∀ u, update = some u → (js.applyUpdate s.2.1.doc u).1 = s.2.1.doc := by
  unfold changedDoc isSyncStep2
  cases documentChange frame with
  | none => simp
  | some change =>
    obtain ⟨syncType, update⟩ := change
    have flag : (s.2.1.synced || syncType == messageYjsSyncStep2) = s.2.1.synced ↔
        (syncType = messageYjsSyncStep2 → s.2.1.synced = true) := by
      cases s.2.1.synced <;> simp
    cases update with
    | none =>
      simp only [flag, true_and]
      constructor
      · intro low syncType' update' same
        obtain ⟨rfl, rfl⟩ := Prod.mk.inj (Option.some.inj same)
        exact ⟨low, by simp⟩
      · intro all
        exact (all syncType none rfl).1
    | some u =>
      simp only [flag]
      constructor
      · intro both syncType' update' same
        obtain ⟨rfl, rfl⟩ := Prod.mk.inj (Option.some.inj same)
        refine ⟨both.2, fun u' same' => ?_⟩
        obtain rfl := Option.some.inj same'
        exact both.1
      · intro all
        exact ⟨(all syncType (some u) rfl).2 u rfl, (all syncType (some u) rfl).1⟩

theorem received_moves (laws : js.Laws y) (s : ActionCableProvider js) (message : Value) :
    Moves (effect (.callback 0 (.received true message)) (holding s)) (relinked message (link s)) s
      (after (received message) s) := leaves_iff.mp (received_leaves laws s 0 true message)

theorem untouched_iff (laws : js.Laws y) (s : ActionCableProvider js) (message : Value) :
    Untouched s (after (received message) s) ↔ Harmless s message := by
  have moves := received_moves laws s message
  have doc := congrArg Holding.doc moves.holding
  have pending := congrArg Holding.pending moves.holding
  have synced := congrArg Link.synced moves.link
  have untouched : Untouched s (after (received message) s) ↔
      (effect (.callback 0 (.received true message)) (holding s)).doc = s.2.1.doc ∧
      (effect (.callback 0 (.received true message)) (holding s)).pending = s.1.pending ∧
      (relinked message (link s)).synced = s.2.1.synced := by
    rw [← doc, ← pending, ← synced]
    exact ⟨fun u => ⟨u.doc, u.pending, u.synced⟩, fun u => ⟨u.1, u.2.1, u.2.2⟩⟩
  rw [untouched]
  unfold Harmless relinked
  simp only [effect]
  cases openMessage message with
  | ack id =>
    simp only [holding, link, true_and, and_true, ← acked_pending]
    exact prunes_iff
  | ignored => simp [holding, link]
  | malformed e => simp [holding, link]
  | frame frame =>
    simp only [holding, link, true_and, Link.refreshed]
    exact harmless_frame

theorem documentChange_first {frame : Bytes} (awareness : isAwareness frame = true) :
    documentChange frame = none := by
  cases frame with
  | nil => simp [isAwareness] at awareness
  | cons b rest =>
    have first : b.toNat = 1 := by simpa [isAwareness, messageAwareness] using awareness
    have read := readVarUint_byte (r := b) (by omega) rest
    rw [first] at read
    simp [documentChange, read, messageSync]

theorem openPayload_awareness {awarenessPayload : Value} (payload : Value)
    (defined : awarenessPayload.isUndefined = false) :
    openPayload awarenessPayload payload = .ignored ∨
    (∃ e, openPayload awarenessPayload payload = .malformed e) ∨
    ∃ frame, openPayload awarenessPayload payload = .frame frame ∧ isAwareness frame = true := by
  cases payload with
  | str text =>
    cases decoded : Base64.fromBase64 text with
    | none => exact Or.inr (Or.inl ⟨"InvalidCharacterError", by simp [openPayload, decoded]⟩)
    | some frame =>
      cases first : isAwareness frame with
      | true => exact Or.inr (Or.inr ⟨frame, by simp [openPayload, decoded, first], first⟩)
      | false =>
        refine Or.inr (Or.inl ⟨"awareness envelope carried a non-awareness frame", ?_⟩)
        simp [openPayload, decoded, defined, first]
  | _ => exact Or.inl rfl

/-- What is whispered under awareness, as the provider whispers it, is harmless. -/
theorem awareness_harmless (s : ActionCableProvider js) {message : Value}
    (unacked : (message.member "ack").isUndefined = true)
    (enveloped : (message.member "awareness").isUndefined = false) : Harmless s message := by
  have truthy : message.falsy = false := by
    cases message <;> first | rfl | simp [Value.member, Value.isUndefined] at enveloped
  have opens : openMessage message = openPayload (message.member "awareness") (payloadOf message) := by
    simp only [openMessage, truthy, unacked, Bool.false_eq_true, ↓reduceIte]
  unfold Harmless
  rw [opens]
  rcases openPayload_awareness (payloadOf message) enveloped with is | ⟨e, is⟩ | ⟨frame, is, first⟩
  · rw [is]
    trivial
  · rw [is]
    trivial
  · rw [is]
    intro syncType update change
    simp [documentChange_first first] at change

theorem effect_harmless {s : ActionCableProvider js} {message : Value} (harmless : Harmless s message)
    (sub : Nat) : effect (.callback sub (.received true message)) (holding s) = holding s := by
  unfold Harmless at harmless
  simp only [effect]
  cases is : openMessage message with
  | ack id =>
    simp only [is] at harmless
    simp only [holding, ← acked_pending, prunes_iff.mpr harmless]
  | ignored => rfl
  | malformed e => rfl
  | frame frame =>
    simp only [is] at harmless
    simp only [holding, (harmless_frame.mpr harmless).1]

/-- An input does to the document and the queue what effect says, in whatever state
    the rest of the provider is. -/
theorem step_holding (laws : js.Laws y) (removable : Removable js) (s : ActionCableProvider js)
    (input : Input js) : holding (step input s) = effect input (holding s) := by
  cases same : sameLink input with
  | true => exact (step_sameLink s input same).holding
  | false =>
    cases input with
    | connect => exact (leaves_iff.mp (connect_leaves s)).1
    | created => exact (leaves_iff.mp (created_leaves s)).1
    | disconnect =>
      rcases leaves_iff.mp (disconnect_leaves s) with thrown | moves
      · exact thrown.2.holding
      · exact moves.holding
    | destroy =>
      rcases leaves_iff.mp (destroy_leaves s) with thrown | moves
      · exact absurd removable thrown.1
      · exact moves.holding
    | callback sub callback =>
      cases callback with
      | connected =>
        obtain ⟨⟨l, _, moves⟩, _⟩ := leaves_iff.mp (connected_leaves s)
        exact moves.holding
      | disconnected => exact (disconnected_ends s).returns.holding
      | rejected =>
        rcases leaves_iff.mp (rejected_leaves s) with thrown | moves
        · exact thrown.2.holding
        · exact moves.holding
      | received whispered message =>
        exact (leaves_iff.mp (received_leaves laws s sub whispered message)).holding
    | _ => simp [sameLink] at same

def whispered : Input js → Bool
  | .callback _ (.received whispered _) => whispered
  | _ => false

def Tolerable (s : ActionCableProvider js) : Input js → Prop
  | .callback _ (.received true message) => Harmless s message
  | _ => True

theorem tolerable_still (laws : js.Laws y) (removable : Removable js) {s : ActionCableProvider js}
    {input : Input js} (hidden : whispered input = true) (tolerable : Tolerable s input) :
    holding (step input s) = holding s := by
  unfold whispered at hidden
  split at hidden
  · subst hidden
    rename_i sub message
    rw [step_holding laws removable]
    exact effect_harmless tolerable sub
  · simp at hidden

theorem tolerable_of_open {s : ActionCableProvider js} {input : Input js}
    (told : whispered input = false) : Tolerable s input := by
  unfold Tolerable
  split
  · cases told
  · trivial

theorem client_removable : Removable Reference.client := by
  intro a
  let gone : Reference.Cursor := ⟨a.clientID, ((a.find a.clientID).map (·.clock + .finite 1)).getD (.finite 0), none⟩
  have found : (a.put gone).find a.clientID = some gone := Reference.Cursors.find_put a gone
  exact ⟨_, Reference.Cursors.encode_found found⟩

def offline : ActionCableProvider Reference.client := construct Reference.client.newDoc true true

def editing : ActionCableProvider Reference.client :=
  step (.transact Reference.client.newDoc [0, 0])
    (step (.callback 0 .connected) (step .created (step .connect offline)))

theorem editing_ran : ∃ history, Ran step offline history editing ∧
    ∀ moment ∈ history, whispered moment.2 = false := by
  have run : Ran step offline _ _ := (((Ran.start.next .connect).next .created).next
    (.callback 0 .connected)).next (.transact Reference.client.newDoc [0, 0])
  refine ⟨_, run, ?_⟩
  simp [whispered]

/- { awareness: an awareness frame with a cursor of client 2 } -/
def presence : Value := .obj [("awareness", .str "AQYBAgACW10=")]

/-- A whispered message touches neither document, queue nor synced flag exactly where
    it is harmless; runs that differ in harmless whispers agree on document and queue. -/
theorem whispers_confined_iff (laws : js.Laws y) (removable : Removable js) :
    (∀ (s : ActionCableProvider js) (message : Value),
      Untouched s (after (received message) s) ↔ Harmless s message) ∧
    ∀ (start s s' : ActionCableProvider js) history history',
      Ran step start history s → Ran step start history' s' →
      shown whispered history = shown whispered history' →
      (∀ moment ∈ history ++ history', Tolerable moment.1 moment.2) →
      s.2.1.doc = s'.2.1.doc ∧ s.1.pending = s'.1.pending := by
  refine ⟨untouched_iff laws, ?_⟩
  intro start s s' history history' run run' same tolerable
  have agree : holding s = holding s' := by
    refine Ran.views_agree (fun t input _ => step_holding laws removable t input)
      run run' (fun moment mem hidden => ?_) same
    exact tolerable_still laws removable hidden (tolerable moment mem)
  exact ⟨congrArg Holding.doc agree, congrArg Holding.pending agree⟩

theorem presence_confined :
    Untouched editing (after (received presence) editing) ∧ editing.1.pending.length = 1 ∧
    (step (.callback 0 (.received true presence)) editing).1.pending = editing.1.pending := by
  have harmless : ∀ s : ActionCableProvider Reference.client, Harmless s presence :=
    fun s => awareness_harmless s rfl rfl
  have confined := whispers_confined_iff Reference.client_laws client_removable
  refine ⟨(confined.1 editing presence).mpr (harmless editing), by decide +kernel, ?_⟩
  obtain ⟨history, run, told⟩ := editing_ran
  have openly : ∀ moment ∈ history, Tolerable moment.1 moment.2 := by
    intro moment mem
    exact tolerable_of_open (told moment mem)
  refine (confined.2 _ _ _ _ _ (run.next (.callback 0 (.received true presence))) run ?_ ?_).2
  · simp [shown, whispered]
  · intro moment mem
    simp only [List.mem_append, List.mem_singleton] at mem
    rcases mem with (early | rfl) | late
    · exact openly moment early
    · exact harmless editing
    · exact openly moment late

theorem whispered_ack_prunes : ¬ ∀ history (s : ActionCableProvider Reference.client) message,
    Ran step offline history s → Untouched s (after (received message) s) := by
  intro untouched
  obtain ⟨history, run, _⟩ := editing_ran
  have same := (untouched _ _ (.obj [("ack", .int 1)]) run).pending
  exact absurd same (by decide +kernel)

end Yrby.Whisper
