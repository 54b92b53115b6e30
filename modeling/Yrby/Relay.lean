import Yrby.AllOrNothing
import Yrby.Downstream
import Yrby.Reference.Crate

/- What the server relays, and what another client makes of it. The crate reads an
   awareness payload without parsing the states and without looking past the entries;
   the client parses each state, and takes no byte more. -/
namespace Yrby.Relay
open Causal Document Wire Yrs Protocol Effects Channel History Calls Session Frames Presence AllOrNothing

/-- A spelling that lib0 reads as n: it has 147 bytes at most, what comes before the last of
    them is a safe integer, and n is the double next to the number spelled. -/
def Safe (n : Nat) (front : Bytes) : Prop :=
  ∃ m, VarUint m front ∧ front.length ≤ 147 ∧ m % 128 ^ (front.length - 1) ≤ maxSafeInteger ∧
    Number.ofNat m = .finite n

/-- The entries of a payload, one after another, and nothing else. -/
inductive Entries : List Entry → Bytes → Prop where
  | nil : Entries [] []
  | cons {id time : Nat} {text : String} {entries : List Entry} {clientID clock len state rest : Bytes}
      (client : Safe id clientID) (timed : Safe time clock)
      (sized : Safe state.length len) (decodes : String.fromUTF8? ⟨state.toArray⟩ = some text)
      (json : Json.parse text = .ok ()) (others : Entries entries rest) :
      Entries (⟨.finite id, .finite time, text⟩ :: entries)
        (clientID ++ (clock ++ (len ++ (state ++ rest))))

def Spells (entries : List Entry) (payload : Bytes) : Prop :=
  ∃ count rest, Safe entries.length count ∧ payload = count ++ rest ∧ Entries entries rest

section
variable {n : Nat} {bytes rest : Bytes}

/-- From the 148th byte on no finite number comes of it. -/
theorem readVarUintFrom_overflown {num v : Number}
    (read : readVarUintFrom num .infinity bytes = .ok v rest) : v.isFinite = false := by
  induction bytes generalizing num with
  | nil => simp [readVarUintFrom] at read
  | cons r tail ih =>
    rw [readVarUintFrom] at read
    split at read
    · obtain ⟨rfl, _⟩ := EStateM.Result.ok.inj read
      exact Number.add_overflown _ _
    · split at read
      · simp at read
      · exact ih read

theorem readVarUintFrom_ok {a k : Nat} (start : a ≤ maxSafeInteger) (low : k ≤ 146)
    (read : readVarUintFrom (.finite a) (scale k) bytes = .ok (.finite n) rest) :
    ∃ m front, VarUint m front ∧ bytes = front ++ rest ∧ k + front.length ≤ 147 ∧
      a + m % 128 ^ (front.length - 1) * 128 ^ k ≤ maxSafeInteger ∧
      Number.ofNat (a + m * 128 ^ k) = .finite n := by
  induction bytes generalizing a k with
  | nil => simp [readVarUintFrom] at read
  | cons r tail ih =>
    rw [readVarUintFrom_cons r tail low] at read
    split at read
    · rename_i small
      obtain ⟨value, rfl⟩ := EStateM.Result.ok.inj read
      rw [Nat.mod_eq_of_lt small] at value
      refine ⟨r.toNat, [r], VarUint.last small, rfl, Nat.succ_le_succ low, ?_, value⟩
      simpa [Nat.mod_one] using start
    · rename_i big
      split at read
      · simp at read
      · rename_i inRange
        have next : k + 1 ≤ 146 := by
          by_contra last
          rw [scale_overflown (by omega)] at read
          have overflown := readVarUintFrom_overflown read
          simp [Number.isFinite] at overflown
        obtain ⟨m, front, spelled, rfl, short, safe, value⟩ := ih (Nat.not_lt.mp inRange) next read
        obtain ⟨j, length⟩ := spelled.positive
        have digit : r.toNat % 128 < 128 := Nat.mod_lt _ (by decide)
        refine ⟨_, r :: front, VarUint.more (Nat.not_lt.mp big) spelled, rfl, ?_, ?_, ?_⟩
        · rw [List.length_cons]
          omega
        · rw [length, Nat.add_sub_cancel] at safe
          rw [List.length_cons, length, Nat.add_sub_cancel, digits_split digit]
          have split : (r.toNat % 128 + 128 * (m % 128 ^ j)) * 128 ^ k =
              r.toNat % 128 * 128 ^ k + m % 128 ^ j * 128 ^ (k + 1) := by ring
          omega
        · rw [← value]
          congr 1
          ring

/-- lib0 reads the safe spellings of numbers as finite ones, and no others. -/
theorem readVarUint_iff : readVarUint bytes = .ok (.finite n) rest ↔
    ∃ front, Safe n front ∧ bytes = front ++ rest := by
  constructor
  · intro read
    have start : readVarUintFrom (.finite 0) (scale 0) bytes = .ok (.finite n) rest := by
      rw [scale_finite (Nat.zero_le _)]
      exact read
    obtain ⟨m, front, spelled, rfl, short, safe, value⟩ :=
      readVarUintFrom_ok (Nat.zero_le _) (Nat.zero_le _) start
    rw [Nat.zero_add, Nat.pow_zero, Nat.mul_one] at safe value
    exact ⟨front, ⟨m, spelled, by omega, safe, value⟩, rfl⟩
  · rintro ⟨front, ⟨m, spelled, short, safe, value⟩, rfl⟩
    rw [readVarUint_reads spelled rest short safe, value]

theorem readVarUint8Array_iff {payload : Bytes} : readVarUint8Array bytes = .ok payload rest ↔
    ∃ len, Safe payload.length len ∧ bytes = len ++ (payload ++ rest) := by
  simp only [readVarUint8Array, bind, EStateM.bind]
  constructor
  · intro read
    cases sized : readVarUint bytes with
    | error e left => simp [sized] at read
    | ok n left =>
      simp only [sized] at read
      cases n with
      | infinity => simp [readUint8Array] at read
      | nan => simp [readUint8Array] at read
      | finite n =>
        obtain ⟨len, safe, rfl⟩ := readVarUint_iff.mp sized
        simp only [readUint8Array] at read
        split at read
        · rename_i enough
          obtain ⟨rfl, rfl⟩ := EStateM.Result.ok.inj read
          have length : (left.take n).length = n := by rw [List.length_take]; omega
          refine ⟨len, ?_, ?_⟩
          · rwa [length]
          · rw [List.take_append_drop]
        · simp at read
  · rintro ⟨len, safe, rfl⟩
    rw [readVarUint_iff.mpr ⟨len, safe, rfl⟩]
    simp [readUint8Array]

theorem readVarString_iff {text : String} : Json.readVarString bytes = .ok text rest ↔
    ∃ len state, Safe state.length len ∧ String.fromUTF8? ⟨state.toArray⟩ = some text ∧
      bytes = len ++ (state ++ rest) := by
  simp only [Json.readVarString, bind, EStateM.bind]
  constructor
  · intro read
    cases taken : readVarUint8Array bytes with
    | error e left => simp [taken] at read
    | ok state left =>
      obtain ⟨len, safe, rfl⟩ := readVarUint8Array_iff.mp taken
      simp only [taken] at read
      cases decoded : String.fromUTF8? ⟨state.toArray⟩ with
      | none => simp [decoded, run_throw] at read
      | some t =>
        simp only [decoded] at read
        obtain ⟨rfl, rfl⟩ := EStateM.Result.ok.inj read
        exact ⟨len, state, safe, decoded, rfl⟩
  · rintro ⟨len, state, safe, decoded, rfl⟩
    rw [readVarUint8Array_iff.mpr ⟨len, safe, rfl⟩]
    simp only [decoded]
    rfl

theorem readEntry_iff {id time : Nat} {text : String} :
    readEntry bytes = .ok ⟨.finite id, .finite time, text⟩ rest ↔
      ∃ clientID clock len state, Safe id clientID ∧ Safe time clock ∧
        Safe state.length len ∧ String.fromUTF8? ⟨state.toArray⟩ = some text ∧
        Json.parse text = .ok () ∧ bytes = clientID ++ (clock ++ (len ++ (state ++ rest))) := by
  simp only [readEntry, bind, EStateM.bind]
  constructor
  · intro read
    cases first : readVarUint bytes with
    | error e left => simp [first] at read
    | ok id' left =>
      simp only [first] at read
      cases second : readVarUint left with
      | error e left => simp [second] at read
      | ok time' left' =>
        simp only [second] at read
        cases third : Json.readVarString left' with
        | error e left => simp [third] at read
        | ok text' left'' =>
          simp only [third] at read
          cases parsed : Json.parse text' with
          | error e =>
            simp [parsed, run_throw] at read
          | ok u =>
            simp only [parsed] at read
            obtain ⟨same, rfl⟩ := EStateM.Result.ok.inj read
            obtain ⟨rfl, rfl, rfl⟩ := Entry.mk.inj same
            obtain ⟨clientID, client, rfl⟩ := readVarUint_iff.mp first
            obtain ⟨clock, timed, rfl⟩ := readVarUint_iff.mp second
            obtain ⟨len, state, sized, decoded, rfl⟩ := readVarString_iff.mp third
            exact ⟨clientID, clock, len, state, client, timed, sized, decoded, parsed, rfl⟩
  · rintro ⟨clientID, clock, len, state, client, timed, sized, decoded, parsed, rfl⟩
    rw [readVarUint_iff.mpr ⟨clientID, client, rfl⟩]
    simp only [readVarUint_iff.mpr ⟨clock, timed, rfl⟩,
      readVarString_iff.mpr ⟨len, state, sized, decoded, rfl⟩, parsed]
    rfl

theorem isSound_entry {entry : Entry} (sound : entry.isSound = true) :
    ∃ (id time : Nat) (text : String), entry = ⟨.finite id, .finite time, text⟩ := by
  obtain ⟨clientID, clock, text⟩ := entry
  obtain ⟨client, timed⟩ := Bool.and_eq_true_iff.mp sound
  obtain ⟨id, rfl⟩ := Number.isFinite_iff.mp client
  obtain ⟨time, rfl⟩ := Number.isFinite_iff.mp timed
  exact ⟨id, time, text, rfl⟩

theorem readEntries_iff {count : Nat} {entries : List Entry} :
    readEntries count bytes = .ok entries [] ∧ entries.all Entry.isSound = true ↔
      entries.length = count ∧ Entries entries bytes := by
  induction count generalizing entries bytes with
  | zero =>
    constructor
    · rintro ⟨read, _⟩
      obtain ⟨rfl, rfl⟩ := EStateM.Result.ok.inj read
      exact ⟨rfl, .nil⟩
    · rintro ⟨length, spelled⟩
      obtain rfl := List.length_eq_zero_iff.mp length
      cases spelled
      exact ⟨rfl, rfl⟩
  | succ count ih =>
    simp only [readEntries, bind, EStateM.bind]
    constructor
    · rintro ⟨read, sound⟩
      cases first : readEntry bytes with
      | error e left => simp [first] at read
      | ok entry left =>
        simp only [first] at read
        cases others : readEntries count left with
        | error e left' => simp [others] at read
        | ok entries' left' =>
          simp only [others] at read
          obtain ⟨rfl, rfl⟩ := EStateM.Result.ok.inj read
          obtain ⟨soundEntry, soundOthers⟩ := Bool.and_eq_true_iff.mp sound
          obtain ⟨id, time, text, rfl⟩ := isSound_entry soundEntry
          obtain ⟨length, spelled⟩ := ih.mp ⟨others, soundOthers⟩
          obtain ⟨_, _, _, _, client, timed, sized, decoded, parsed, rfl⟩ := readEntry_iff.mp first
          exact ⟨by rw [List.length_cons, length], .cons client timed sized decoded parsed spelled⟩
    · rintro ⟨length, spelled⟩
      cases spelled with
      | nil => simp at length
      | cons client timed sized decoded parsed spelled =>
        rw [List.length_cons] at length
        obtain ⟨others, sound⟩ := ih.mpr ⟨by omega, spelled⟩
        rw [readEntry_iff.mpr ⟨_, _, _, _, client, timed, sized, decoded, parsed, rfl⟩]
        simp only [others]
        exact ⟨rfl, sound⟩

theorem readPresence_iff {entries : List Entry} :
    (∃ found, readPresence bytes = .ok found [] ∧ isSound found = true ∧ found.2 = entries) ↔
      Spells entries bytes := by
  constructor
  · rintro ⟨⟨n, listed⟩, read, sound, rfl⟩
    obtain ⟨left, counted, inside⟩ := readPresence_ok read
    obtain ⟨finite, each⟩ := Bool.and_eq_true_iff.mp sound
    obtain ⟨count, rfl⟩ := Number.isFinite_iff.mp finite
    obtain ⟨spelling, safe, rfl⟩ := readVarUint_iff.mp counted
    obtain ⟨length, spelled⟩ := readEntries_iff.mp ⟨inside, each⟩
    exact ⟨spelling, left, length ▸ safe, rfl, spelled⟩
  · rintro ⟨spelling, left, safe, rfl, spelled⟩
    obtain ⟨inside, each⟩ := readEntries_iff.mpr ⟨rfl, spelled⟩
    refine ⟨(.finite entries.length, entries), ?_, ?_, rfl⟩
    · simp only [readPresence, bind, EStateM.bind, readVarUint_iff.mpr ⟨spelling, safe, rfl⟩, run_get,
        rounds, inside]
      rfl
    · exact Bool.and_eq_true_iff.mpr ⟨rfl, each⟩

end

variable (y : Yrs)

/-- What the channel passes on: presence, or a delta the store is ready for. -/
def Relayed (bytes : Bytes) : Prop :=
  classifyMessage y bytes = msgKindAwareness ∨
    classifyMessage y bytes = msgKindUpdate ∧ ∃ update doc,
      mergedDocUpdate y bytes = .ok (some update) ∧ updateIsReady y doc update = .ok true

def RelaysOwn (call : Call) (action : Action) : Prop :=
  ∀ stream message, action = .broadcast stream message →
    ∃ encoded bytes, call.Carries encoded bytes ∧ message = syncEnvelope encoded ∧ Relayed y bytes

theorem RelaysOwn.quiet {call : Call} {action : Action}
    (other : ∀ stream message, action ≠ .broadcast stream message) : RelaysOwn y call action := by
  intro stream message same
  exact absurd same (other stream message)

section
variable {call : Call} {encoded : String} {bytes : Bytes}

theorem load_relays (key : String) : (syncLoadDoc y key).Only (RelaysOwn y call) :=
  loadDoc_only (RelaysOwn.quiet y (by simp))

theorem transmit_relays (reply : Bytes) : (syncTransmit reply).Only (RelaysOwn y call) :=
  Program.only_act (RelaysOwn.quiet y (by simp))

theorem distribute_relays (carries : call.Carries encoded bytes) (relayed : Relayed y bytes)
    (key : String) : (syncDistribute key encoded).Only (RelaysOwn y call) := by
  apply Program.only_act
  intro stream message same
  exact ⟨encoded, bytes, carries, (Action.broadcast.inj same).2.symm, relayed⟩

/-- A delta goes on once the verdict was that the document is ready for it. -/
theorem handleUpdate_relays (carries : call.Carries encoded bytes)
    (kind : classifyMessage y bytes = msgKindUpdate) {update : Bytes}
    (merged : mergedDocUpdate y bytes = .ok (some update)) (key : String) :
    (syncHandleUpdate y key encoded update).Only (RelaysOwn y call) := by
  apply Program.only_bind (load_relays y key)
  intro doc
  cases judged : updateIsReady y doc update with
  | error e => trivial
  | ok ready =>
    rw [Program.ok_bind]
    cases ready with
    | false => exact Program.only_bind (transmit_relays y _) fun _ => Program.only_pure _
    | true =>
      have distributes := distribute_relays y carries (.inr ⟨kind, update, doc, merged, judged⟩) key
      simp only [Bool.not_true, Bool.false_eq_true, ↓reduceIte]
      apply Program.only_bind (Program.only_ofExcept _)
      intro advances
      split
      · exact Program.only_bind distributes fun _ => Program.only_pure _
      · apply Program.only_bind (Program.only_act (RelaysOwn.quiet y (by simp)))
        intro _
        exact Program.only_bind distributes fun _ => Program.only_pure _

theorem handleFrame_relays (carries : call.Carries encoded bytes) (self : Instance) :
    (syncHandleFrame y self encoded bytes).Only (RelaysOwn y call) := by
  simp only [syncHandleFrame]
  apply Program.only_bind (Program.only_ofExcept _)
  intro _
  apply Program.only_bind (Program.only_ofExcept _)
  intro key
  split
  · apply Program.only_bind (load_relays y key)
    intro doc
    apply Program.only_bind (Program.only_ofExcept _)
    intro result
    exact Program.only_bind (transmit_relays y _) fun _ => Program.only_pure _
  · split
    · rename_i kind
      cases merged : mergedDocUpdate y bytes with
      | error e => trivial
      | ok delta =>
        cases delta with
        | none => trivial
        | some update => exact handleUpdate_relays y carries kind merged key
    · split
      · rename_i kind
        exact Program.only_bind (distribute_relays y carries (.inl kind) key) fun _ =>
          Program.only_pure _
      · exact Program.only_pure _

end

theorem call_relays (call : Call) : (call.program y).Only (RelaysOwn y call) := by
  have transmits : ∀ message, RelaysOwn y call (.transmit message) :=
    fun message => RelaysOwn.quiet y (by simp)
  cases request : call.request with
  | subscribed key =>
    rw [Call.program, request]
    exact subscribed_only (RelaysOwn.quiet y (by simp)) transmits (RelaysOwn.quiet y (by simp))
      fun _ => RelaysOwn.quiet y (by simp)
  | receive data key =>
    by_cases reads : ∃ encoded bytes, Reads call encoded bytes
    · obtain ⟨encoded, bytes, reads⟩ := reads
      rw [program_reads reads]
      exact Program.only_bind (handleFrame_relays y reads.carries _) fun outcome =>
        sendAck_only transmits call.id outcome
    · have none : ∀ encoded bytes, ¬ Reads call encoded bytes :=
        fun encoded bytes found => reads ⟨encoded, bytes, found⟩
      rcases program_drops (y := y) request none with nothing | ⟨level, reason, id, logged⟩
      · rw [nothing]
        exact Program.only_pure _
      · rw [logged]
        exact Program.only_act (RelaysOwn.quiet y (by simp))

theorem broadcast_relayed {stored : String → List Bytes} {server : Server}
    (reached : Reached y stored server) {key : String} {bytes : Bytes}
    (broadcast : Downstream.Broadcast server.world key bytes) : Relayed y bytes := by
  obtain ⟨c, encoded, reply, did, decoded⟩ := broadcast
  obtain ⟨call, _, relays⟩ := reached_may (call_relays y) reached did
  obtain ⟨encoded', bytes', ⟨_, _, _, _, strict⟩, content, relayed⟩ := relays _ _ rfl
  obtain rfl := Downstream.syncEnvelope_injective content
  obtain rfl := Option.some.inj (decoded.symm.trans (Base64.fromBase64_strictDecode strict))
  exact relayed

variable {y} {js : Yjs} {hear : js.Awareness → Entry → js.Awareness}
  {bytes payload : Bytes}

/-- Validation passes, nothing is reported, and the message is applied in full. -/
def Accepts (hear : js.Awareness → Entry → js.Awareness) (bytes : Bytes)
    (s : Client.Session js) : Prop :=
  (∃ type rest, validateFrame js bytes = .ok (some type) rest) ∧
    Ends (receive Client.transport bytes) (fun reply t => t.2.2 = s.2.2 ∧
      ∃ m, classOf js bytes s.2.1.doc = .message m ∧ Applied hear s reply t m) (fun _ => False) s

/-- What presence is spelled as is entries and nothing else, in the numbers of lib0 and
    states of JSON; a delta is one that Yjs applies to the document. -/
def Sound (y : Yrs) (bytes : Bytes) (doc : js.Doc) : Prop :=
  (classifyMessage y bytes = msgKindAwareness → ∃ payload entries,
    IsAwarenessFrame payload bytes ∧ Spells entries payload) ∧
  (classifyMessage y bytes = msgKindUpdate → ∃ update,
    IsDocFrame y bytes update ∧ (js.applyUpdate doc update).2.isOk = true)

theorem applied_silent {s t : Client.Session js} {reply : Option Bytes} {m : ClientMessage}
    (applied : Applied hear s reply t m) : t.2.2 = s.2.2 := by
  cases m with
  | syncStep1 sv => rw [applied.1]
  | syncStep2 update => rw [applied.2]
  | update update => rw [applied.2]
  | awareness entries => rw [applied.2]

theorem validated_foreign {doc : js.Doc} {rest : Bytes}
    (checked : validateFrame js bytes = .ok none rest) : classOf js bytes doc = .foreign := by
  cases read : readVarUint bytes with
  | error e left => simp [validateFrame, bind, EStateM.bind, read] at checked
  | ok type left =>
    by_cases sync : type = messageSync
    · subst sync
      rw [validate_sync read] at checked
      split at checked
      · simp at checked
      · split at checked <;> simp at checked
    · by_cases awareness : type = messageAwareness
      · subst awareness
        rw [validate_awareness read] at checked
        split at checked
        · simp at checked
        · split at checked
          · simp at checked
          · split at checked <;> simp at checked
      · simp only [classOf, read, sync, awareness, ↓reduceIte]

theorem accepts_iff (laws : js.Laws y) (hears : Presence.Laws js hear) (readable : Readable js)
    (bytes : Bytes) (s : Client.Session js) :
    Accepts hear bytes s ↔ ∃ m, classOf js bytes s.2.1.doc = .message m := by
  constructor
  · rintro ⟨_, ends⟩
    unfold Ends at ends
    split at ends
    · obtain ⟨_, m, message, _⟩ := ends
      exact ⟨m, message⟩
    · exact ends.elim
  · rintro ⟨m, message⟩
    have clear : ¬ Swallowed js bytes s.2.1.doc := by
      intro swallowed
      rw [swallowed_malformed swallowed] at message
      simp at message
    have whole := @whole_clear _ _ hear _ _ laws hears readable clear (message_not_overflown message)
    unfold Whole at whole
    rw [message] at whole
    have ends : Ends (receive Client.transport bytes) (fun reply t => t.2.2 = s.2.2 ∧
        ∃ m, classOf js bytes s.2.1.doc = .message m ∧ Applied hear s reply t m) (fun _ => False) s :=
      whole.mono (fun _ _ applied => ⟨applied_silent applied, m, message, applied⟩) fun _ => id
    refine ⟨?_, ends⟩
    cases checked : validateFrame js bytes with
    | error e rest =>
      have dropped := @receive_drops js bytes rest s e checked
      have both := dropped.and ends
      unfold Ends at both
      split at both
      · obtain ⟨⟨_, e, rfl⟩, same, _⟩ := both
        simpa using congrArg Client.Host.errors same
      · exact both.1.elim
    | ok found rest =>
      cases found with
      | none =>
        rw [validated_foreign checked] at message
        simp at message
      | some type => exact ⟨type, rest, rfl⟩

theorem awareness_reads (shape : IsAwarenessFrame payload bytes) (safe : bytes.length ≤ maxSafeInteger) :
    ∃ rest, readVarUint bytes = .ok messageAwareness rest ∧ readVarUint8Array rest = .ok payload [] := by
  obtain ⟨tag, len, tagShape, lenShape, rfl⟩ := shape
  simp only [List.length_append] at safe
  have body := readVarUint8Array_spells lenShape [] (by omega)
  rw [List.append_nil] at body
  exact ⟨_, readVarUint_spells tagShape _ (by decide), body⟩

theorem classOf_awareness (shape : IsAwarenessFrame payload bytes)
    (safe : bytes.length ≤ maxSafeInteger) (doc : js.Doc) :
    (∃ m, classOf js bytes doc = .message m) ↔ ∃ entries, Spells entries payload := by
  obtain ⟨rest, read, body⟩ := awareness_reads shape safe
  simp only [classOf_presence _ read, ← readPresence_iff]
  unfold presenceClass
  constructor
  · rintro ⟨m, message⟩
    split at message
    · rename_i found presence
      split at message
      · rename_i sound
        obtain ⟨payload', body', inside⟩ := presenceOf_some.mp presence
        rw [body] at body'
        obtain ⟨rfl, _⟩ := EStateM.Result.ok.inj body'
        exact ⟨_, found, inside, sound, rfl⟩
      · simp at message
    · simp at message
  · rintro ⟨_, found, inside, sound, rfl⟩
    rw [presenceOf_some.mpr ⟨payload, body, inside⟩]
    exact ⟨_, if_pos sound⟩

theorem docFrame_shape (yrs : y.Laws) {update : Bytes} (frame : IsDocFrame y bytes update) :
    ∃ syncType, (syncType = messageYjsSyncStep2 ∨ syncType = messageYjsUpdate) ∧
      IsSyncFrame syncType update bytes := by
  rcases frame with decoded | decoded
  · obtain ⟨payload, rfl, shape⟩ := yrs.decode_sync_shape _ _ decoded
    exact ⟨_, .inl rfl, shape⟩
  · obtain ⟨payload, rfl, shape⟩ := yrs.decode_sync_shape _ _ decoded
    exact ⟨_, .inr rfl, shape⟩

theorem classOf_docFrame (yrs : y.Laws) {update : Bytes} (frame : IsDocFrame y bytes update)
    (safe : bytes.length ≤ maxSafeInteger) (doc : js.Doc) :
    (∃ m, classOf js bytes doc = .message m) ↔ (js.applyUpdate doc update).2.isOk = true := by
  obtain ⟨syncType, kind, shape⟩ := docFrame_shape yrs frame
  have bound : syncType ≤ maxSafeInteger := by rcases kind with rfl | rfl <;> decide
  obtain ⟨rest, rest', read, inner, body⟩ := read_syncFrame shape safe bound
  rw [classOf_sync doc read inner body]
  cases taken : (js.applyUpdate doc update).2.isOk <;> rcases kind with rfl | rfl <;>
    simp [syncClass, messageYjsSyncStep1, messageYjsSyncStep2, messageYjsUpdate, taken]

theorem message_iff_sound (yrs : y.Laws) (relayed : Relayed y bytes)
    (safe : bytes.length ≤ maxSafeInteger) (doc : js.Doc) :
    (∃ m, classOf js bytes doc = .message m) ↔ Sound y bytes doc := by
  rcases relayed with presence | ⟨delta, _⟩
  · have unlike : classifyMessage y bytes ≠ msgKindUpdate := by
      rw [presence]
      decide
    obtain ⟨clients, decoded⟩ := classifyMessage_awareness presence
    obtain ⟨payload, shape⟩ := yrs.decode_awareness_shape _ _ decoded
    constructor
    · intro message
      obtain ⟨entries, spelled⟩ := (classOf_awareness shape safe doc).mp message
      exact ⟨fun _ => ⟨payload, entries, shape, spelled⟩, fun same => absurd same unlike⟩
    · rintro ⟨sound, _⟩
      obtain ⟨payload', entries, shape', spelled⟩ := sound presence
      exact (classOf_awareness shape' safe doc).mpr ⟨entries, spelled⟩
  · have unlike : classifyMessage y bytes ≠ msgKindAwareness := by
      rw [delta]
      decide
    obtain ⟨update, frame⟩ := classifyMessage_update delta
    rw [classOf_docFrame yrs frame safe]
    constructor
    · intro taken
      exact ⟨fun same => absurd same unlike, fun _ => ⟨update, frame, taken⟩⟩
    · rintro ⟨_, sound⟩
      obtain ⟨update', frame', taken⟩ := sound delta
      rwa [docFrame_unique frame frame']

/-- Of what the server relays, a client accepts what is sound, and nothing else. -/
theorem relayed_accepted_iff (laws : js.Laws y) (yrs : y.Laws)
    (hears : Presence.Laws js hear) (readable : Readable js) (relayed : Relayed y bytes)
    (safe : bytes.length ≤ maxSafeInteger) (s : Client.Session js) :
    Accepts hear bytes s ↔ Sound y bytes s.2.1.doc := by
  rw [accepts_iff laws hears readable]
  exact message_iff_sound yrs relayed safe s.2.1.doc

theorem broadcast_accepted_iff (laws : js.Laws y) (yrs : y.Laws) (hears : Presence.Laws js hear)
    (readable : Readable js) {stored : String → List Bytes} {server : Server}
    (reached : Reached y stored server) {key : String}
    (broadcast : Downstream.Broadcast server.world key bytes)
    (safe : bytes.length ≤ maxSafeInteger) (s : Client.Session js) :
    Accepts hear bytes s ↔ Sound y bytes s.2.1.doc := by
  rw [accepts_iff laws hears readable]
  exact message_iff_sound yrs (broadcast_relayed y reached broadcast) safe s.2.1.doc

def pointing : Bytes := awarenessFrame [1, 1, 0, 2, 91, 93]

def character : Bytes := Reference.encodeDelta ⟨[Reference.typed 1 0 none], []⟩

def writing : Bytes := syncFrame messageYjsUpdate character

theorem pointing_relayed : Relayed Reference.crate pointing := .inl (by decide +kernel)

theorem writing_relayed : Relayed Reference.crate writing :=
  .inr ⟨by decide +kernel, character, Reference.Replica.empty, rfl, by decide +kernel⟩

theorem pointing_sound (doc : Reference.client.Doc) : Sound Reference.crate pointing doc := by
  have presence : classifyMessage Reference.crate pointing = msgKindAwareness := by decide +kernel
  have small : ∀ r : UInt8, r.toNat < 128 → Safe r.toNat [r] := by
    intro r low
    refine ⟨r.toNat, VarUint.last low, by simp, by simp [Nat.mod_one], ?_⟩
    exact Number.ofNat_small (Nat.lt_trans low (by decide))
  have entries : Entries [⟨.finite 1, .finite 0, "[]"⟩] ([1] ++ ([0] ++ ([2] ++ ([91, 93] ++ [])))) :=
    .cons (small 1 (by decide)) (small 0 (by decide)) (small 2 (by decide)) rfl rfl .nil
  have spelled : Spells [⟨.finite 1, .finite 0, "[]"⟩] [1, 1, 0, 2, 91, 93] :=
    ⟨[1], _, small 1 (by decide), rfl, entries⟩
  have shape : IsAwarenessFrame [1, 1, 0, 2, 91, 93] pointing :=
    ⟨[1], [6], write_spelling 1, write_spelling 6, rfl⟩
  constructor
  · intro _
    exact ⟨_, _, shape, spelled⟩
  · intro delta
    rw [presence] at delta
    cases delta

theorem writing_sound (doc : Reference.client.Doc) : Sound Reference.crate writing doc := by
  have delta : classifyMessage Reference.crate writing = msgKindUpdate := by decide +kernel
  constructor
  · intro presence
    rw [delta] at presence
    cases presence
  · intro _
    have applied : Reference.Tab.applyUpdate doc character = _ :=
      Reference.Tab.applyUpdate_decoded (Reference.decode_encodeDelta ⟨[Reference.typed 1 0 none], []⟩)
    refine ⟨character, docFrame_update Reference.crate_laws character, ?_⟩
    change (Reference.Tab.applyUpdate doc character).2.isOk = true
    rw [applied]
    rfl

theorem cursor_and_character_accepted : Relayed Reference.crate pointing ∧
    Relayed Reference.crate writing ∧ ∀ s : Client.Session Reference.client,
      Accepts Reference.Cursors.heard pointing s ∧ Accepts Reference.Cursors.heard writing s := by
  refine ⟨pointing_relayed, writing_relayed, fun s => ⟨?_, ?_⟩⟩
  · exact (relayed_accepted_iff Reference.client_laws Reference.crate_laws Reference.client_hears
      Reference.client_readable pointing_relayed (by decide) s).mpr (pointing_sound s.2.1.doc)
  · exact (relayed_accepted_iff Reference.client_laws Reference.crate_laws Reference.client_hears
      Reference.client_readable writing_relayed (by decide +kernel) s).mpr (writing_sound s.2.1.doc)

/- A byte after the entries: the crate does not look at it, the client refuses it. -/
theorem padded_presence_refused : ¬ ∀ (js : Yjs) (y : Yrs)
    (hear : js.Awareness → Entry → js.Awareness), js.Laws y → y.Laws → Presence.Laws js hear →
    Readable js → ∀ bytes, Relayed y bytes → bytes.length ≤ maxSafeInteger →
    ∀ s : Client.Session js, Accepts hear bytes s := by
  intro always
  have relayed : Relayed Reference.crate [1, 2, 0, 7] := .inl (by decide)
  have malformed : ∀ doc, classOf Reference.client [1, 2, 0, 7] doc = .malformed := fun _ => rfl
  have accepts := always _ _ _ Reference.client_laws Reference.crate_laws Reference.client_hears
    Reference.client_readable _ relayed (by decide)
    (construct Reference.client.newDoc none Client.Host.idle)
  obtain ⟨m, message⟩ := (accepts_iff Reference.client_laws Reference.client_hears
    Reference.client_readable _ _).mp accepts
  rw [malformed] at message
  simp at message

end Yrby.Relay
