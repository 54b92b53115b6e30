import Yrby.Parsing.Delimited
import Yrby.Yrs

/- The wire format of messages. What the crate reads a number with is a parameter:
   it takes spellings of numbers, and may refuse some of the longer ones. -/
namespace Yrby.WireFormat
open Parsing Parsing.Parser Document Wire Yrs

abbrev Number := Parser UInt8 Nat

/- tag: message and sync tags; length: prefixes and counts -/
structure Readers where
  tag : Number
  length : Number
  client : Number
  clock : Number

/- The messages that travel, without what is inside presence -/
inductive Spoken where
  | sync (msg : SyncMessage)
  | awareness
  | awarenessQuery

def spoken : Message → Option Spoken
  | .sync msg => some (.sync msg)
  | .awareness _ => some .awareness
  | .awarenessQuery => some .awarenessQuery
  | .auth _ | .custom _ _ => none

variable (y : Yrs) (readers : Readers)

def buffer : Parser UInt8 Bytes := readers.length.bind next

/- client, clock and state of one client; the state is not looked into -/
def entry : Parser UInt8 (Nat × Nat × Bytes) :=
  readers.client.bind fun client =>
    readers.clock.bind fun clock => (buffer readers).bind fun state => done (client, clock, state)

def entries : Nat → Parser UInt8 (List (Nat × Nat × Bytes))
  | 0 => done []
  | count + 1 => (entry readers).bind fun e => (entries count).bind fun rest => done (e :: rest)

/- A count and as many entries; what follows them is not looked at. -/
def presence (payload : Bytes) : Option (List (Nat × Nat × Bytes)) :=
  ((readers.length.bind (entries readers)) payload).map Prod.fst

def syncBody (payload : Bytes) : Nat → Parser UInt8 Spoken
  | 0 => match y.stateVectorDecodeV1 payload with
    | .ok sv => done (.sync (.syncStep1 sv))
    | .error _ => fail
  | 1 => done (.sync (.syncStep2 payload))
  | 2 => done (.sync (.update payload))
  | _ => fail

def body : Nat → Parser UInt8 Spoken
  | 0 => readers.tag.bind fun syncTag =>
    (buffer readers).bind fun payload => syncBody y payload syncTag
  | 1 => (buffer readers).bind fun payload =>
    if (presence readers payload).isSome then done .awareness else fail
  | 3 => done .awarenessQuery
  | _ => fail

def message : Parser UInt8 Spoken := readers.tag.bind (body y readers)

/- One of the spoken messages and what is left, as the crate decodes it -/
def decoded (bytes : Bytes) : Option (Spoken × Bytes) :=
  match y.messageDecode bytes with
  | .ok (msg, rest) => (spoken msg).map (·, rest)
  | .error _ => none

/-- What a reader of numbers relies on: it takes spellings of them. -/
structure IsNumber (read : Number) : Prop where
  delimits : Delimiting read
  spells : ∀ n front, Takes read n front → VarUint n front

/-- The crate speaks the y-protocols wire format. -/
structure Format : Prop where
  tag : IsNumber readers.tag
  length : IsNumber readers.length
  client : IsNumber readers.client
  clock : IsNumber readers.clock
  writes_tag : ∀ n ≤ 3, Takes readers.tag n (writeVarUint n)
  writes_length : ∀ n, Takes readers.length n (writeVarUint n)
  decodes : ∀ bytes, decoded y bytes = message y readers bytes
  encodes_awareness : ∀ clients, ∃ payload,
    y.messageEncode (.awareness clients) = awarenessFrame payload ∧
      (presence readers payload).isSome = true
  encodes_query : y.messageEncode .awarenessQuery = writeVarUint 3

def Spells (read : Number) (n : Nat) (front : Bytes) : Prop := VarUint n front ∧ Takes read n front

/-- The byte strings that spell one message, from the first byte to the last. -/
inductive Frame : Spoken → Bytes → Prop where
  | sync {msg : SyncMessage} {tag sub len payload : Bytes} (tagged : Spells readers.tag 0 tag)
      (typed : Spells readers.tag msg.syncType sub)
      (sized : Spells readers.length payload.length len) (carries : y.Carries msg payload) :
      Frame (.sync msg) (tag ++ (sub ++ (len ++ payload)))
  | awareness {tag len payload : Bytes} (tagged : Spells readers.tag 1 tag)
      (sized : Spells readers.length payload.length len)
      (read : (presence readers payload).isSome = true) : Frame .awareness (tag ++ (len ++ payload))
  | awarenessQuery {tag : Bytes} (tagged : Spells readers.tag 3 tag) : Frame .awarenessQuery tag

variable {y} {readers} {bytes : Bytes} {m : Spoken}

theorem takes_buffer_iff (format : Format y readers) {payload : Bytes} :
    Takes (buffer readers) payload bytes ↔
      ∃ len, bytes = len ++ payload ∧ Spells readers.length payload.length len := by
  rw [buffer, takes_bind_iff format.length.delimits fun n => delimiting_next n]
  constructor
  · rintro ⟨n, len, more, rfl, sized, rest⟩
    obtain ⟨rfl, rfl⟩ := takes_next_iff.mp rest
    exact ⟨len, rfl, format.length.spells _ _ sized, sized⟩
  · rintro ⟨len, rfl, sized⟩
    exact ⟨_, len, payload, rfl, sized.2, takes_next payload⟩

theorem delimiting_buffer (format : Format y readers) : Delimiting (buffer readers) :=
  delimiting_bind format.length.delimits fun n => delimiting_next n

theorem delimiting_syncBody (payload : Bytes) (syncTag : Nat) :
    Delimiting (syncBody y payload syncTag) := by
  unfold syncBody
  split
  · split
    · exact delimiting_done
    · exact delimiting_fail
  · exact delimiting_done
  · exact delimiting_done
  · exact delimiting_fail

theorem delimiting_awareness (readers : Readers) (payload : Bytes) : Delimiting
    (if (presence readers payload).isSome then done Spoken.awareness else fail : Parser UInt8 Spoken) := by
  split
  · exact delimiting_done
  · exact delimiting_fail

theorem delimiting_body (format : Format y readers) (tag : Nat) : Delimiting (body y readers tag) := by
  unfold body
  split
  · apply delimiting_bind format.tag.delimits
    exact fun syncTag => delimiting_bind (delimiting_buffer format)
      fun payload => delimiting_syncBody payload syncTag
  · exact delimiting_bind (delimiting_buffer format) (delimiting_awareness readers)
  · exact delimiting_done
  · exact delimiting_fail

theorem delimiting_message (format : Format y readers) : Delimiting (message y readers) :=
  delimiting_bind format.tag.delimits (delimiting_body format)

theorem takes_fail {A : Type} {a : A} {front : Bytes} : ¬ Takes (fail : Parser UInt8 A) a front :=
  fun takes => by simpa [fail] using takes.whole

theorem takes_syncBody_iff {payload front : Bytes} {syncTag : Nat} :
    Takes (syncBody y payload syncTag) m front ↔
      front = [] ∧ ∃ msg, m = .sync msg ∧ syncTag = msg.syncType ∧ y.Carries msg payload := by
  constructor
  · intro takes
    unfold syncBody at takes
    split at takes
    · split at takes
      · rename_i sv ok
        obtain ⟨rfl, rfl⟩ := takes_done_iff.mp takes
        exact ⟨rfl, _, rfl, rfl, ok⟩
      · exact absurd takes takes_fail
    · obtain ⟨rfl, rfl⟩ := takes_done_iff.mp takes
      exact ⟨rfl, _, rfl, rfl, rfl⟩
    · obtain ⟨rfl, rfl⟩ := takes_done_iff.mp takes
      exact ⟨rfl, _, rfl, rfl, rfl⟩
    · exact absurd takes takes_fail
  · rintro ⟨rfl, msg, rfl, rfl, carries⟩
    cases msg with
    | syncStep1 sv =>
      have ok : y.stateVectorDecodeV1 payload = .ok sv := carries
      simp only [SyncMessage.syncType, syncBody, ok]
      exact takes_done
    | syncStep2 update =>
      obtain rfl : payload = update := carries
      exact takes_done
    | update update =>
      obtain rfl : payload = update := carries
      exact takes_done

theorem takes_message_iff (format : Format y readers) :
    Takes (message y readers) m bytes ↔ Frame y readers m bytes := by
  rw [message, takes_bind_iff format.tag.delimits (delimiting_body format)]
  constructor
  · rintro ⟨tag, front, more, rfl, tagged, rest⟩
    have tagged : Spells readers.tag tag front := ⟨format.tag.spells _ _ tagged, tagged⟩
    unfold body at rest
    split at rest
    · obtain ⟨syncTag, sub, more, rfl, typed, rest⟩ := (takes_bind_iff format.tag.delimits
        fun syncTag => delimiting_bind (delimiting_buffer format)
          fun payload => delimiting_syncBody payload syncTag).mp rest
      obtain ⟨payload, front', _, rfl, sized, rest⟩ := (takes_bind_iff (delimiting_buffer format)
        fun payload => delimiting_syncBody payload syncTag).mp rest
      obtain ⟨rfl, msg, rfl, rfl, carries⟩ := takes_syncBody_iff.mp rest
      obtain ⟨len, rfl, spelled⟩ := (takes_buffer_iff format).mp sized
      rw [List.append_nil]
      exact .sync tagged ⟨format.tag.spells _ _ typed, typed⟩ spelled carries
    · obtain ⟨payload, front', more, rfl, sized, last⟩ := (takes_bind_iff (delimiting_buffer format)
        (delimiting_awareness readers)).mp rest
      obtain ⟨len, rfl, spelled⟩ := (takes_buffer_iff format).mp sized
      split at last
      · rename_i read
        obtain ⟨rfl, rfl⟩ := takes_done_iff.mp last
        rw [List.append_nil]
        exact .awareness tagged spelled read
      · exact absurd last takes_fail
    · obtain ⟨rfl, rfl⟩ := takes_done_iff.mp rest
      rw [List.append_nil]
      exact .awarenessQuery tagged
    · exact absurd rest takes_fail
  · intro frame
    cases frame with
    | @sync msg tag sub len payload tagged typed sized carries =>
      refine ⟨0, tag, _, rfl, tagged.2, ?_⟩
      have rest := takes_bind (f := fun payload => syncBody y payload msg.syncType)
        ((takes_buffer_iff format).mpr ⟨len, rfl, sized⟩)
        (takes_syncBody_iff.mpr ⟨rfl, msg, rfl, rfl, carries⟩)
      rw [List.append_nil] at rest
      exact takes_bind (f := fun syncTag => (buffer readers).bind fun payload =>
        syncBody y payload syncTag) typed.2 rest
    | @awareness tag len payload tagged sized read =>
      refine ⟨1, tag, _, rfl, tagged.2, ?_⟩
      have rest := takes_bind (f := fun payload => if (presence readers payload).isSome
        then done Spoken.awareness else fail) ((takes_buffer_iff format).mpr ⟨len, rfl, sized⟩)
        (by rw [if_pos read]; exact takes_done)
      rwa [List.append_nil] at rest
    | awarenessQuery tagged =>
      exact ⟨3, bytes, [], (List.append_nil bytes).symm, tagged.2, takes_done⟩

theorem decoded_some {rest : Bytes} : decoded y bytes = some (m, rest) ↔
    ∃ msg, y.messageDecode bytes = .ok (msg, rest) ∧ spoken msg = some m := by
  unfold decoded
  cases read : y.messageDecode bytes with
  | error e => simp
  | ok found =>
    obtain ⟨msg, left⟩ := found
    simp only [Option.map_eq_some_iff, Prod.mk.injEq, Except.ok.injEq]
    constructor
    · rintro ⟨m', same, rfl, rfl⟩
      exact ⟨msg, ⟨rfl, rfl⟩, same⟩
    · rintro ⟨msg', ⟨rfl, rfl⟩, same⟩
      exact ⟨m, same, rfl, rfl⟩

theorem decoded_iff (format : Format y readers) :
    decoded y bytes = some (m, []) ↔ Frame y readers m bytes := by
  rw [format.decodes, ← (delimiting_message format).takes_iff]
  exact takes_message_iff format

theorem Frame.prefix_free (format : Format y readers) {m' : Spoken} {rest : Bytes}
    (one : Frame y readers m bytes) (two : Frame y readers m' (bytes ++ rest)) : rest = [] :=
  (Takes.prefix_free ((takes_message_iff format).mpr one) ((takes_message_iff format).mpr two)).1

theorem syncFrame_frame (format : Format y readers) {msg : SyncMessage} {payload : Bytes}
    (carries : y.Carries msg payload) :
    Frame y readers (.sync msg) (syncFrame msg.syncType payload) := by
  have low : msg.syncType ≤ 3 := by cases msg <;> simp [SyncMessage.syncType]
  have frame := Frame.sync ⟨write_varUint 0, format.writes_tag 0 (by decide)⟩
    ⟨write_varUint _, format.writes_tag _ low⟩
    ⟨write_varUint _, format.writes_length payload.length⟩ carries
  simpa [syncFrame, writeVarUint8Array] using frame

theorem encoded_frame (laws : y.Laws) (format : Format y readers) {msg : Message}
    (travels : (spoken msg).isSome = true) : ∃ m, Frame y readers m (y.messageEncode msg) := by
  match msg with
  | .sync (.syncStep1 sv) =>
    obtain ⟨sv', read, _⟩ := laws.stateVector_roundtrip sv
    rw [laws.encode_syncStep1]
    exact ⟨_, @syncFrame_frame _ _ format (.syncStep1 sv') _ read⟩
  | .sync (.syncStep2 update) =>
    rw [laws.encode_syncStep2]
    exact ⟨_, @syncFrame_frame _ _ format (.syncStep2 update) _ rfl⟩
  | .sync (.update update) =>
    rw [laws.encode_update]
    exact ⟨_, @syncFrame_frame _ _ format (.update update) _ rfl⟩
  | .awareness clients =>
    obtain ⟨payload, encoded, read⟩ := format.encodes_awareness clients
    rw [encoded, awarenessFrame, writeVarUint8Array]
    exact ⟨_, .awareness ⟨write_varUint 1, format.writes_tag 1 (by decide)⟩
      ⟨write_varUint _, format.writes_length payload.length⟩ read⟩
  | .awarenessQuery =>
    rw [format.encodes_query]
    exact ⟨_, .awarenessQuery ⟨write_varUint 3, format.writes_tag 3 (by decide)⟩⟩
  | .auth _ => simp [spoken] at travels
  | .custom _ _ => simp [spoken] at travels

theorem frame_decodes (format : Format y readers) {msg : SyncMessage}
    (frame : Frame y readers (.sync msg) bytes) : y.messageDecode bytes = .ok (.sync msg, []) := by
  obtain ⟨msg', read, same⟩ := decoded_some.mp ((decoded_iff format).mpr frame)
  cases msg' with
  | sync msg' =>
    obtain rfl := Spoken.sync.inj (Option.some.inj same)
    exact read
  | awareness _ => simp [spoken] at same
  | awarenessQuery => simp [spoken] at same
  | auth _ => simp [spoken] at same
  | custom _ _ => simp [spoken] at same

end Yrby.WireFormat
