import Yrby.Reference.Replica

/- The reference documents as an instance of the crate, laws included. -/
namespace Yrby.Reference
open Causal Document Wire Parsing

def crate : Yrs where
  Doc := Replica
  Update := Delta
  newDoc := .empty
  decodeV1 := decodeDelta
  applyUpdate doc u := (doc.apply u, .ok ())
  stateVector doc := vectorOf doc.ids
  encodeStateAsUpdateV1 doc sv := encodeDelta (doc.since sv)
  pendingUpdateIsSome doc := !doc.parked.isEmpty
  pendingDsIsSome doc := !doc.parkedDeletes.isEmpty
  prunePending := Replica.prune
  updateStateVector u := vectorOf (heldKeys u.blocks)
  updateStateVectorLower u := lowerOf (heldKeys u.blocks)
  deleteSetIsEmpty u := u.deletes.isEmpty
  mergeUpdatesV1 := mergeDeltas
  stateVectorEncodeV1 := encodeVector
  stateVectorDecodeV1 := decodeVector
  messageDecode := decodeMessage
  messageEncode := encodeMessage
  view := Replica.state
  content := Delta.content

theorem contentOf_encodeDelta (u : Delta) : crate.contentOf (encodeDelta u) = some u.content := by
  have decoded : crate.decodeV1 (encodeDelta u) = _ := decode_encodeDelta u
  rw [Yrs.contentOf_ok decoded]
  congr 1
  ext x <;> simp [crate, Delta.content]

theorem asSet_eq_empty {A : Type} {l : List A} : asSet l = ∅ ↔ l = [] := by
  simp [Set.eq_empty_iff_forall_notMem, List.eq_nil_iff_forall_not_mem]

theorem crate_merge (updates : List Bytes) (contents : List Content)
    (carried : updates.map crate.contentOf = contents.map some) :
    ∃ us : List Delta, updates.mapM decodeDelta = .ok us ∧ us.map Delta.content = contents := by
  induction updates generalizing contents with
  | nil =>
    obtain rfl : contents = [] := by simpa using carried.symm
    exact ⟨[], rfl, rfl⟩
  | cons update rest ih =>
    cases contents with
    | nil => simp at carried
    | cons c contents =>
      obtain ⟨head, tail⟩ := List.cons.inj carried
      obtain ⟨u, decoded, rfl⟩ := Yrs.contentOf_some head
      obtain ⟨us, all, rfl⟩ := ih contents tail
      refine ⟨u :: us, ?_, rfl⟩
      change decodeDelta update = .ok u at decoded
      simp [List.mapM_cons, decoded, all, bind, Except.bind, pure, Except.pure]

theorem decodeMessage_ok {bytes : Bytes} {read : Message × Bytes}
    (decoded : decodeMessage bytes = .ok read) : parseMessage bytes = some read := by
  unfold decodeMessage at decoded
  split at decoded
  · rename_i parsed
    exact parsed.trans (congrArg some (Except.ok.inj decoded))
  · simp at decoded

theorem carries_iff {msg : SyncMessage} {payload : Bytes} :
    crate.Carries msg payload ↔ readSync msg.syncType payload = some msg := by
  cases msg with
  | syncStep1 sv =>
    change decodeVector payload = .ok sv ↔ _
    cases eq : decodeVector payload <;> simp [readSync, SyncMessage.syncType, eq, Except.toOption]
  | syncStep2 update => simp [Yrs.Carries, readSync, SyncMessage.syncType]
  | update update => simp [Yrs.Carries, readSync, SyncMessage.syncType]

theorem crate_laws : crate.Laws where
  view_newDoc := Replica.state_empty
  takes _ _ := rfl
  apply_integrates doc u _ := Replica.apply_integrates doc u
  reseeds _ _ _ := rfl
  stateVector_counts doc client clock := by
    change _ ↔ clock < (vectorOf doc.ids).get client
    rw [get_vectorOf, lt_run_iff]
    constructor
    · exact fun held j le => Replica.mem_ids.mpr (ids_downward held le)
    · exact fun all => Replica.mem_ids.mp (all clock (Nat.le_refl _))
  stateVector_positive doc client := vectorOf_positive doc.ids client
  pendingUpdate_iff doc := by
    change (!doc.parked.isEmpty) = true ↔ asSet doc.parked ≠ ∅
    rw [ne_eq, asSet_eq_empty]
    simp
  pendingDs_iff doc := by
    change (!doc.parkedDeletes.isEmpty) = true ↔ asSet doc.parkedDeletes ≠ ∅
    rw [ne_eq, asSet_eq_empty]
    simp
  prune_view := Replica.state_prune
  encode_decodes doc sv := by
    obtain ⟨u, decoded, content⟩ := Yrs.contentOf_some (contentOf_encodeDelta (doc.since sv))
    exact ⟨u, decoded, content.trans (doc.since_content sv)⟩
  encode_view doc doc' sv same :=
    encodeDelta_congr (((Replica.since_content doc sv).trans
      (congrArg (Yrs.diff · sv) same)).trans (Replica.since_content doc' sv).symm)
  updateStateVector_counts u client clock := by
    change clock < (vectorOf (heldKeys u.blocks)).get client ↔ _
    rw [get_vectorOf, lt_run_iff]
    simp only [mem_heldKeys]
    rfl
  updateStateVector_positive u client := vectorOf_positive _ client
  lower_absent u client := by
    change (lowerOf (heldKeys u.blocks)).entries.lookup client = none ↔ ∀ b ∈ u.blocks, _
    simp [lowerOf, lookup_tabulate, mem_clients, heldKeys]
  lower_least u b mem := by
    have held : b.id ∈ heldKeys u.blocks := List.mem_map_of_mem mem
    change (lowerOf (heldKeys u.blocks)).get b.id.client ≤ b.id.clock
    rw [get_lowerOf held]
    exact (lowest_spec held).1
  lower_attained u b mem := by
    have held : b.id ∈ heldKeys u.blocks := List.mem_map_of_mem mem
    change (⟨b.id.client, (lowerOf (heldKeys u.blocks)).get b.id.client⟩ : ID) ∈ keys (asSet u.blocks)
    rw [get_lowerOf held]
    exact mem_heldKeys.mp (lowest_spec held).2
  deleteSet_iff u := by
    change u.deletes.isEmpty = true ↔ asSet u.deletes = ∅
    rw [asSet_eq_empty, List.isEmpty_iff]
  merge_joins updates contents carried := by
    obtain ⟨us, decoded, rfl⟩ := crate_merge updates contents carried
    refine ⟨encodeDelta ⟨us.flatMap Delta.blocks, us.flatMap Delta.deletes⟩, ?_, ?_⟩
    · change mergeDeltas updates = _
      rw [mergeDeltas, decoded]
      rfl
    rw [contentOf_encodeDelta]
    congr 1
    ext x <;> simp [Delta.content, Content.join]
  stateVector_roundtrip sv := ⟨sv, decode_encodeVector sv, fun _ => rfl⟩
  decode_nil := ⟨_, rfl⟩
  decode_shorter bytes msg rest decoded := parseMessage_shorter (decodeMessage_ok decoded)
  decode_syncFrame msg payload rest carries := by
    change decodeMessage _ = _
    rw [decodeMessage, parseMessage_syncFrame (carries_iff.mp carries)]
  decode_sync_shape bytes msg decoded := by
    obtain ⟨payload, tag, sub, len, read, tagShape, subShape, lenShape, eq⟩ :=
      parseMessage_sync (decodeMessage_ok decoded)
    rw [List.append_nil] at eq
    exact ⟨payload, carries_iff.mpr read, tag, sub, len, tagShape, subShape, lenShape, eq⟩
  decode_awareness_shape bytes clients decoded := by
    obtain ⟨payload, tag, len, tagShape, lenShape, eq⟩ :=
      parseMessage_awareness (decodeMessage_ok decoded)
    rw [List.append_nil] at eq
    exact ⟨payload, tag, len, tagShape, lenShape, eq⟩
  encode_syncStep1 _ := rfl
  encode_syncStep2 _ := rfl
  encode_update _ := rfl

theorem takes_varUint {n : Nat} {front : Bytes} (spelled : Spelling n front) :
    Takes parseVarUint n front := parseVarUint_spells spelled

theorem parseVarUint_number : WireFormat.IsNumber parseVarUint where
  delimits bytes n rest read := by
    obtain ⟨front, spelled, same⟩ := parseVarUint_some read
    exact ⟨front, same, takes_varUint spelled⟩
  spells n front takes := by
    obtain ⟨spelled, shape, same⟩ := parseVarUint_some takes.whole
    rw [List.append_nil] at same
    exact same ▸ shape.1

theorem takes_payload (payload : Bytes) :
    Takes (WireFormat.buffer readers) payload (writeVarUint8Array payload) := by
  intro rest
  rw [writeVarUint8Array, List.append_assoc]
  exact parsePayload_spells (write_spelling payload.length) rest

theorem takes_entry (e : AwarenessEntry) : Takes (WireFormat.entry readers)
    (e.client, e.clock, e.json.toUTF8.data.toList) (encodeEntry e) := by
  apply takes_bind (takes_varUint (write_spelling e.client))
  exact takes_bind (takes_varUint (write_spelling e.clock)) (takes_map (takes_payload _))

theorem takes_entries (clients : List AwarenessEntry) :
    ∃ read, Takes (WireFormat.entries readers clients.length) read (clients.flatMap encodeEntry) := by
  induction clients with
  | nil => exact ⟨[], takes_done⟩
  | cons e clients ih =>
    obtain ⟨read, takes⟩ := ih
    exact ⟨_, takes_bind (takes_entry e) (takes_map takes)⟩

theorem readSync_syncBody (sub : Nat) (payload rest : Bytes) :
    (((readSync sub payload).map fun msg => (Message.sync msg, rest)).bind
      fun read => (WireFormat.spoken read.1).map (·, read.2)) =
        WireFormat.syncBody crate payload sub rest := by
  rcases sub with _ | _ | _ | n
  · have decodes : crate.stateVectorDecodeV1 payload = decodeVector payload := rfl
    simp only [readSync, WireFormat.syncBody, decodes]
    cases decodeVector payload <;> rfl
  · rfl
  · rfl
  · rfl

theorem crate_decodes (bytes : Bytes) :
    WireFormat.decoded crate bytes = WireFormat.message crate readers bytes := by
  have parsed : WireFormat.decoded crate bytes =
      (parseMessage bytes).bind fun read => (WireFormat.spoken read.1).map (·, read.2) := by
    have decodes : crate.messageDecode bytes = decodeMessage bytes := rfl
    rw [WireFormat.decoded, decodes, decodeMessage]
    cases parseMessage bytes <;> rfl
  rw [parsed]
  change _ = (parseVarUint bytes).bind fun read => WireFormat.body crate readers read.1 read.2
  unfold parseMessage
  cases parseVarUint bytes with
  | none => rfl
  | some read =>
    obtain ⟨tag, rest⟩ := read
    rcases tag with _ | _ | _ | _ | n
    · change (((parseVarUint rest).bind fun sub => (parsePayload sub.2).bind fun p =>
        (readSync sub.1 p.1).map fun msg => (Message.sync msg, p.2)).bind _) =
          (parseVarUint rest).bind fun sub => (parsePayload sub.2).bind fun p =>
            WireFormat.syncBody crate p.1 sub.1 p.2
      cases parseVarUint rest with
      | none => rfl
      | some sub =>
        cases found : parsePayload sub.2 with
        | none => simp [found]
        | some p =>
          simp only [Option.bind_some, found]
          exact readSync_syncBody sub.1 p.1 p.2
    · change (((parsePayload rest).bind fun p =>
        (readAwareness p.1).map fun cs => (Message.awareness cs, p.2)).bind _) =
          (parsePayload rest).bind fun p => (if (WireFormat.presence readers p.1).isSome
            then Parser.done WireFormat.Spoken.awareness else Parser.fail) p.2
      cases parsePayload rest with
      | none => rfl
      | some p =>
        simp only [Option.bind_some, readAwareness]
        cases WireFormat.presence readers p.1 <;> rfl
    · rfl
    · rfl
    · rfl

/-- The reference crate speaks the wire format. -/
theorem crate_format : WireFormat.Format crate readers where
  tag := parseVarUint_number
  length := parseVarUint_number
  client := parseVarUint_number
  clock := parseVarUint_number
  writes_tag n _ := takes_varUint (write_spelling n)
  writes_length n := takes_varUint (write_spelling n)
  decodes := crate_decodes
  encodes_awareness clients := by
    obtain ⟨read, takes⟩ := takes_entries clients
    refine ⟨encodeAwareness clients, rfl, ?_⟩
    have whole := takes_bind (takes_varUint (write_spelling clients.length)) takes
    rw [WireFormat.presence, encodeAwareness]
    exact congrArg (fun found => (Option.map Prod.fst found).isSome) whole.whole
  encodes_query := rfl

/- A document that waits: client 2 wrote over a clock of client 1 that never
   arrived, and somebody deleted a block of client 4 that never arrived either. -/
def waiting : Replica :=
  .after [⟨[typed 1 0 none], []⟩, ⟨[typed 2 0 (some ⟨1, 2⟩)], [⟨4, 0⟩]⟩]

end Yrby.Reference
