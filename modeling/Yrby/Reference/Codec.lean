import Mathlib.Data.List.Dedup
import Mathlib.Data.List.Sort
import Yrby.Causal.Absorb
import Yrby.WireFormat

/- Bytes for the reference documents: updates and state vectors as lists of
   varuints, and frames in the y-protocols format. The inside of an update is
   opaque to the extension, so any reversible spelling of it will do. -/
namespace Yrby.Reference
open Causal Document Wire

def parseDigits : Bytes → Option (Nat × Bytes)
  | [] => none
  | r :: rest =>
    if r.toNat < 128 then some (r.toNat, rest)
    else (parseDigits rest).map fun p => (r.toNat % 128 + 128 * p.1, p.2)

/- A number that goes on for too long is refused. -/
def parseVarUint (bytes : Bytes) : Option (Nat × Bytes) :=
  (parseDigits bytes).filter fun p => bytes.length ≤ p.2.length + (writeVarUint p.1).length + 10

theorem parseDigits_spells {n : Nat} {bytes : Bytes} (spelled : VarUint n bytes) (rest : Bytes) :
    parseDigits (bytes ++ rest) = some (n, rest) := by
  induction spelled with
  | last small => simp [parseDigits, small]
  | more big _ ih => simp [parseDigits, Nat.not_lt.mpr big, ih]

theorem parseDigits_some {bytes rest : Bytes} {n : Nat}
    (parsed : parseDigits bytes = some (n, rest)) :
    ∃ spelled, VarUint n spelled ∧ bytes = spelled ++ rest := by
  induction bytes generalizing n with
  | nil => simp [parseDigits] at parsed
  | cons r tail ih =>
    rw [parseDigits] at parsed
    split at parsed
    · rename_i small
      obtain ⟨rfl, rfl⟩ := Prod.mk.inj (Option.some.inj parsed)
      exact ⟨[r], VarUint.last small, rfl⟩
    · rename_i big
      obtain ⟨⟨m, tail'⟩, inner, eq⟩ := Option.map_eq_some_iff.mp parsed
      obtain ⟨rfl, rfl⟩ := Prod.mk.inj eq
      obtain ⟨spelled, shape, rfl⟩ := ih inner
      exact ⟨r :: spelled, VarUint.more (Nat.not_lt.mp big) shape, rfl⟩

theorem parseVarUint_spells {n : Nat} {bytes : Bytes} (spelled : Spelling n bytes) (rest : Bytes) :
    parseVarUint (bytes ++ rest) = some (n, rest) := by
  have short : (bytes ++ rest).length ≤ rest.length + (writeVarUint n).length + 10 := by
    have length := spelled.2
    rw [List.length_append]
    omega
  rw [parseVarUint, parseDigits_spells spelled.1, Option.filter_some, decide_eq_true short, if_pos rfl]

theorem parseVarUint_some {bytes rest : Bytes} {n : Nat}
    (parsed : parseVarUint bytes = some (n, rest)) :
    ∃ spelled, Spelling n spelled ∧ bytes = spelled ++ rest := by
  obtain ⟨read, short⟩ := Option.filter_eq_some_iff.mp parsed
  obtain ⟨spelled, shape, rfl⟩ := parseDigits_some read
  refine ⟨spelled, ⟨shape, ?_⟩, rfl⟩
  rw [decide_eq_true_iff, List.length_append] at short
  dsimp only at short
  omega

theorem spelled_positive {n : Nat} {bytes : Bytes} (spelled : VarUint n bytes) :
    0 < bytes.length := by
  cases spelled <;> simp

def spell (ns : List Nat) : Bytes := ns.flatMap writeVarUint

def parseAll : Nat → Bytes → Option (List Nat)
  | _, [] => some []
  | 0, _ => none
  | fuel + 1, bytes => (parseVarUint bytes).bind fun p => (parseAll fuel p.2).map (p.1 :: ·)

theorem length_spell (ns : List Nat) : ns.length ≤ (spell ns).length := by
  induction ns with
  | nil => simp
  | cons n ns ih =>
    have := spelled_positive (write_varUint n)
    simp only [spell, List.flatMap_cons, List.length_append, List.length_cons] at ih ⊢
    omega

theorem parseAll_spell (ns : List Nat) {fuel : Nat} (enough : ns.length ≤ fuel) :
    parseAll fuel (spell ns) = some ns := by
  induction ns generalizing fuel with
  | nil => cases fuel <;> rfl
  | cons n ns ih =>
    obtain ⟨fuel, rfl⟩ : ∃ m, fuel = m + 1 := Nat.exists_eq_succ_of_ne_zero (by simp at enough; omega)
    have read : parseVarUint (spell (n :: ns)) = some (n, spell ns) :=
      parseVarUint_spells (write_spelling n) (spell ns)
    have full : spell (n :: ns) ≠ [] := by
      intro none
      simp [none, parseVarUint, parseDigits] at read
    cases bytes : spell (n :: ns) with
    | nil => exact absurd bytes full
    | cons r tail =>
      rw [bytes] at read
      simp [parseAll, read, ih (by simpa using enough)]

def parseNats (bytes : Bytes) : Option (List Nat) := parseAll bytes.length bytes

theorem parseNats_spell (ns : List Nat) : parseNats (spell ns) = some ns :=
  parseAll_spell ns (length_spell ns)

/-- A type whose values are spelled as numbers, one after another. -/
structure Spelled (A : Type) where
  code : A → List Nat
  parse : List Nat → Option (A × List Nat)
  parse_code : ∀ a rest, parse (code a ++ rest) = some (a, rest)

namespace Spelled
variable {A : Type} (s : Spelled A)

theorem code_injective {a b : A} (same : s.code a = s.code b) : a = b := by
  have read := s.parse_code a []
  rw [same, s.parse_code b []] at read
  exact (Prod.mk.inj (Option.some.inj read)).1.symm

def parseCount : Nat → List Nat → Option (List A × List Nat)
  | 0, ns => some ([], ns)
  | n + 1, ns =>
    (s.parse ns).bind fun p => (parseCount n p.2).map fun q => (p.1 :: q.1, q.2)

def codeList (l : List A) : List Nat := l.length :: l.flatMap s.code

def parseList : List Nat → Option (List A × List Nat)
  | [] => none
  | n :: ns => s.parseCount n ns

theorem parseList_code (l : List A) (rest : List Nat) :
    s.parseList (s.codeList l ++ rest) = some (l, rest) := by
  simp only [codeList, List.cons_append, parseList]
  induction l with
  | nil => rfl
  | cons a l ih =>
    simp [parseCount, s.parse_code, ih]

end Spelled

def spelledID : Spelled ID where
  code i := [i.client, i.clock]
  parse
    | client :: clock :: rest => some (⟨client, clock⟩, rest)
    | _ => none
  parse_code _ _ := rfl

def codeReference : Option ID → List Nat
  | none => [0]
  | some i => [1, i.client, i.clock]

def parseReference : List Nat → Option (Option ID × List Nat)
  | 0 :: rest => some (none, rest)
  | 1 :: client :: clock :: rest => some (some ⟨client, clock⟩, rest)
  | _ => none

theorem parseReference_code (i : Option ID) (rest : List Nat) :
    parseReference (codeReference i ++ rest) = some (i, rest) := by
  cases i <;> rfl

def codeBlock (b : Block) : List Nat :=
  b.id.client :: b.id.clock ::
    (codeReference b.origin ++ (codeReference b.rightOrigin ++ codeReference b.parent))

def parseBlock : List Nat → Option (Block × List Nat)
  | client :: clock :: ns =>
    (parseReference ns).bind fun origin =>
      (parseReference origin.2).bind fun rightOrigin =>
        (parseReference rightOrigin.2).map fun parent =>
          (⟨⟨client, clock⟩, origin.1, rightOrigin.1, parent.1⟩, parent.2)
  | _ => none

def spelledBlock : Spelled Block where
  code := codeBlock
  parse := parseBlock
  parse_code b rest := by simp [codeBlock, parseBlock, parseReference_code]

def spelledEntry : Spelled (Nat × Nat) where
  code e := [e.1, e.2]
  parse
    | client :: clock :: rest => some ((client, clock), rest)
    | _ => none
  parse_code _ _ := rfl

/- Sets are spelled as sorted lists, so that equal sets are spelled the same. -/
def atMost : List Nat → List Nat → Bool
  | [], _ => true
  | _ :: _, [] => false
  | a :: as, b :: bs => decide (a < b) || decide (a = b) && atMost as bs

theorem atMost_total (as bs : List Nat) : atMost as bs = true ∨ atMost bs as = true := by
  induction as generalizing bs with
  | nil => exact Or.inl rfl
  | cons a as ih =>
    cases bs with
    | nil => exact Or.inr rfl
    | cons b bs =>
      simp only [atMost, Bool.or_eq_true, Bool.and_eq_true, decide_eq_true_eq]
      rcases Nat.lt_trichotomy a b with less | same | more
      · exact Or.inl (Or.inl less)
      · rcases ih bs with le | le
        · exact Or.inl (Or.inr ⟨same, le⟩)
        · exact Or.inr (Or.inr ⟨same.symm, le⟩)
      · exact Or.inr (Or.inl more)

theorem atMost_trans {as bs cs : List Nat} (one : atMost as bs = true) (two : atMost bs cs = true) :
    atMost as cs = true := by
  induction as generalizing bs cs with
  | nil => rfl
  | cons a as ih =>
    cases bs with
    | nil => simp [atMost] at one
    | cons b bs =>
      cases cs with
      | nil => simp [atMost] at two
      | cons c cs =>
        simp only [atMost, Bool.or_eq_true, Bool.and_eq_true, decide_eq_true_eq] at one two ⊢
        rcases one with less | ⟨rfl, one⟩
        · rcases two with more | ⟨rfl, _⟩
          · exact Or.inl (less.trans more)
          · exact Or.inl less
        · rcases two with more | ⟨rfl, two⟩
          · exact Or.inl more
          · exact Or.inr ⟨rfl, ih one two⟩

theorem atMost_antisymm {as bs : List Nat} (one : atMost as bs = true) (two : atMost bs as = true) :
    as = bs := by
  induction as generalizing bs with
  | nil =>
    cases bs with
    | nil => rfl
    | cons b bs => simp [atMost] at two
  | cons a as ih =>
    cases bs with
    | nil => simp [atMost] at one
    | cons b bs =>
      simp only [atMost, Bool.or_eq_true, Bool.and_eq_true, decide_eq_true_eq] at one two
      rcases one with less | ⟨rfl, one⟩
      · omega
      · rcases two with less | ⟨_, two⟩
        · omega
        · rw [ih one two]

section Sorted
variable {A : Type} [DecidableEq A] (s : Spelled A)

def before (a b : A) : Prop := atMost (s.code a) (s.code b) = true

instance : DecidableRel (before s) := fun _ _ => inferInstanceAs (Decidable (_ = true))

instance : Std.Total (before s) := ⟨fun _ _ => atMost_total _ _⟩

instance : IsTrans A (before s) := ⟨fun _ _ _ => atMost_trans⟩

instance : Std.Antisymm (before s) :=
  ⟨fun _ _ one two => s.code_injective (atMost_antisymm one two)⟩

def sorted (l : List A) : List A := l.dedup.insertionSort (before s)

@[simp] theorem mem_sorted {l : List A} {a : A} : a ∈ sorted s l ↔ a ∈ l := by
  simp [sorted]

theorem sorted_congr {l m : List A} (same : asSet l = asSet m) : sorted s l = sorted s m := by
  have perm : l.dedup.Perm m.dedup := by
    apply (List.perm_ext_iff_of_nodup l.nodup_dedup m.nodup_dedup).mpr
    intro a
    rw [List.mem_dedup, List.mem_dedup]
    exact Set.ext_iff.mp same a
  have ordered := List.pairwise_insertionSort (before s)
  apply List.Perm.eq_of_pairwise' (ordered _) (ordered _)
  exact (List.perm_insertionSort _ _).trans (perm.trans (List.perm_insertionSort _ _).symm)

end Sorted

/-- The reference reading of a v1 update. -/
structure Delta where
  blocks : List Block
  deletes : List ID
  deriving DecidableEq, Repr

def Delta.content (u : Delta) : Content := ⟨asSet u.blocks, asSet u.deletes⟩

def encodeDelta (u : Delta) : Bytes :=
  spell (spelledBlock.codeList (sorted spelledBlock u.blocks) ++
    spelledID.codeList (sorted spelledID u.deletes))

def parseDelta (ns : List Nat) : Option Delta :=
  (spelledBlock.parseList ns).bind fun blocks =>
    (spelledID.parseList blocks.2).bind fun deletes =>
      if deletes.2.isEmpty then some ⟨blocks.1, deletes.1⟩ else none

def decodeDelta (bytes : Bytes) : Except String Delta :=
  match (parseNats bytes).bind parseDelta with
  | some u => .ok u
  | none => .error "failed to decode update"

theorem decode_encodeDelta (u : Delta) : decodeDelta (encodeDelta u) =
    .ok ⟨sorted spelledBlock u.blocks, sorted spelledID u.deletes⟩ := by
  have last := spelledID.parseList_code (sorted spelledID u.deletes) []
  rw [List.append_nil] at last
  simp [decodeDelta, encodeDelta, parseNats_spell, parseDelta, Spelled.parseList_code, last]

theorem encodeDelta_congr {u v : Delta} (same : u.content = v.content) :
    encodeDelta u = encodeDelta v := by
  obtain ⟨blocks, deletes⟩ := Content.mk.inj same
  rw [encodeDelta, encodeDelta, sorted_congr _ blocks, sorted_congr _ deletes]

def encodeVector (sv : StateVector) : Bytes := spell (spelledEntry.codeList sv.entries)

def decodeVector (bytes : Bytes) : Except String StateVector :=
  match (parseNats bytes).bind spelledEntry.parseList with
  | some (entries, []) => .ok ⟨entries⟩
  | _ => .error "failed to decode state vector"

theorem decode_encodeVector (sv : StateVector) : decodeVector (encodeVector sv) = .ok sv := by
  have read := spelledEntry.parseList_code sv.entries []
  rw [List.append_nil] at read
  simp [decodeVector, encodeVector, parseNats_spell, read]

/- A length-prefixed payload -/
def parsePayload (bytes : Bytes) : Option (Bytes × Bytes) :=
  (parseVarUint bytes).bind fun p =>
    if p.1 ≤ p.2.length then some (p.2.take p.1, p.2.drop p.1) else none

theorem parsePayload_spells {payload len : Bytes} (spelled : Spelling payload.length len)
    (rest : Bytes) : parsePayload (len ++ (payload ++ rest)) = some (payload, rest) := by
  simp [parsePayload, parseVarUint_spells spelled]

theorem parsePayload_some {bytes payload rest : Bytes}
    (parsed : parsePayload bytes = some (payload, rest)) :
    ∃ len, Spelling payload.length len ∧ bytes = len ++ (payload ++ rest) := by
  obtain ⟨⟨n, tail⟩, read, cut⟩ := Option.bind_eq_some_iff.mp parsed
  obtain ⟨len, spelled, rfl⟩ := parseVarUint_some read
  dsimp only at cut
  split at cut
  · rename_i fits
    obtain ⟨rfl, rfl⟩ := Prod.mk.inj (Option.some.inj cut)
    refine ⟨len, ?_, by rw [List.take_append_drop]⟩
    rwa [List.length_take, Nat.min_eq_left fits]
  · exact absurd cut (by simp)

def readSync : Nat → Bytes → Option SyncMessage
  | 0, payload => (decodeVector payload).toOption.map .syncStep1
  | 1, payload => some (.syncStep2 payload)
  | 2, payload => some (.update payload)
  | _, _ => none

def readers : WireFormat.Readers := ⟨parseVarUint, parseVarUint, parseVarUint, parseVarUint⟩

/- The state of a client is taken as it is, JSON or not. -/
def readAwareness (payload : Bytes) : Option (List AwarenessEntry) :=
  (WireFormat.presence readers payload).map fun read => read.map fun e =>
    ⟨e.1, e.2.1, (String.fromUTF8? ⟨e.2.2.toArray⟩).getD ""⟩

def encodeEntry (e : AwarenessEntry) : Bytes :=
  writeVarUint e.client ++ (writeVarUint e.clock ++ writeVarUint8Array e.json.toUTF8.data.toList)

def encodeAwareness (clients : List AwarenessEntry) : Bytes :=
  writeVarUint clients.length ++ clients.flatMap encodeEntry

def parseMessage (bytes : Bytes) : Option (Message × Bytes) :=
  (parseVarUint bytes).bind fun tag =>
    if tag.1 = 0 then
      (parseVarUint tag.2).bind fun sub =>
        (parsePayload sub.2).bind fun p => (readSync sub.1 p.1).map fun msg => (.sync msg, p.2)
    else if tag.1 = 1 then
      (parsePayload tag.2).bind fun p => (readAwareness p.1).map fun cs => (.awareness cs, p.2)
    else if tag.1 = 3 then some (.awarenessQuery, tag.2)
    else none

/- The bytes end before the message they begin does, or a number in it is too long. -/
def runsOut (bytes : Bytes) : Bool :=
  match parseVarUint bytes with
  | none => true
  | some (0, rest) =>
    match parseVarUint rest with
    | none => true
    | some (_, rest) => (parsePayload rest).isNone
  | some (1, rest) => (parsePayload rest).isNone
  | some _ => false

def decodeMessage (bytes : Bytes) : Except ReadError (Message × Bytes) :=
  match parseMessage bytes with
  | some read => .ok read
  | none => .error ⟨runsOut bytes, "failed to decode message"⟩

def encodeMessage : Message → Bytes
  | .sync (.syncStep1 sv) => syncFrame 0 (encodeVector sv)
  | .sync (.syncStep2 update) => syncFrame 1 update
  | .sync (.update update) => syncFrame 2 update
  | .awareness clients => awarenessFrame (encodeAwareness clients)
  | .awarenessQuery => writeVarUint 3
  | .auth _ => writeVarUint 2 ++ writeVarUint 0
  | .custom tag data => writeVarUint tag ++ writeVarUint8Array data

theorem parseVarUint_append {bytes rest : Bytes} {n : Nat} (more : Bytes)
    (parsed : parseVarUint bytes = some (n, rest)) :
    parseVarUint (bytes ++ more) = some (n, rest ++ more) := by
  obtain ⟨spelled, shape, rfl⟩ := parseVarUint_some parsed
  rw [List.append_assoc]
  exact parseVarUint_spells shape _

theorem parsePayload_append {bytes payload rest : Bytes} (more : Bytes)
    (parsed : parsePayload bytes = some (payload, rest)) :
    parsePayload (bytes ++ more) = some (payload, rest ++ more) := by
  obtain ⟨len, shape, rfl⟩ := parsePayload_some parsed
  rw [List.append_assoc, List.append_assoc]
  exact parsePayload_spells shape _

/-- Where the bytes do not run out, what follows them changes nothing. -/
theorem parseMessage_append {bytes : Bytes} (enough : runsOut bytes = false) (more : Bytes) :
    parseMessage (bytes ++ more) =
      (parseMessage bytes).map fun read => (read.1, read.2 ++ more) := by
  unfold runsOut at enough
  cases tagged : parseVarUint bytes with
  | none => simp [tagged] at enough
  | some read =>
    obtain ⟨tag, rest⟩ := read
    rw [parseMessage, parseMessage, tagged, parseVarUint_append more tagged]
    simp only [Option.bind_some]
    split_ifs with sync awareness query
    · subst sync
      cases typed : parseVarUint rest with
      | none => simp [tagged, typed] at enough
      | some read =>
        obtain ⟨sub, rest⟩ := read
        cases sized : parsePayload rest with
        | none => simp [tagged, typed, sized] at enough
        | some read =>
          rw [parseVarUint_append more typed]
          simp only [Option.bind_some, sized, parsePayload_append more sized]
          cases readSync sub read.1 <;> rfl
    · subst awareness
      cases sized : parsePayload rest with
      | none => simp [tagged, sized] at enough
      | some read =>
        simp only [Option.bind_some, parsePayload_append more sized]
        cases readAwareness read.1 <;> rfl
    · rfl
    · rfl

theorem parseMessage_runsOut {bytes : Bytes} (short : runsOut bytes = true) :
    parseMessage bytes = none := by
  unfold runsOut at short
  unfold parseMessage
  cases tagged : parseVarUint bytes with
  | none => rfl
  | some read =>
    obtain ⟨tag, rest⟩ := read
    simp only [Option.bind_some]
    match tag with
    | 0 =>
      cases typed : parseVarUint rest with
      | none => rfl
      | some read =>
        simp only [tagged, typed, Option.isNone_iff_eq_none] at short
        simp [short]
    | 1 =>
      simp only [tagged, Option.isNone_iff_eq_none] at short
      simp [short]
    | n + 2 => simp [tagged] at short

theorem parseMessage_syncFrame {msg : SyncMessage} {payload : Bytes}
    (carries : readSync msg.syncType payload = some msg) (rest : Bytes) :
    parseMessage (syncFrame msg.syncType payload ++ rest) = some (.sync msg, rest) := by
  simp only [parseMessage, syncFrame, writeVarUint8Array, List.append_assoc,
    parseVarUint_spells (write_spelling _), Option.bind_some, ↓reduceIte,
    parsePayload_spells (write_spelling _), carries, Option.map_some]

theorem readSync_some {sub : Nat} {payload : Bytes} {msg : SyncMessage}
    (read : readSync sub payload = some msg) : sub = msg.syncType ∧
      (match msg with
        | .syncStep1 sv => decodeVector payload = .ok sv
        | .syncStep2 update => payload = update
        | .update update => payload = update) := by
  match sub with
  | 0 =>
    obtain ⟨sv, decoded, rfl⟩ := Option.map_eq_some_iff.mp read
    refine ⟨rfl, ?_⟩
    cases eq : decodeVector payload with
    | error e => simp [eq, Except.toOption] at decoded
    | ok sv' => simpa [eq, Except.toOption] using decoded
  | 1 =>
    obtain rfl := Option.some.inj read
    exact ⟨rfl, rfl⟩
  | 2 =>
    obtain rfl := Option.some.inj read
    exact ⟨rfl, rfl⟩
  | n + 3 => simp [readSync] at read

theorem parseMessage_sync {bytes rest : Bytes} {msg : SyncMessage}
    (parsed : parseMessage bytes = some (.sync msg, rest)) :
    ∃ payload tag sub len, readSync msg.syncType payload = some msg ∧ Spelling 0 tag ∧
      Spelling msg.syncType sub ∧ Spelling payload.length len ∧
      bytes = tag ++ (sub ++ (len ++ (payload ++ rest))) := by
  obtain ⟨⟨tag, r1⟩, readTag, body⟩ := Option.bind_eq_some_iff.mp parsed
  obtain ⟨tagBytes, tagSpelled, rfl⟩ := parseVarUint_some readTag
  clear parsed
  dsimp only at body
  split_ifs at body with sync awareness query
  · subst sync
    obtain ⟨⟨sub, r2⟩, readSub, body2⟩ := Option.bind_eq_some_iff.mp body
    obtain ⟨subBytes, subSpelled, rfl⟩ := parseVarUint_some readSub
    obtain ⟨⟨payload, r3⟩, readPayload, body3⟩ := Option.bind_eq_some_iff.mp body2
    obtain ⟨len, lenSpelled, rfl⟩ := parsePayload_some readPayload
    obtain ⟨msg', read, eq⟩ := Option.map_eq_some_iff.mp body3
    obtain ⟨same, rfl⟩ := Prod.mk.inj eq
    obtain rfl := Message.sync.inj same
    obtain ⟨rfl, _⟩ := readSync_some read
    exact ⟨payload, tagBytes, subBytes, len, read, tagSpelled, subSpelled, lenSpelled, rfl⟩
  · obtain ⟨p, _, body2⟩ := Option.bind_eq_some_iff.mp body
    obtain ⟨cs, _, eq⟩ := Option.map_eq_some_iff.mp body2
    simp at eq
  · simp at body

theorem parseMessage_awareness {bytes rest : Bytes} {clients : List AwarenessEntry}
    (parsed : parseMessage bytes = some (.awareness clients, rest)) :
    ∃ payload tag len, Spelling 1 tag ∧ Spelling payload.length len ∧
      bytes = tag ++ (len ++ (payload ++ rest)) := by
  obtain ⟨⟨tag, r1⟩, readTag, body⟩ := Option.bind_eq_some_iff.mp parsed
  obtain ⟨tagBytes, tagSpelled, rfl⟩ := parseVarUint_some readTag
  clear parsed
  dsimp only at body
  split_ifs at body with sync awareness query
  · obtain ⟨sub, _, body2⟩ := Option.bind_eq_some_iff.mp body
    obtain ⟨p, _, body3⟩ := Option.bind_eq_some_iff.mp body2
    obtain ⟨msg, _, eq⟩ := Option.map_eq_some_iff.mp body3
    simp at eq
  · subst awareness
    obtain ⟨⟨payload, r2⟩, readPayload, body2⟩ := Option.bind_eq_some_iff.mp body
    obtain ⟨len, lenSpelled, rfl⟩ := parsePayload_some readPayload
    obtain ⟨cs, _, eq⟩ := Option.map_eq_some_iff.mp body2
    obtain ⟨_, rfl⟩ := Prod.mk.inj eq
    exact ⟨payload, tagBytes, len, tagSpelled, lenSpelled, rfl⟩
  · simp at body

theorem parseVarUint_shorter {bytes : Bytes} {p : Nat × Bytes}
    (parsed : parseVarUint bytes = some p) : p.2.length < bytes.length := by
  obtain ⟨n, rest⟩ := p
  obtain ⟨spelled, shape, rfl⟩ := parseVarUint_some parsed
  have := spelled_positive shape.1
  simp only [List.length_append]
  omega

theorem parsePayload_shorter {bytes : Bytes} {p : Bytes × Bytes}
    (parsed : parsePayload bytes = some p) : p.2.length ≤ bytes.length := by
  obtain ⟨payload, rest⟩ := p
  obtain ⟨len, _, rfl⟩ := parsePayload_some parsed
  simp only [List.length_append]
  omega

theorem parseMessage_shorter {bytes rest : Bytes} {msg : Message}
    (parsed : parseMessage bytes = some (msg, rest)) : rest.length < bytes.length := by
  obtain ⟨tag, readTag, parsed⟩ := Option.bind_eq_some_iff.mp parsed
  apply lt_of_le_of_lt _ (parseVarUint_shorter readTag)
  split_ifs at parsed with sync awareness query
  · obtain ⟨sub, readSub, parsed⟩ := Option.bind_eq_some_iff.mp parsed
    obtain ⟨p, readPayload, parsed⟩ := Option.bind_eq_some_iff.mp parsed
    obtain ⟨_, _, eq⟩ := Option.map_eq_some_iff.mp parsed
    obtain ⟨_, rfl⟩ := Prod.mk.inj eq
    exact (parsePayload_shorter readPayload).trans (parseVarUint_shorter readSub).le
  · obtain ⟨p, readPayload, parsed⟩ := Option.bind_eq_some_iff.mp parsed
    obtain ⟨_, _, eq⟩ := Option.map_eq_some_iff.mp parsed
    obtain ⟨_, rfl⟩ := Prod.mk.inj eq
    exact parsePayload_shorter readPayload
  · obtain ⟨_, rfl⟩ := Prod.mk.inj (Option.some.inj parsed)
    exact Nat.le_refl _

end Yrby.Reference
