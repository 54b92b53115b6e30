import Yrby.AuditLog
import Yrby.Reference.Crate

/- What a replay of the audit log finds of the changes recorded, whatever processes and keys
   recorded them, died on the way, or reset a log. -/
namespace Yrby.Durability
open Causal Document Yrs Protocol Parsing Base64 History Lexical AuditLog
open Decoder (strip)

variable {y : Yrs} {d : Disk} {key : String} {text : Text} {log : List Bytes}

theorem strip_letters (letters : ∀ c ∈ text, Decoder.isSpace c = false) : strip text = text := by
  have front : text.dropWhile Decoder.isSpace = text := by
    rw [List.dropWhile_eq_self_iff]
    intro positive
    simp [letters _ (List.getElem_mem positive)]
  rw [strip, front, List.rdropWhile_eq_self_iff]
  intro full
  simp [letters _ (List.getLast_mem full)]

theorem readLine_letters (letters : ∀ c ∈ text, Decoder.isSpace c = false) (full : text ≠ []) :
    readLine text = strictDecodeChars text := by
  rw [readLine, strip_letters letters, if_neg full]

theorem readLine_encode (update : Bytes) :
    readLine (encodeChars update) = if update = [] then none else some update := by
  split
  · rename_i empty
    rw [empty]
    rfl
  · rename_i full
    have letters : encodeChars update ≠ [] := fun none =>
      full (encodeChars_injective (none : _ = encodeChars []))
    rw [readLine_letters (encode_not_space update) letters, strict_decode_encode]

def readAfter (text : Text) (update : Bytes) : Option Bytes :=
  readLine (openOf '\n' text ++ encodeChars update)

theorem readText_line (text rest : Text) (update : Bytes) :
    readText (text ++ (lineFor update ++ rest)) = (endedOf '\n' text).filterMap readLine ++
      ((readAfter text update).toList ++ readText rest) := by
  have split : lineFor update ++ rest = encodeChars update ++ '\n' :: rest := by
    rw [lineFor, List.append_assoc, List.singleton_append]
  rw [split, readText, linesOf_line (encode_plain update), List.filterMap_append]
  congr 1
  rw [readAfter]
  cases read : readLine (openOf '\n' text ++ encodeChars update) with
  | none => rw [List.filterMap_cons_none read]; rfl
  | some bytes => rw [List.filterMap_cons_some read]; rfl

/-- Behind something else a change is not read as it was recorded: the line is skipped, or
    read as more than the change. -/
theorem read_behind {front : Text} (letters : ∀ c ∈ front, Decoder.isSpace c = false)
    (opened : front ≠ []) {update : Bytes} (full : update ≠ []) :
    readLine (front ++ encodeChars update) = none ∨
      ∃ before, before ≠ [] ∧ readLine (front ++ encodeChars update) = some (before ++ update) := by
  have all : ∀ c ∈ front ++ encodeChars update, Decoder.isSpace c = false := by
    intro c mem
    rcases List.mem_append.mp mem with here | there
    · exact letters c here
    · exact encode_not_space update c there
  rw [readLine_letters all (by simp [opened])]
  cases decoded : strictDecodeChars (front ++ encodeChars update) with
  | none => exact Or.inl rfl
  | some read =>
    right
    obtain ⟨before, rfl, same⟩ := decode_behind full decoded
    refine ⟨before, ?_, rfl⟩
    rintro rfl
    exact opened same.symm

theorem open_letters (sound : Sound d) (content : d.content key = some text) :
    ∀ c ∈ openOf '\n' text, Decoder.isSpace c = false := by
  intro c mem
  obtain ⟨file, named, rfl⟩ := Option.map_eq_some_iff.mp content
  rcases openFrom_mem mem with none | ⟨there, other⟩
  · simp at none
  · exact (sound.letters file c there).resolve_left other

/- What a replay comes to -/

def applied (y : Yrs) (log : List Bytes) : Nat := log.countP fun update => (y.contentOf update).isSome

theorem foldl_applyLine (laws : y.Laws) (lines : List Text) (doc : y.Doc) (n : Nat) :
    lines.foldl (applyLine y) (doc, n) =
      ((lines.filterMap readLine).foldl (fun doc update => (docApplyUpdate y doc update).1) doc,
        n + applied y (lines.filterMap readLine)) := by
  induction lines generalizing doc n with
  | nil => rfl
  | cons line rest ih =>
    rw [List.foldl_cons]
    cases read : readLine line with
    | none =>
      have skipped : applyLine y (doc, n) line = (doc, n) := by
        unfold readLine at read
        split at read
        · rename_i blank
          simp [applyLine, blank]
        · rename_i full
          simp [applyLine, full, read]
      rw [skipped, ih, List.filterMap_cons_none read]
    | some update =>
      obtain ⟨full, decoded⟩ : strip line ≠ [] ∧ strictDecodeChars (strip line) = some update := by
        unfold readLine at read
        split at read
        · simp at read
        · rename_i full
          exact ⟨full, read⟩
      rw [List.filterMap_cons_some read, List.foldl_cons]
      cases carried : y.decodeV1 update with
      | error e =>
        have left : applyLine y (doc, n) line = (doc, n) := by
          simp [applyLine, full, decoded, docApplyUpdate, carried]
        have same : (docApplyUpdate y doc update).1 = doc := by rw [docApplyUpdate, carried]
        have none : y.contentOf update = none := by simp [contentOf, carried]
        rw [left, ih, same]
        simp [applied, none]
      | ok u =>
        have ok : (y.applyUpdate doc u).2 = .ok () := laws.takes doc u
        have next : applyLine y (doc, n) line = ((docApplyUpdate y doc update).1, n + 1) := by
          cases result : y.applyUpdate doc u with
          | mk after reply =>
            rw [result] at ok
            simp only at ok
            simp [applyLine, full, decoded, docApplyUpdate, carried, result, ok]
        have some_ : (y.contentOf update).isSome := by simp [contentOf_ok carried]
        rw [next, ih]
        simp only [applied, List.countP_cons, some_, if_true]
        congr 1
        omega

theorem reads_eq (d : Disk) (key : String) : reads d key = readText ((d.content key).getD []) := by
  rw [reads]
  cases d.content key with
  | none => rfl
  | some text => rfl

theorem replay_eq (laws : y.Laws) (d : Disk) (key : String) : AuditLog.replay y d key =
    if applied y (reads d key) = 0 then none
    else some (y.encodeStateAsUpdateV1 (History.replay y (reads d key)) .default) := by
  rw [AuditLog.replay, reads]
  cases d.content key with
  | none => rfl
  | some text =>
    have folded := foldl_applyLine laws (linesOf '\n' text) y.newDoc 0
    rw [Nat.zero_add] at folded
    simp only [folded]
    rfl

theorem unapplied (log : List Bytes) (none : applied y log = 0) (doc : y.Doc) :
    log.foldl (fun doc update => (docApplyUpdate y doc update).1) doc = doc := by
  induction log with
  | nil => rfl
  | cons update rest ih =>
    rw [applied, List.countP_cons] at none
    have here : y.contentOf update = .none := by
      by_contra carried
      simp [Option.isSome_iff_ne_none.mpr carried] at none
    have later : applied y rest = 0 := by rw [applied]; omega
    have same : (docApplyUpdate y doc update).1 = doc := by
      cases decoded : y.decodeV1 update with
      | error e => rw [docApplyUpdate, decoded]
      | ok u => simp [contentOf_ok decoded] at here
    rw [List.foldl_cons, same, ih later]

theorem replay_loads (laws : y.Laws) (d : Disk) (key : String) :
    ∃ doc, Channel.docOfState y (AuditLog.replay y d key) = .ok doc ∧
      y.view doc = y.view (History.replay y (reads d key)) := by
  rw [replay_eq laws]
  split
  · rename_i none
    refine ⟨y.newDoc, rfl, ?_⟩
    rw [History.replay, unapplied (reads d key) none]
  · rename_i some_
    have full : (reads d key).isEmpty = false := by
      cases eq : reads d key with
      | nil => simp [eq, applied] at some_
      | cons _ _ => rfl
    have loaded := loadState_view laws (reads d key)
    rwa [loadState, full] at loaded

/- What events leave in a log -/

def written : Fate → Bool
  | .refused _ => false
  | _ => true

def changeIn (key : String) : Incident → Option Bytes
  | .record _ key' update fate =>
    if pathFor key' = pathFor key ∧ written fate = true then some update else none
  | _ => none

/- Nobody dies writing to the log of this key. -/
def Whole (key : String) : Incident → Prop
  | .torn _ key' _ _ => pathFor key' ≠ pathFor key
  | _ => True

theorem step_record (d : Disk) (p : Nat) (key : String) (update : Bytes) (fate : Fate) :
    d.step (.record p key update fate) =
      if written fate = true then d.append p key (lineFor update) else d := by
  cases fate <;> rfl

theorem content_other (sound : Sound d) {key' : String} (other : pathFor key' ≠ pathFor key) (p : Nat)
    (text : Text) : (d.append p key' text).content key = d.content key := by
  by_cases lands : Lands d p key'
  · rw [content_append sound lands, if_neg (Ne.symm other)]
  · obtain ⟨file, apart⟩ := stale_append sound lands text
    exact apart.content key

theorem content_reset (d : Disk) (p : Nat) (key key' : String) : (reset d p key').content key =
    if pathFor key' = pathFor key then none else d.content key := by
  rw [reset, Disk.content]
  split
  · rename_i same
    simp [same]
  · rename_i other
    simp only [Function.update_of_ne (Ne.symm other)]
    rfl

def Closed (d : Disk) (key : String) : Prop := openOf '\n' ((d.content key).getD []) = []

theorem Closed.step (closed : Closed d key) (sound : Sound d) {e : Incident} (whole : Whole key e) :
    Closed (d.step e) key := by
  cases e with
  | record p key' update fate =>
    unfold Closed
    rw [step_record]
    split
    · by_cases lands : Lands d p key'
      · rw [content_append sound lands]
        split
        · exact openOf_line (encode_plain update) _ []
        · exact closed
      · obtain ⟨file, apart⟩ := stale_append sound lands (lineFor update)
        rw [apart.content]
        exact closed
    · exact closed
  | torn p key' update n =>
    have same := content_other sound whole p ((lineFor update).take n)
    unfold Closed
    change openOf '\n' (((d.append p key' ((lineFor update).take n)).content key).getD []) = []
    rw [same]
    exact closed
  | reset p key' =>
    unfold Closed
    change openOf '\n' (((reset d p key').content key).getD []) = []
    rw [content_reset]
    split
    · rfl
    · exact closed
  | restart p => exact closed

theorem run_closed (events : List Incident) (whole : ∀ e ∈ events, Whole key e) :
    Closed (run events) key := by
  have steps : ∀ d, Sound d → Closed d key → Closed (events.foldl Disk.step d) key := by
    induction events with
    | nil => exact fun _ _ closed => closed
    | cons e rest ih =>
      intro d sound closed
      apply ih (fun e mem => whole e (List.mem_cons_of_mem _ mem)) _ (sound.step e)
      exact closed.step sound (whole e (List.mem_cons_self ..))
  exact steps _ empty_sound rfl

/-- Step lemma: the log grows by a line for each change written to it. -/
theorem content_step (sound : Sound d) (current : Current d key) {e : Incident} (keeps : e.Keeps key)
    (whole : Whole key e) : ((d.step e).content key).getD [] =
      (d.content key).getD [] ++ ((changeIn key e).map lineFor).getD [] := by
  cases e with
  | record p key' update fate =>
    rw [step_record]
    by_cases writes : written fate = true
    · rw [if_pos writes]
      by_cases same : pathFor key' = pathFor key
      · rw [content_append sound (current p key' same), if_pos same.symm, content_congr same]
        simp [changeIn, same, writes]
      · rw [content_other sound same]
        simp [changeIn, same]
    · rw [if_neg writes]
      simp [changeIn, writes]
  | torn p key' update n =>
    change ((d.append p key' ((lineFor update).take n)).content key).getD [] = _
    rw [content_other sound whole]
    exact (List.append_nil _).symm
  | reset p key' =>
    rw [Disk.step, content_reset, if_neg keeps]
    exact (List.append_nil _).symm
  | restart p => exact (List.append_nil _).symm

def lineEncodings (log : List Bytes) : Text := textOf '\n' (log.map encodeChars)

theorem content_steps (sound : Sound d) (current : Current d key) (events : List Incident)
    (keep : ∀ e ∈ events, e.Keeps key) (whole : ∀ e ∈ events, Whole key e) :
    ((events.foldl Disk.step d).content key).getD [] =
      (d.content key).getD [] ++ lineEncodings (events.filterMap (changeIn key)) := by
  induction events generalizing d with
  | nil => exact (List.append_nil _).symm
  | cons e rest ih =>
    have first := List.mem_cons_self (a := e) (l := rest)
    have here := content_step sound current (keep e first) (whole e first)
    have later := ih (sound.step e) (current.step (keep e first))
      (fun e mem => keep e (List.mem_cons_of_mem _ mem))
      (fun e mem => whole e (List.mem_cons_of_mem _ mem))
    rw [List.foldl_cons, later, here]
    cases change : changeIn key e with
    | none => rw [List.filterMap_cons_none change]; simp
    | some update =>
      rw [List.filterMap_cons_some change, List.append_assoc]
      rfl

def full (log : List Bytes) : List Bytes := log.filter fun update => !update.isEmpty

theorem filterMap_readLine (log : List Bytes) :
    (log.map encodeChars).filterMap readLine = full log := by
  induction log with
  | nil => rfl
  | cons update rest ih =>
    have here := readLine_encode update
    cases update with
    | nil => exact (List.filterMap_cons_none here).trans ih
    | cons b bytes => exact (List.filterMap_cons_some here).trans (congrArg (List.cons _) ih)

theorem lines_plain (log : List Bytes) : ∀ line ∈ log.map encodeChars, '\n' ∉ line := by
  intro line mem
  obtain ⟨update, _, rfl⟩ := List.mem_map.mp mem
  exact encode_plain update

theorem readText_lines (closed : openOf '\n' text = []) (log : List Bytes) :
    readText (text ++ lineEncodings log) = readText text ++ full log := by
  rw [readText, lineEncodings, (linesOf_textOf (lines_plain log) closed).1, List.filterMap_append,
    filterMap_readLine]
  rfl

/-- The fate of a record: what it wrote through a handle of the file that has its name now
    stays where it is in that file until the log is reset, and reads as recorded exactly if
    nothing was open there; what it wrote through any other handle might as well never have
    been recorded, for every reader of every key from then on. Handles are of that file as
    long as no process resets the log, and nothing is open as long as none dies writing. -/
theorem record_read_back (before after : List Incident) (p : Nat) (key : String) (update : Bytes)
    (full : update ≠ []) (fate : Fate) (writes : written fate = true)
    (keep : ∀ e ∈ after, e.Keeps key) :
    (Lands (run before) p key → ∃ there rest, there = ((run before).content key).getD [] ∧
      (run (before ++ .record p key update fate :: after)).content key =
        some (there ++ (lineFor update ++ rest)) ∧
      reads (run (before ++ .record p key update fate :: after)) key =
        (endedOf '\n' there).filterMap readLine ++ ((readAfter there update).toList ++ readText rest) ∧
      (openOf '\n' there = [] → readAfter there update = some update) ∧
      (openOf '\n' there ≠ [] → readAfter there update = none ∨
        ∃ more, more ≠ [] ∧ readAfter there update = some (more ++ update))) ∧
    (¬ Lands (run before) p key → ∀ key',
      (run (before ++ .record p key update fate :: after)).content key' =
        (run (before ++ after)).content key') ∧
    ((∀ e ∈ before, e.Keeps key) → Lands (run before) p key) ∧
    ((∀ e ∈ before, Whole key e) → openOf '\n' (((run before).content key).getD []) = []) := by
  have sound := run_sound before
  have recorded : run (before ++ .record p key update fate :: after) =
      after.foldl Disk.step ((run before).append p key (lineFor update)) := by
    rw [run_append, List.foldl_cons, step_record, if_pos writes]
  refine ⟨?_, ?_, ?_, run_closed before⟩
  · intro lands
    have wrote : ((run before).append p key (lineFor update)).content key =
        some (((run before).content key).getD [] ++ lineFor update) := by
      rw [content_append sound lands, if_pos rfl]
    obtain ⟨rest, final⟩ := content_steps_grow (sound.append (lineFor_plain update)) wrote after keep
    rw [← recorded, List.append_assoc] at final
    refine ⟨_, rest, rfl, final, ?_, ?_, ?_⟩
    · rw [reads_eq, final]
      exact readText_line _ rest update
    · intro closed
      rw [readAfter, closed, List.nil_append, readLine_encode, if_neg full]
    · intro opened
      apply read_behind _ opened full
      cases content : (run before).content key with
      | none =>
        rw [content] at opened
        exact absurd rfl opened
      | some text => exact open_letters sound content
  · intro stale key'
    obtain ⟨file, apart⟩ := stale_append sound stale (lineFor update)
    rw [recorded, run_append]
    exact (apart.steps after).content key'
  · intro keeps
    exact (empty_current key).steps before keeps p key rfl

/- Process 0 dies after two characters of its line; and a log is reset by another process
   than the one that has it open. -/
def torn : List Incident := [.torn 0 "a/b" [1, 2, 3] 2]

def evicted : List Incident := [.record 1 "a" [5] .stored, .reset 0 "a"]

theorem torn_swallows :
    reads (run (torn ++ .record 1 "a_b" [7] .stored :: [.record 2 "a b" [9] (.unsynced "EIO")])) "a/b" = [[9]] ∧
    readAfter (((run torn).content "a_b").getD []) [7] ≠ some [7] ∧
    (run (evicted ++ .record 1 "a" [7] .stored :: [])).content "a" = none := by
  have behind := record_read_back torn [.record 2 "a b" [9] (.unsynced "EIO")] 1 "a_b" [7]
    (by decide) .stored rfl (by simp [Incident.Keeps])
  have stale := record_read_back evicted [] 1 "a" [7] (by decide) .stored rfl (by simp)
  refine ⟨by decide +kernel, ?_, ?_⟩
  · obtain ⟨there, rest, rfl, _, _, _, opened⟩ := behind.1 (Or.inl rfl)
    rcases opened (by decide +kernel) with none | ⟨more, full, read⟩
    · rw [none]
      simp
    · rw [read]
      simp [full]
  · rw [stale.2.1 (by unfold Lands; decide +kernel)]
    decide +kernel

theorem applied_eq_zero (log : List Bytes) :
    applied y log = 0 ↔ ∀ update ∈ log, y.contentOf update = none := by
  rw [applied, List.countP_eq_zero]
  simp only [Bool.not_eq_true, Option.isSome_eq_false_iff, Option.isNone_iff_eq_none]

theorem entries_eq (d : Disk) (key : String) :
    entries d key = (linesOf '\n' ((d.content key).getD [])).filter (· ≠ []) := by
  rw [entries]
  cases d.content key <;> rfl

theorem entries_lines (closed : openOf '\n' text = [])
    (content : (d.content key).getD [] = text ++ lineEncodings log) : entries d key =
      (linesOf '\n' text).filter (· ≠ []) ++ (Durability.full log).map encodeChars := by
  rw [entries_eq, content, lineEncodings, (linesOf_textOf (lines_plain log) closed).1,
    List.filter_append, List.filter_map, Durability.full]
  congr 3
  ext update
  cases update with
  | nil => rfl
  | cons b bytes =>
    have some_ : encodeChars (b :: bytes) ≠ [] := fun none =>
      List.cons_ne_nil b bytes (encodeChars_injective (none : _ = encodeChars []))
    simp [some_]

/-- One history for every key of a name: as long as no process resets the log or dies
    writing to it, whoever replays it, under any of these keys, finds every change recorded
    under any of them, by any process, in the order they came, and none else. -/
theorem shared_history (laws : y.Laws) (events : List Incident) (key : String)
    (keep : ∀ e ∈ events, e.Keeps key) (whole : ∀ e ∈ events, Whole key e) :
    reads (run events) key = Durability.full (events.filterMap (changeIn key)) ∧
    entries (run events) key =
      (Durability.full (events.filterMap (changeIn key))).map encodeChars ∧
    (AuditLog.replay y (run events) key = none ↔
      ∀ update ∈ Durability.full (events.filterMap (changeIn key)), y.contentOf update = none) ∧
    ∃ doc, Channel.docOfState y (AuditLog.replay y (run events) key) = .ok doc ∧
      y.view doc = y.view (History.replay y (Durability.full (events.filterMap (changeIn key)))) := by
  have content := content_steps empty_sound (empty_current key) events keep whole
  have nothing : (Disk.empty.content key).getD [] = [] := rfl
  rw [nothing, List.nil_append] at content
  have read : reads (run events) key = Durability.full (events.filterMap (changeIn key)) := by
    rw [reads_eq, run, content]
    exact readText_lines (rfl : openOf '\n' [] = []) _
  refine ⟨read, entries_lines (rfl : openOf '\n' [] = []) content, ?_, ?_⟩
  · rw [replay_eq laws, read, ← applied_eq_zero]
    split <;> simp_all
  · rw [← read]
    exact replay_loads laws (run events) key

theorem history_shared :
    reads (run [.record 0 "a/b" [5] .stored, .record 1 "a_b" [] (.unsynced "EIO"),
      .record 1 "a:b" [7] (.refused "full"), .record 1 "c" [8] .stored, .restart 0,
      .record 0 "a_b" [6] (.unsynced "EIO")]) "a b" = [[5], [6]] := by
  exact (shared_history Reference.crate_laws _ "a b" (by simp [Incident.Keeps])
    (by simp [Whole])).1.trans (by decide +kernel)

end Yrby.Durability
