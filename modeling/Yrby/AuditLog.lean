import Mathlib.Logic.Function.Basic
import Yrby.Decoder
import Yrby.History
import Yrby.Parsing.Lines

/- The append-only store of the demo (audit_log.rb): a file for each document, a line of
   base64 for each change, appended by any number of processes. -/
namespace Yrby.AuditLog
open Document Yrs Protocol Parsing Base64 Lexical
open Decoder (strip)

/- What /[^a-zA-Z0-9_-]/ does not match -/
def kept (c : Char) : Bool :=
  ('a' ≤ c && c ≤ 'z') || ('A' ≤ c && c ≤ 'Z') || ('0' ≤ c && c ≤ '9') || c = '_' || c = '-'

def fileName (key : String) : List Char := key.toList.map fun c => if kept c then c else '_'

def pathFor (key : String) : String := String.ofList (fileName key) ++ ".log"

/-- The files by number, since one that is deleted is still there for whoever has it open;
    the names in tmp/audit; and the append handles that each process keeps by key. -/
structure Disk where
  files : Nat → Text
  names : String → Option Nat
  handles : Nat → String → Option Nat
  count : Nat

namespace Disk

def empty : Disk := ⟨fun _ => [], fun _ => none, fun _ _ => none, 0⟩

def create (d : Disk) (path : String) : Disk :=
  { d with
    files := Function.update d.files d.count []
    names := Function.update d.names path (some d.count)
    count := d.count + 1 }

def openHandle (d : Disk) (p : Nat) (key : String) (file : Nat) : Disk :=
  { d with handles := Function.update d.handles p (Function.update (d.handles p) key (some file)) }

/- File.open(path_for(key), "a"), unless the process still has a handle -/
def handleFor (d : Disk) (p : Nat) (key : String) : Nat × Disk :=
  match d.handles p key with
  | some file => (file, d)
  | none =>
    match d.names (pathFor key) with
    | some file => (file, d.openHandle p key file)
    | none => (d.count, (d.create (pathFor key)).openHandle p key d.count)

def write (d : Disk) (file : Nat) (text : Text) : Disk :=
  { d with files := Function.update d.files file (d.files file ++ text) }

def content (d : Disk) (key : String) : Option Text := (d.names (pathFor key)).map d.files

end Disk

/-- How record ends: it returns; the store is unavailable; or the line is in the file but
    fsync raises. A flush that fails half-way, with the rest of the line left to the next
    write of the handle, is not among them. -/
inductive Fate where
  | stored
  | refused (e : String)
  | unsynced (e : String)

def lineFor (update : Bytes) : Text := encodeChars update ++ ['\n']

def Disk.append (d : Disk) (p : Nat) (key : String) (text : Text) : Disk :=
  let (file, d) := d.handleFor p key
  d.write file text

def record (d : Disk) (p : Nat) (key : String) (update : Bytes) : Fate → Disk × Except String Unit
  | .stored => (d.append p key (lineFor update), .ok ())
  | .refused e => (d, .error e)
  | .unsynced e => (d.append p key (lineFor update), .error e)

/- readlines(path, chomp: true).reject(&:empty?); no carriage return is ever written. -/
def entries (d : Disk) (key : String) : List Text :=
  match d.content key with
  | none => []
  | some text => (linesOf '\n' text).filter (· ≠ [])

def applyLine (y : Yrs) (state : y.Doc × Nat) (raw : Text) : y.Doc × Nat :=
  let line := strip raw
  if line = [] then state
  else
    match strictDecodeChars line with
    | none => state
    | some update =>
      match docApplyUpdate y state.1 update with
      | (doc, .ok _) => (doc, state.2 + 1)
      | (doc, .error _) => (doc, state.2)

/-- nil for a missing log, or one that nothing of could be applied. -/
def replay (y : Yrs) (d : Disk) (key : String) : Option Bytes :=
  match d.content key with
  | none => none
  | some text =>
    let (doc, applied) := (linesOf '\n' text).foldl (applyLine y) (y.newDoc, 0)
    if applied = 0 then none else some (y.encodeStateAsUpdateV1 doc .default)

/- The process that resets drops its handle of this key, the file its name. -/
def reset (d : Disk) (p : Nat) (key : String) : Disk :=
  { d with
    handles := Function.update d.handles p (Function.update (d.handles p) key none)
    names := Function.update d.names (pathFor key) none }

def restart (d : Disk) (p : Nat) : Disk :=
  { d with handles := Function.update d.handles p fun _ => none }

/-- What happens to the disk: a change is recorded; the process dies with n characters of
    the line in the file; a log is reset; a process starts anew. -/
inductive Incident where
  | record (p : Nat) (key : String) (update : Bytes) (fate : Fate)
  | torn (p : Nat) (key : String) (update : Bytes) (n : Nat)
  | reset (p : Nat) (key : String)
  | restart (p : Nat)

def Disk.step (d : Disk) : Incident → Disk
  | .record p key update fate => (AuditLog.record d p key update fate).1
  | .torn p key update n => AuditLog.restart (d.append p key ((lineFor update).take n)) p
  | .reset p key => AuditLog.reset d p key
  | .restart p => AuditLog.restart d p

def run (events : List Incident) : Disk := events.foldl Disk.step .empty

def readLine (raw : Text) : Option Bytes :=
  if strip raw = [] then none else strictDecodeChars (strip raw)

def readText (text : Text) : List Bytes := (linesOf '\n' text).filterMap readLine

/-- The changes a replay of the key applies, in order. -/
def reads (d : Disk) (key : String) : List Bytes := ((d.content key).map readText).getD []

variable {d d' : Disk} {p : Nat} {key : String} {text : Text}

/-- What a record writes is what a reader of this name reads. -/
def Lands (d : Disk) (p : Nat) (key : String) : Prop :=
  d.handles p key = none ∨ d.handles p key = d.names (pathFor key)

/-- A file has one name, a handle is of a file of its own name, and files hold lines. -/
structure Sound (d : Disk) : Prop where
  named : ∀ path file, d.names path = some file → file < d.count
  single : ∀ path path' file, d.names path = some file → d.names path' = some file → path = path'
  handled : ∀ p key file, d.handles p key = some file →
    file < d.count ∧ ∀ path, d.names path = some file → path = pathFor key
  letters : ∀ file, ∀ c ∈ d.files file, c = '\n' ∨ Decoder.isSpace c = false

/- The three ways to a handle -/
theorem handleFor_held {file : Nat} (held : d.handles p key = some file) :
    d.handleFor p key = (file, d) := by
  rw [Disk.handleFor, held]

theorem handleFor_named {file : Nat} (held : d.handles p key = none)
    (named : d.names (pathFor key) = some file) :
    d.handleFor p key = (file, d.openHandle p key file) := by
  rw [Disk.handleFor, held, named]

theorem handleFor_new (held : d.handles p key = none) (named : d.names (pathFor key) = none) :
    d.handleFor p key = (d.count, (d.create (pathFor key)).openHandle p key d.count) := by
  rw [Disk.handleFor, held, named]

theorem append_eq {file : Nat} (handle : d.handleFor p key = (file, d')) :
    d.append p key text = d'.write file text := by
  rw [Disk.append, handle]

theorem openHandle_handles (p' : Nat) (key' : String) (file : Nat) :
    (d.openHandle p key file).handles p' key' =
      if p' = p ∧ key' = key then some file else d.handles p' key' := by
  by_cases process : p' = p
  · subst process
    by_cases same : key' = key
    · subst same
      simp [Disk.openHandle]
    · simp [Disk.openHandle, same]
  · simp [Disk.openHandle, process]

theorem empty_sound : Sound .empty := by
  constructor <;> simp [Disk.empty]

theorem Sound.opened (sound : Sound d) {file : Nat} (named : d.names (pathFor key) = some file) :
    Sound (d.openHandle p key file) where
  named := sound.named
  single := sound.single
  handled p' key' file' held := by
    rw [openHandle_handles] at held
    split at held
    · rename_i own
      obtain rfl := Option.some.inj held
      exact ⟨sound.named _ _ named, fun path there => own.2 ▸ sound.single _ _ _ there named⟩
    · exact sound.handled p' key' file' held
  letters := sound.letters

theorem Sound.created (sound : Sound d) (path : String) : Sound (d.create path) where
  named path' file named := by
    simp only [Disk.create, Function.update_apply] at named
    split at named
    · obtain rfl := Option.some.inj named
      exact Nat.lt_succ_self _
    · exact Nat.lt_succ_of_lt (sound.named _ _ named)
  single path' path'' file one two := by
    simp only [Disk.create, Function.update_apply] at one two
    split at one
    · split at two
      · simp_all
      · have := sound.named _ _ two
        simp only [Option.some.injEq] at one
        omega
    · split at two
      · have := sound.named _ _ one
        simp only [Option.some.injEq] at two
        omega
      · exact sound.single _ _ _ one two
  handled p' key' file held := by
    obtain ⟨below, own⟩ := sound.handled p' key' file held
    refine ⟨Nat.lt_succ_of_lt below, fun path' named => ?_⟩
    simp only [Disk.create, Function.update_apply] at named
    split at named
    · simp only [Option.some.injEq] at named
      omega
    · exact own path' named
  letters file c mem := by
    simp only [Disk.create, Function.update_apply] at mem
    split at mem
    · simp at mem
    · exact sound.letters file c mem

theorem Sound.written (sound : Sound d) (file : Nat)
    (plain : ∀ c ∈ text, c = '\n' ∨ Decoder.isSpace c = false) : Sound (d.write file text) where
  named := sound.named
  single := sound.single
  handled := sound.handled
  letters file' c mem := by
    simp only [Disk.write, Function.update_apply] at mem
    split at mem
    · rcases List.mem_append.mp mem with old | new
      · exact sound.letters _ c old
      · exact plain c new
    · exact sound.letters _ c mem

theorem Sound.append (sound : Sound d) (plain : ∀ c ∈ text, c = '\n' ∨ Decoder.isSpace c = false) :
    Sound (d.append p key text) := by
  cases held : d.handles p key with
  | some file =>
    rw [append_eq (handleFor_held held)]
    exact sound.written file plain
  | none =>
    cases named : d.names (pathFor key) with
    | some file =>
      rw [append_eq (handleFor_named held named)]
      exact (sound.opened named).written file plain
    | none =>
      rw [append_eq (handleFor_new held named)]
      exact ((sound.created (pathFor key)).opened (by simp [Disk.create])).written _ plain

theorem Sound.reset (sound : Sound d) (p : Nat) (key : String) : Sound (reset d p key) where
  named path file named := by
    simp only [AuditLog.reset, Function.update_apply] at named
    split at named
    · simp at named
    · exact sound.named _ _ named
  single path path' file one two := by
    simp only [AuditLog.reset, Function.update_apply] at one two
    split at one
    · simp at one
    · split at two
      · simp at two
      · exact sound.single _ _ _ one two
  handled p' key' file held := by
    have before : d.handles p' key' = some file := by
      simp only [AuditLog.reset, Function.update_apply] at held
      split at held
      · rename_i same
        subst same
        simp only [Function.update_apply] at held
        split at held
        · simp at held
        · exact held
      · exact held
    obtain ⟨below, own⟩ := sound.handled p' key' file before
    refine ⟨below, fun path named => ?_⟩
    simp only [AuditLog.reset, Function.update_apply] at named
    split at named
    · simp at named
    · exact own path named
  letters := sound.letters

theorem Sound.restart (sound : Sound d) (p : Nat) : Sound (restart d p) where
  named := sound.named
  single := sound.single
  handled p' key' file held := by
    simp only [AuditLog.restart, Function.update_apply] at held
    split at held
    · simp at held
    · exact sound.handled p' key' file held
  letters := sound.letters

theorem encode_not_space (update : Bytes) : ∀ c ∈ encodeChars update, Decoder.isSpace c = false := by
  have letters : ∀ m : Fin 64, Decoder.isSpace (charOf m) = false := by decide
  exact encodeChars_all (P := fun c => Decoder.isSpace c = false) rfl (fun n small => letters ⟨n, small⟩) update

theorem encode_plain (update : Bytes) : '\n' ∉ encodeChars update := by
  intro mem
  exact absurd (encode_not_space update _ mem) (by decide)

theorem lineFor_plain (update : Bytes) : ∀ c ∈ lineFor update, c = '\n' ∨ Decoder.isSpace c = false := by
  intro c mem
  rcases List.mem_append.mp mem with letter | last
  · exact Or.inr (encode_not_space update c letter)
  · exact Or.inl (List.mem_singleton.mp last)

theorem Sound.record (sound : Sound d) (p : Nat) (key : String) (update : Bytes) (fate : Fate) :
    Sound (record d p key update fate).1 := by
  cases fate with
  | refused e => exact sound
  | stored => exact sound.append (lineFor_plain update)
  | unsynced e => exact sound.append (lineFor_plain update)

theorem Sound.step (sound : Sound d) (e : Incident) : Sound (d.step e) := by
  cases e with
  | record p key update fate => exact sound.record p key update fate
  | torn p key update n =>
    refine (sound.append ?_).restart p
    exact fun c mem => lineFor_plain update c (List.mem_of_mem_take mem)
  | reset p key => exact sound.reset p key
  | restart p => exact sound.restart p

theorem run_append (before after : List Incident) :
    run (before ++ after) = after.foldl Disk.step (run before) := List.foldl_append ..

theorem Sound.steps (sound : Sound d) (events : List Incident) : Sound (events.foldl Disk.step d) := by
  induction events generalizing d with
  | nil => exact sound
  | cons e rest ih => exact ih (sound.step e)

theorem run_sound (events : List Incident) : Sound (run events) := empty_sound.steps events

theorem content_write (sound : Sound d) {file : Nat} (named : d.names (pathFor key) = some file)
    (key' : String) : (d.write file text).content key' =
      if pathFor key' = pathFor key then some ((d.content key).getD [] ++ text)
      else d.content key' := by
  split
  · rename_i same
    simp [Disk.content, Disk.write, same, named]
  · rename_i other
    cases there : d.names (pathFor key') with
    | none => simp [Disk.content, Disk.write, there]
    | some file' =>
      have apart : file' ≠ file := fun same => other (sound.single _ _ _ there (same ▸ named))
      simp [Disk.content, Disk.write, there, apart]

theorem content_openHandle (file : Nat) (key' : String) :
    (d.openHandle p key file).content key' = d.content key' := rfl

theorem content_create (sound : Sound d) (key key' : String) :
    (d.create (pathFor key)).content key' =
      if pathFor key' = pathFor key then some [] else d.content key' := by
  split
  · rename_i same
    simp [Disk.content, Disk.create, same]
  · rename_i other
    cases there : d.names (pathFor key') with
    | none => simp [Disk.content, Disk.create, other, there]
    | some file' =>
      have apart : file' ≠ d.count := (sound.named _ _ there).ne
      simp [Disk.content, Disk.create, other, there, apart]

/-- What is written through a handle of the file of its name is read behind what was there,
    under that name and no other. -/
theorem content_append (sound : Sound d) (lands : Lands d p key) (key' : String) :
    (d.append p key text).content key' =
      if pathFor key' = pathFor key then some ((d.content key).getD [] ++ text)
      else d.content key' := by
  cases held : d.handles p key with
  | some file =>
    have named : d.names (pathFor key) = some file := by
      rcases lands with none | same
      · simp [held] at none
      · exact same.symm.trans held
    rw [append_eq (handleFor_held held)]
    exact content_write sound named key'
  | none =>
    cases named : d.names (pathFor key) with
    | some file =>
      rw [append_eq (handleFor_named held named)]
      exact content_write (sound.opened named) named key'
    | none =>
      have there : (d.create (pathFor key)).names (pathFor key) = some d.count := by
        simp [Disk.create]
      have absent : d.content key = none := by simp [Disk.content, named]
      rw [append_eq (handleFor_new held named),
        content_write ((sound.created (pathFor key)).opened there) there, content_openHandle,
        content_openHandle, content_create sound, content_create sound, if_pos rfl, absent]
      split <;> rfl

/-- The same disk but for one file, which has no name any more. -/
structure Apart (file : Nat) (d d' : Disk) : Prop where
  names : d'.names = d.names
  handles : d'.handles = d.handles
  count : d'.count = d.count
  files : ∀ other, other ≠ file → d'.files other = d.files other
  below : file < d.count
  nameless : ∀ path, d.names path ≠ some file

theorem Apart.content {file : Nat} (apart : Apart file d d') (key : String) :
    d'.content key = d.content key := by
  rw [Disk.content, Disk.content, apart.names]
  cases named : d.names (pathFor key) with
  | none => rfl
  | some other =>
    have differs : other ≠ file := fun same => apart.nameless _ (same ▸ named)
    exact congrArg some (apart.files other differs)

theorem Apart.opened {file : Nat} (apart : Apart file d d') (p : Nat) (key : String) (other : Nat) :
    Apart file (d.openHandle p key other) (d'.openHandle p key other) := by
  refine ⟨apart.names, ?_, apart.count, apart.files, apart.below, apart.nameless⟩
  simp only [Disk.openHandle, apart.handles]

theorem Apart.created {file : Nat} (apart : Apart file d d') (path : String) :
    Apart file (d.create path) (d'.create path) where
  names := by simp only [Disk.create, apart.names, apart.count]
  handles := apart.handles
  count := congrArg (· + 1) apart.count
  files other differs := by
    simp only [Disk.create, apart.count, Function.update_apply]
    split
    · rfl
    · exact apart.files other differs
  below := Nat.lt_succ_of_lt apart.below
  nameless path' named := by
    simp only [Disk.create, Function.update_apply] at named
    split at named
    · obtain rfl := Option.some.inj named
      exact absurd apart.below (Nat.lt_irrefl _)
    · exact apart.nameless path' named

theorem Apart.written {file : Nat} (apart : Apart file d d') (other : Nat) (text : Text) :
    Apart file (d.write other text) (d'.write other text) := by
  refine ⟨apart.names, apart.handles, apart.count, ?_, apart.below, apart.nameless⟩
  intro third differs
  simp only [Disk.write, Function.update_apply]
  split
  · rename_i same
    subst same
    rw [apart.files _ differs]
  · exact apart.files third differs

theorem Apart.append {file : Nat} (apart : Apart file d d') (p : Nat) (key : String) (text : Text) :
    Apart file (d.append p key text) (d'.append p key text) := by
  have handles := congrFun (congrFun apart.handles p) key
  have names := congrFun apart.names (pathFor key)
  cases held : d.handles p key with
  | some other =>
    rw [append_eq (handleFor_held held), append_eq (handleFor_held (handles.trans held))]
    exact apart.written other text
  | none =>
    cases named : d.names (pathFor key) with
    | some other =>
      rw [append_eq (handleFor_named held named),
        append_eq (handleFor_named (handles.trans held) (names.trans named))]
      exact (apart.opened p key other).written other text
    | none =>
      rw [append_eq (handleFor_new held named),
        append_eq (handleFor_new (handles.trans held) (names.trans named)), apart.count]
      exact ((apart.created _).opened p key d.count).written d.count text

theorem Apart.restart {file : Nat} (apart : Apart file d d') (p : Nat) :
    Apart file (restart d p) (restart d' p) := by
  refine ⟨apart.names, ?_, apart.count, apart.files, apart.below, apart.nameless⟩
  simp only [AuditLog.restart, apart.handles]

theorem Apart.reset {file : Nat} (apart : Apart file d d') (p : Nat) (key : String) :
    Apart file (reset d p key) (reset d' p key) where
  names := by simp only [AuditLog.reset, apart.names]
  handles := by simp only [AuditLog.reset, apart.handles]
  count := apart.count
  files := apart.files
  below := apart.below
  nameless path named := by
    simp only [AuditLog.reset, Function.update_apply] at named
    split at named
    · simp at named
    · exact apart.nameless path named

theorem Apart.step {file : Nat} (apart : Apart file d d') (e : Incident) :
    Apart file (d.step e) (d'.step e) := by
  cases e with
  | record p key update fate =>
    cases fate with
    | refused e => exact apart
    | stored => exact apart.append p key _
    | unsynced e => exact apart.append p key _
  | torn p key update n => exact (apart.append p key _).restart p
  | reset p key => exact apart.reset p key
  | restart p => exact apart.restart p

theorem Apart.steps {file : Nat} (apart : Apart file d d') (events : List Incident) :
    Apart file (events.foldl Disk.step d) (events.foldl Disk.step d') := by
  induction events generalizing d d' with
  | nil => exact apart
  | cons e rest ih => exact ih (apart.step e)

theorem stale_append (sound : Sound d) (stale : ¬ Lands d p key) (text : Text) :
    ∃ file, Apart file d (d.append p key text) := by
  rw [Lands, not_or] at stale
  cases held : d.handles p key with
  | none => exact absurd held stale.1
  | some file =>
    obtain ⟨below, own⟩ := sound.handled p key file held
    refine ⟨file, ?_⟩
    rw [append_eq (handleFor_held held)]
    refine ⟨rfl, rfl, rfl, ?_, below, ?_⟩
    · intro other differs
      simp only [Disk.write, Function.update_of_ne differs]
    · intro path named
      obtain rfl := own path named
      exact stale.2 (held.trans named.symm)

theorem content_congr {key key' : String} (same : pathFor key' = pathFor key) :
    d.content key' = d.content key := by
  rw [Disk.content, same]
  rfl

theorem content_append_grows (sound : Sound d) {before : Text} (content : d.content key = some before)
    (p : Nat) (key' : String) (text : Text) :
    ∃ more, (d.append p key' text).content key = some (before ++ more) := by
  by_cases lands : Lands d p key'
  · rw [content_append sound lands]
    split
    · rename_i same
      rw [← content_congr same, content]
      exact ⟨text, rfl⟩
    · exact ⟨[], by simpa using content⟩
  · obtain ⟨file, apart⟩ := stale_append sound lands text
    exact ⟨[], by simpa using (apart.content key).trans content⟩

def Incident.Keeps (key : String) : Incident → Prop
  | .reset _ key' => pathFor key' ≠ pathFor key
  | _ => True

theorem content_step_grows (sound : Sound d) {before : Text} (content : d.content key = some before)
    {e : Incident} (keeps : e.Keeps key) : ∃ more, (d.step e).content key = some (before ++ more) := by
  have same : ∃ more, d.content key = some (before ++ more) := ⟨[], by simpa using content⟩
  cases e with
  | record p key' update fate =>
    cases fate with
    | refused e => exact same
    | stored => exact content_append_grows sound content p key' _
    | unsynced e => exact content_append_grows sound content p key' _
  | torn p key' update n => exact content_append_grows sound content p key' _
  | reset p key' =>
    have kept : (d.step (.reset p key')).content key = d.content key := by
      simp only [Disk.step, AuditLog.reset, Disk.content]
      rw [Function.update_of_ne (Ne.symm keeps)]
    rw [kept]
    exact same
  | restart p => exact same

theorem content_steps_grow (sound : Sound d) {before : Text} (content : d.content key = some before)
    (events : List Incident) (keep : ∀ e ∈ events, e.Keeps key) :
    ∃ more, (events.foldl Disk.step d).content key = some (before ++ more) := by
  induction events generalizing d before with
  | nil => exact ⟨[], by simpa using content⟩
  | cons e rest ih =>
    obtain ⟨more, next⟩ := content_step_grows sound content (keep e (List.mem_cons_self ..))
    obtain ⟨last, final⟩ := ih (sound.step e) next fun e mem => keep e (List.mem_cons_of_mem _ mem)
    exact ⟨more ++ last, by rw [List.foldl_cons, final, List.append_assoc]⟩

/- Every handle of the name is of the file it names now. -/
def Current (d : Disk) (key : String) : Prop :=
  ∀ p key', pathFor key' = pathFor key → Lands d p key'

theorem Current.append (current : Current d key) (p : Nat) (key' : String) (text : Text) :
    Current (d.append p key' text) key := by
  intro q other same
  have before := current q other same
  cases held : d.handles p key' with
  | some file =>
    rw [append_eq (handleFor_held held)]
    exact before
  | none =>
    cases named : d.names (pathFor key') with
    | some file =>
      rw [append_eq (handleFor_named held named)]
      by_cases own : q = p ∧ other = key'
      · obtain ⟨rfl, rfl⟩ := own
        right
        change (d.openHandle q other file).handles q other = d.names (pathFor other)
        rw [openHandle_handles, if_pos ⟨rfl, rfl⟩, named]
      · change (d.openHandle p key' file).handles q other = none ∨
          (d.openHandle p key' file).handles q other = d.names (pathFor other)
        rw [openHandle_handles, if_neg own]
        exact before
    | none =>
      rw [append_eq (handleFor_new held named)]
      change ((d.create (pathFor key')).openHandle p key' d.count).handles q other = none ∨
        ((d.create (pathFor key')).openHandle p key' d.count).handles q other =
          (d.create (pathFor key')).names (pathFor other)
      rw [openHandle_handles]
      by_cases own : q = p ∧ other = key'
      · obtain ⟨rfl, rfl⟩ := own
        right
        simp [Disk.create]
      · rw [if_neg own]
        by_cases path : pathFor other = pathFor key'
        · left
          rcases before with none | current
          · exact none
          · rw [path, named] at current
            exact current
        · simpa [Lands, Disk.create, path] using before

theorem Current.step (current : Current d key) {e : Incident} (keeps : e.Keeps key) :
    Current (d.step e) key := by
  cases e with
  | record p key' update fate =>
    cases fate with
    | refused e => exact current
    | stored => exact current.append p key' _
    | unsynced e => exact current.append p key' _
  | torn p key' update n =>
    intro q other same
    have before := current.append p key' ((lineFor update).take n) q other same
    by_cases own : q = p
    · exact Or.inl (by simp [Disk.step, AuditLog.restart, own])
    · simpa [Disk.step, AuditLog.restart, Lands, own] using before
  | reset p key' =>
    intro q other same
    have path : pathFor other ≠ pathFor key' := fun eq => keeps (eq.symm.trans same)
    have before := current q other same
    have key : other ≠ key' := fun eq => path (congrArg pathFor eq)
    by_cases own : q = p
    · subst own
      simpa [Disk.step, AuditLog.reset, Lands, path, key] using before
    · simpa [Disk.step, AuditLog.reset, Lands, path, own] using before
  | restart p =>
    intro q other same
    have before := current q other same
    by_cases own : q = p
    · exact Or.inl (by simp [Disk.step, AuditLog.restart, own])
    · simpa [Disk.step, AuditLog.restart, Lands, own] using before

theorem Current.steps (current : Current d key) (events : List Incident)
    (keep : ∀ e ∈ events, e.Keeps key) : Current (events.foldl Disk.step d) key := by
  induction events generalizing d with
  | nil => exact current
  | cons e rest ih =>
    exact ih (current.step (keep e (List.mem_cons_self ..)))
      fun e mem => keep e (List.mem_cons_of_mem _ mem)

theorem empty_current (key : String) : Current .empty key := fun _ _ _ => Or.inl rfl

end Yrby.AuditLog
