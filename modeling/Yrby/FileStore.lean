import Yrby.Durability
import Yrby.Recording
import Yrby.Storage

/- The channel on the audit log, in whatever processes its calls are served. -/
namespace Yrby.FileStore
open Causal Document Yrs Protocol Parsing Channel Effects History DurableLog AuditLog Durability Storage

variable {y : Yrs} {h : Trace} {d₀ : Disk} {key : String}

def diskAfter (d₀ : Disk) (events : List Incident) : Disk := events.foldl Disk.step d₀

/- The answer to a record; a process that dies takes the call with it, of which no more
   comes than of one that raised. -/
def answerOf : Incident → Except String Unit
  | .record _ _ _ .stored => .ok ()
  | .record _ _ _ (.refused e) => .error e
  | .record _ _ _ (.unsynced e) => .error e
  | _ => .error "the process died"

def linesUp : Incident → Bool
  | .record _ _ _ fate => written fate
  | _ => false

/-- A change is recorded, or the process dies in the middle of its line. -/
def Writes (key : String) (update : Bytes) (e : Incident) : Prop :=
  (∃ p fate, e = .record p key update fate) ∨ ∃ p n, e = .torn p key update n

/-- What is stored is what happened to the disk: some process records, others may have
    come up since. -/
def store (y : Yrs) (d₀ : Disk) : Store y (List Incident) where
  replay events := AuditLog.replay y (diskAfter d₀ events)
  record events key update events' reply there := ∃ (gone : List Nat) (e : Incident),
    Writes key update e ∧ events' = events ++ (gone.map Incident.restart ++ [e]) ∧
      reply = answerOf e ∧ there = linesUp e

def touched (h : Trace) : Set String := { key | ∃ e ∈ h, keyOf e = some key }

/-- Keys have names of their own, and nobody died in the middle of a line of theirs. -/
structure Fits (w : World (List Incident)) : Prop where
  apart : Set.InjOn pathFor (touched w.1)
  whole : ∀ key ∈ touched w.1, ∀ e ∈ w.2, Whole key e

def recordedAt (key : String) (e : Nat × Event) : Option Bytes :=
  match e.2 with
  | .recorded k update => if pathFor k = pathFor key then some update else none
  | _ => none

/-- The log of every name that nobody died over is what it was, and a line for each change
    recorded since. -/
structure Holds (d₀ : Disk) (w : World (List Incident)) : Prop where
  sound : Sound (diskAfter d₀ w.2)
  current : ∀ key, Current (diskAfter d₀ w.2) key
  lines : ∀ key, (∀ e ∈ w.2, Whole key e) → ((diskAfter d₀ w.2).content key).getD [] =
    (d₀.content key).getD [] ++ lineEncodings (w.1.filterMap (recordedAt key))

theorem touched_mono (h ext : Trace) : touched h ⊆ touched (h ++ ext) := by
  intro key mem
  obtain ⟨e, inside, what⟩ := mem
  exact ⟨e, List.mem_append_left _ inside, what⟩

/-- Step lemma: what happens to the disk is what is added to the history. -/
theorem Holds.step {w : World (List Incident)} (holds : Holds d₀ w) {e : Incident} {ext : Trace}
    (keep : ∀ key, e.Keeps key) (told : ∀ key, Whole key e →
      lineEncodings (ext.filterMap (recordedAt key)) = ((changeIn key e).map lineFor).getD []) :
    Holds d₀ (w.1 ++ ext, w.2 ++ [e]) := by
  have next : diskAfter d₀ (w.2 ++ [e]) = (diskAfter d₀ w.2).step e := by
    rw [diskAfter, List.foldl_append]
    rfl
  refine ⟨next ▸ holds.sound.step e, fun key => next ▸ (holds.current key).step (keep key), ?_⟩
  intro key whole
  have here : Whole key e := whole e (by simp)
  have before := holds.lines key fun e' mem => whole e' (List.mem_append_left _ mem)
  change ((diskAfter d₀ (w.2 ++ [e])).content key).getD [] = _
  rw [next, content_step holds.sound (holds.current key) (keep key) here, before, ← told key here,
    List.append_assoc, List.filterMap_append, lineEncodings, lineEncodings, lineEncodings,
    ← textOf_append, List.map_append]

theorem Holds.restarted {w : World (List Incident)} (holds : Holds d₀ w) (gone : List Nat) :
    Holds d₀ (w.1, w.2 ++ gone.map Incident.restart) := by
  induction gone generalizing w with
  | nil => simpa using holds
  | cons p gone ih =>
    have started : Holds d₀ (w.1 ++ [], w.2 ++ [.restart p]) :=
      holds.step (fun _ => trivial) fun _ _ => rfl
    simpa using ih started

theorem Holds.written {w : World (List Incident)} (holds : Holds d₀ w) {e : Incident} {update : Bytes}
    (writes : Writes key update e) (c : Nat) (reply : Except String Unit) :
    Holds d₀ (w.1 ++ (c, .did (.onChange key update) reply) ::
      (if linesUp e then [(c, .recorded key update)] else []), w.2 ++ [e]) := by
  rcases writes with ⟨p, fate, rfl⟩ | ⟨p, n, rfl⟩
  · apply holds.step (e := .record p key update fate) (fun _ => trivial)
    intro other _
    cases lines : Durability.written fate with
    | false => simp [linesUp, lines, changeIn, recordedAt, lineEncodings, textOf]
    | true =>
      by_cases same : pathFor key = pathFor other
      · simp [linesUp, lines, changeIn, same, recordedAt, lineEncodings, textOf, lineFor,
          List.filterMap_cons]
      · simp [linesUp, lines, changeIn, same, recordedAt, lineEncodings, textOf]
  · apply holds.step (e := .torn p key update n) (fun _ => trivial)
    intro other _
    rfl

theorem recordedAt_own (apart : Set.InjOn pathFor (touched h)) (own : key ∈ touched h) :
    ∀ ext, ext <+: h → ext.filterMap (recordedAt key) = ext.filterMap (recordedUnder key) := by
  intro ext sub
  apply List.filterMap_congr
  intro e mem
  obtain ⟨c, event⟩ := e
  cases event with
  | began call => rfl
  | did action reply => rfl
  | recorded k update =>
    have there : k ∈ touched h := ⟨_, sub.subset mem, rfl⟩
    have iff : pathFor k = pathFor key ↔ k = key :=
      ⟨fun same => apart there own same, fun same => congrArg pathFor same⟩
    simp only [recordedAt, recordedUnder, iff]

/- An empty change changes nothing, recorded or not. -/
theorem replay_full (blank : y.contentOf [] = none) (doc : y.Doc) (log : List Bytes) :
    (full log).foldl (fun doc update => (docApplyUpdate y doc update).1) doc =
      log.foldl (fun doc update => (docApplyUpdate y doc update).1) doc := by
  induction log generalizing doc with
  | nil => rfl
  | cons update rest ih =>
    cases update with
    | nil =>
      have same := unapplied (y := y) [[]] ((applied_eq_zero [[]]).mpr (by simp [blank])) doc
      rw [List.foldl_cons, List.foldl_nil] at same
      rw [List.foldl_cons, same]
      exact ih doc
    | cons b bytes => exact ih _

theorem load_serves (laws : y.Laws) (blank : y.contentOf [] = none) {w : World (List Incident)}
    (holds : Holds d₀ w) (whole : ∀ e ∈ w.2, Whole key e) (closed : Closed d₀ key) (own : ∀ ext, ext <+: w.1 →
      ext.filterMap (recordedAt key) = ext.filterMap (recordedUnder key)) :
    ∃ doc, docOfState y (AuditLog.replay y (diskAfter d₀ w.2) key) = .ok doc ∧
      y.view doc = durable y (AuditLog.reads d₀) w.1 key := by
  obtain ⟨doc, ok, view⟩ := replay_loads laws (diskAfter d₀ w.2) key
  refine ⟨doc, ok, view.trans ?_⟩
  have read : AuditLog.reads (diskAfter d₀ w.2) key =
      AuditLog.reads d₀ key ++ full (w.1.filterMap (recordedUnder key)) := by
    rw [reads_eq, reads_eq, holds.lines key whole, own _ List.prefix_rfl]
    exact readText_lines closed _
  rw [read, durable, logOf, History.replay, History.replay, List.foldl_append, List.foldl_append,
    replay_full blank]

theorem keeps (laws : y.Laws) (blank : y.contentOf [] = none) (closed : ∀ key, Closed d₀ key) :
    Keeps (store y d₀) (AuditLog.reads d₀) (Holds d₀) Fits where
  replayed h events c key state holds fits := by
    have there : key ∈ touched (h ++ [(c, .did (.onLoad key) state)]) :=
      ⟨_, List.mem_append_right _ (List.mem_singleton_self _), rfl⟩
    have own := recordedAt_own fits.apart there
    exact load_serves laws blank holds (fits.whole key there) (closed key)
      fun ext sub => own ext (sub.trans (List.prefix_append _ _))
  quiet h events e holds none := by
    refine ⟨holds.sound, holds.current, fun key whole => ?_⟩
    have nothing : recordedAt key e = .none := by
      obtain ⟨c, event⟩ := e
      cases event with
      | recorded k update => simpa [recordedUnder] using none k
      | _ => rfl
    have before := holds.lines key whole
    change _ = _ ++ lineEncodings ((h ++ [e]).filterMap _)
    rw [before, List.filterMap_append, List.filterMap_cons_none nothing, List.filterMap_nil,
      List.append_nil]
  recorded h events c key update events' reply there holds recorded := by
    obtain ⟨gone, e, writes, rfl, rfl, rfl⟩ := recorded
    rw [← List.append_assoc]
    exact (holds.restarted gone).written writes c _
  answered events key update events' there recorded := by
    obtain ⟨gone, e, writes, _, answer, rfl⟩ := recorded
    rcases writes with ⟨p, fate, rfl⟩ | ⟨p, n, rfl⟩
    · cases fate with
      | stored => rfl
      | _ => simp [answerOf] at answer
    · simp [answerOf] at answer
  before h events ext fits := ⟨fits.apart.mono (touched_mono h ext), fun key own =>
    fits.whole key (touched_mono h ext own)⟩
  unrecorded h events key update events' reply there recorded fits := by
    obtain ⟨gone, e, _, rfl, _⟩ := recorded
    exact ⟨fits.apart, fun key own e mem => fits.whole key own e (List.mem_append_left _ mem)⟩

theorem recorded_full (blank : y.contentOf [] = none) {stored : String → List Bytes}
    (order : InOrder y stored h) : full (h.filterMap (recordedUnder key)) =
      h.filterMap (recordedUnder key) := by
  apply List.filter_eq_self.mpr
  intro update mem
  obtain ⟨⟨c, event⟩, there, under⟩ := List.mem_filterMap.mp mem
  cases event with
  | began call => simp [recordedUnder] at under
  | did action reply => simp [recordedUnder] at under
  | recorded k u =>
    obtain ⟨rfl, rfl⟩ : k = key ∧ u = update := by simpa [recordedUnder] using under
    obtain ⟨before, after, split⟩ := List.append_of_mem there
    obtain ⟨content, carried, _⟩ := order.ready before c k u after split
    cases u with
    | nil => simp [blank] at carried
    | cons b bytes => rfl

/-- Every run of channel calls on the audit log, over any number of processes that die and
    start anew at any moment, is a run of them on the durable log of each key: whatever is
    proved of the one is proved of the other. And whoever replays the file of a key at any
    moment finds exactly that log. Only, the files start with whole lines, the keys have
    names of their own, and nobody dies in the middle of a line of theirs. -/
theorem file_store_serves (laws : y.Laws) (blank : y.contentOf [] = none) (sound : Sound d₀)
    (ready : ∀ key, Current d₀ key ∧ Closed d₀ key)
    {server : Pool Action Reply String Unit Nat (World (List Incident))}
    (run : Run (host (store y d₀)) (Pool.initial ([], [])) server) (fits : Fits server.world) :
    History.Reached y (AuditLog.reads d₀) ⟨server.world.1, server.tasks⟩ ∧
    ∀ key ∈ touched server.world.1,
      AuditLog.reads (diskAfter d₀ server.world.2) key =
        logOf (AuditLog.reads d₀) server.world.1 key ∧
      entries (diskAfter d₀ server.world.2) key =
        entries d₀ key ++ (server.world.1.filterMap (recordedUnder key)).map Base64.encodeChars := by
  have start : Holds d₀ (([], []) : World (List Incident)) :=
    ⟨sound, fun key => (ready key).1, fun key _ => (List.append_nil _).symm⟩
  obtain ⟨holds, reached⟩ := (keeps laws blank fun key => (ready key).2).run start run fits
  refine ⟨reached, fun key own => ?_⟩
  have recorded := @recorded_full y _ key blank _ (reached_inOrder laws reached)
  have same := recordedAt_own fits.apart own _ List.prefix_rfl
  have lines := holds.lines key (fits.whole key own)
  constructor
  · rw [reads_eq, lines, same, readText_lines (ready key).2, recorded, ← reads_eq]
    rfl
  · rw [entries_lines (ready key).2 (same ▸ lines), recorded, ← entries_eq]

def obliging (events : List Incident) (key : String) (update : Bytes) : List Incident :=
  events ++ [.record 0 key update .stored]

def typed : World (List Incident) :=
  handled (store Reference.crate .empty) obliging (Recording.typing 1 0 1 none) []

theorem typed_run : ∃ tasks, Run (host (store Reference.crate .empty)) (Pool.initial ([], []))
    ⟨typed, tasks⟩ :=
  @run_handled _ _ (store Reference.crate .empty) obliging
    (fun _ _ _ => ⟨[], _, .inl ⟨0, .stored, rfl⟩, rfl, rfl, rfl⟩) (Recording.typing 1 0 1 none) []

theorem typed_keys : ∀ e ∈ typed.1, keyOf e = none ∨ keyOf e = some "doc" := by decide +kernel

theorem typed_apart (h : Trace) (all : ∀ e ∈ h, keyOf e = none ∨ keyOf e = some "doc") :
    Set.InjOn pathFor (touched h) := by
  intro key mem key' mem' _
  obtain ⟨e, inside, is⟩ := mem
  obtain ⟨e', inside', is'⟩ := mem'
  have one := all e inside
  have two := all e' inside'
  simp_all

theorem typed_fits (h : Trace) (all : ∀ e ∈ h, keyOf e = none ∨ keyOf e = some "doc") :
    Fits ((h, typed.2) : World (List Incident)) where
  apart := typed_apart h all
  whole key own e mem := by
    obtain ⟨update, is⟩ : ∃ update, typed.2 = [.record 0 "doc" update .stored] := ⟨_, rfl⟩
    change e ∈ typed.2 at mem
    rw [is, List.mem_singleton] at mem
    rw [mem]
    trivial

theorem typed_on_file : (AuditLog.reads (diskAfter .empty typed.2) "doc").length = 1 ∧
    AuditLog.reads (diskAfter .empty typed.2) "doc" = logOf (AuditLog.reads .empty) typed.1 "doc" := by
  obtain ⟨tasks, run⟩ := typed_run
  have own : "doc" ∈ touched typed.1 :=
    (by decide +kernel : ∃ e ∈ typed.1, keyOf e = some "doc")
  refine ⟨by decide +kernel, ?_⟩
  exact ((file_store_serves Reference.crate_laws rfl empty_sound
    (fun key => ⟨empty_current key, rfl⟩) run (typed_fits _ typed_keys)).2 "doc" own).1

end Yrby.FileStore
