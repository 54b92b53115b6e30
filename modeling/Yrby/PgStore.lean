import Yrby.Compaction
import Yrby.Storage
import Mathlib.Algebra.Order.BigOperators.Group.List
import Mathlib.Data.List.Sort

/- The table of the demo (pg_store.rb): a row for each change, with an id that is drawn
   before the row is committed. -/
namespace Yrby.PgStore
open Causal Document Yrs Protocol Readiness Channel Effects History DurableLog Recording Compaction
open Storage
open Convergence (Knows)

variable {y : Yrs} {h : Trace} {key : String}

structure Row where
  id : Nat
  docKey : String
  delta : Bytes

/-- document_changes, in the order its rows were committed. -/
abbrev Table := List Row

def rowsOf (table : Table) (key : String) : List Row := table.filter fun row => row.docKey = key

def committed (table : Table) (key : String) : List Bytes := (rowsOf table key).map Row.delta

/- where(doc_key: key).order(:id).pluck(:delta) -/
def deltas (table : Table) (key : String) : List Bytes :=
  ((rowsOf table key).insertionSort fun row row' => row.id ≤ row'.id).map Row.delta

/-- How an insert ends; the row may be there though it raised. -/
inductive Fate where
  | stored
  | refused (e : String)
  | unanswered (e : String)

def commits : Fate → Bool
  | .refused _ => false
  | _ => true

def record (table : Table) (id : Nat) (key : String) (update : Bytes) :
    Fate → Table × Except String Unit
  | .stored => (table ++ [⟨id, key, update⟩], .ok ())
  | .refused e => (table, .error e)
  | .unanswered e => (table ++ [⟨id, key, update⟩], .error e)

/- A corrupt row is skipped. -/
def replay (y : Yrs) (table : Table) (key : String) : Option Bytes :=
  let updates := deltas table key
  if updates.isEmpty then none
  else
    let doc := updates.foldl (fun doc update => (docApplyUpdate y doc update).1) y.newDoc
    some (y.encodeStateAsUpdateV1 doc .default)

def entries (table : Table) (key : String) : List String :=
  (deltas table key).map Base64.strictEncode64

theorem replay_eq (table : Table) (key : String) : replay y table key = loadState y (deltas table key) :=
  rfl

theorem deltas_perm (table : Table) (key : String) : (deltas table key).Perm (committed table key) :=
  (List.perm_insertionSort _ _).map _

theorem told_perm {log log' : List Bytes} (perm : log.Perm log') : told y log = told y log' := by
  have members : ∀ content, content ∈ log.filterMap y.contentOf ↔ content ∈ log'.filterMap y.contentOf :=
    fun content => (perm.filterMap y.contentOf).mem_iff
  rw [told, told, Content.join, Content.join]
  simp only [members]

/-- Logs of the same entries replay alike, parked content included, and to the same
    document where an id names one block. -/
theorem replay_perm (laws : y.Laws) {log log' : List Bytes} (perm : log.Perm log') :
    Integrates.Alike (y.view (History.replay y log)) (y.view (History.replay y log')) ∧
    (Set.InjOn Block.id (told y log).blocks →
      y.view (History.replay y log) = y.view (History.replay y log')) := by
  have one := (actAs_log laws log).knows laws
  have two := (actAs_log laws log').knows laws
  rw [← told_perm perm] at two
  refine ⟨one.alike two, fun agree => ?_⟩
  apply Integrates.same one two
  simpa [DocState.empty] using agree

/- The channel on the table -/

/-- Another insert may have drawn a lower id and not be committed yet. -/
def store (y : Yrs) : Store y Table where
  replay := replay y
  record table key update table' reply there := ∃ id fate, (∀ row ∈ table, row.id ≠ id) ∧
    record table id key update fate = (table', reply) ∧ there = commits fate

def Named (y : Yrs) (t₀ : Table) (h : Trace) : Prop :=
  ∀ key, Set.InjOn Block.id (told y (logOf (committed t₀) h key)).blocks

variable {t₀ : Table}

def Holds (t₀ : Table) (w : World Table) : Prop :=
  ∀ key, committed w.2 key = logOf (committed t₀) w.1 key

theorem recorded_holds {w : World Table} (holds : Holds t₀ w) (c id : Nat) (key : String)
    (update : Bytes) (fate : Fate) (reply : Except String Unit) :
    Holds t₀ (w.1 ++ (c, .did (.onChange key update) reply) ::
      (if commits fate then [(c, .recorded key update)] else []),
        (record w.2 id key update fate).1) := by
  intro other
  have before := holds other
  have row : committed (w.2 ++ [⟨id, key, update⟩]) other =
      committed w.2 other ++ if key = other then [update] else [] := by
    rw [committed, rowsOf, List.filter_append, List.map_append]
    by_cases same : key = other <;> simp [same, committed, rowsOf]
  rw [logOf_append, ← before]
  cases fate with
  | refused e => exact (List.append_nil _).symm
  | _ =>
    refine row.trans (congrArg _ ?_)
    by_cases same : key = other <;>
      simp [same, recordedUnder, commits, List.filterMap_cons]

theorem Named.before {h ext : Trace} (named : Named y t₀ (h ++ ext)) : Named y t₀ h := by
  intro key
  have later := named key
  rw [logOf_append, told_append] at later
  exact later.mono Set.subset_union_left

theorem load_serves (laws : y.Laws) {w : World Table} (holds : Holds t₀ w) (named : Named y t₀ w.1)
    (key : String) : ∃ doc, docOfState y (replay y w.2 key) = .ok doc ∧
      y.view doc = durable y (committed t₀) w.1 key := by
  obtain ⟨doc, ok, view⟩ := loadState_view laws (deltas w.2 key)
  have perm := deltas_perm w.2 key
  rw [holds key] at perm
  refine ⟨doc, ok, view.trans ((replay_perm laws perm).2 ?_)⟩
  rw [told_perm perm]
  exact named key

theorem keeps (laws : y.Laws) : Keeps (store y) (committed t₀) (Holds t₀) fun w => Named y t₀ w.1 where
  replayed h table c key state holds named := load_serves laws holds named.before key
  quiet h table e holds none := by
    intro key
    change _ = logOf _ (h ++ [e]) key
    rw [logOf_append, List.filterMap_cons_none (none key), List.filterMap_nil, List.append_nil]
    exact holds key
  recorded h table c key update table' reply there holds recorded := by
    obtain ⟨id, fate, _, recorded, rfl⟩ := recorded
    obtain rfl : (record table id key update fate).1 = table' := congrArg Prod.fst recorded
    exact recorded_holds holds c id key update fate reply
  answered table key update table' there recorded := by
    obtain ⟨id, fate, _, recorded, rfl⟩ := recorded
    cases fate with
    | stored => rfl
    | _ => simp [record] at recorded
  before h table ext named := named.before
  unrecorded h table key update table' reply there recorded named := named

/-- Every run of channel calls on the table, whatever ids the rows drew before they were
    committed, is a run of them on the durable log of each key, as long as an id names one
    block in it. The rows of a key, and what is shown of them, are the entries of its log, in
    an order that only the ids tell; replayed in that order they leave nothing pending if the
    log started so. -/
theorem table_store_serves (laws : y.Laws) {server : Pool Action Reply String Unit Nat (World Table)}
    (run : Run (host (store y)) (Pool.initial ([], t₀)) server) (named : Named y t₀ server.world.1) :
    History.Reached y (committed t₀) ⟨server.world.1, server.tasks⟩ ∧
    ∀ key, (deltas server.world.2 key).Perm (logOf (committed t₀) server.world.1 key) ∧
      (entries server.world.2 key).Perm
        ((logOf (committed t₀) server.world.1 key).map Base64.strictEncode64) ∧
      (hasPending y (History.replay y (committed t₀ key)) = false →
        hasPending y (History.replay y (deltas server.world.2 key)) = false) := by
  have start : Holds t₀ (([], t₀) : World Table) := fun key => (List.append_nil _).symm
  obtain ⟨holds, reached⟩ := (keeps laws).run start run named
  refine ⟨reached, fun key => ?_⟩
  have perm := deltas_perm server.world.2 key
  rw [holds key] at perm
  refine ⟨perm, perm.map _, fun clean => ?_⟩
  have whole := prefix_clean laws clean reached (List.prefix_append _ _) List.prefix_rfl
  rw [hasPending_eq_false_iff laws.toRules] at whole ⊢
  have alike := (replay_perm laws perm).1
  exact ⟨alike.parked.trans whole.1, alike.parkedDeletes.trans whole.2⟩

def early (table : Table) : Nat :=
  if ∀ row ∈ table, row.id ≠ 3 then 3 else (table.map Row.id).sum + 1

theorem early_fresh (table : Table) : ∀ row ∈ table, row.id ≠ early table := by
  unfold early
  split
  · rename_i free
    exact free
  · intro row mem
    have below := List.single_le_sum (fun _ _ => Nat.zero_le _) _ (List.mem_map_of_mem (f := Row.id) mem)
    omega

/-- The row with the character that the other one hangs on has the higher id. -/
def lateRow : Table := [⟨5, "doc", Reference.encodeDelta Compaction.first⟩]

def answered : World Table :=
  handled (store Reference.crate)
    (fun table key update => (record table (early table) key update .stored).1)
    (Recording.typing 2 0 1 (some ⟨1, 0⟩)) lateRow

theorem answered_in_order :
    (deltas answered.2 "doc") = [Reference.encodeDelta second, Reference.encodeDelta first] ∧
    hasPending Reference.crate (History.replay Reference.crate (deltas answered.2 "doc")) = false := by
  obtain ⟨tasks, run⟩ := @run_handled _ _ (store Reference.crate)
    (fun table key update => (record table (early table) key update .stored).1)
    (fun table key update => ⟨early table, .stored, early_fresh table, rfl, rfl⟩)
    (Recording.typing 2 0 1 (some ⟨1, 0⟩)) lateRow
  change Run _ _ ⟨answered, tasks⟩ at run
  have all : ∀ e ∈ answered.1, keyOf e = none ∨ keyOf e = some "doc" := by decide +kernel
  have logged : logOf (committed lateRow) answered.1 "doc" =
      [Reference.encodeDelta first, Reference.encodeDelta second] := by decide +kernel
  have named : Named Reference.crate lateRow answered.1 := by
    intro key
    by_cases own : key = "doc"
    · rw [own, logged]
      exact characters_named
    · have stored : committed lateRow key = [] := by simp [committed, rowsOf, lateRow, Ne.symm own]
      have recorded : answered.1.filterMap (recordedUnder key) = [] := by
        rw [List.filterMap_eq_nil_iff]
        intro e mem
        obtain ⟨c, event⟩ := e
        have there := all _ mem
        cases event with
        | recorded k update =>
          have doc : k = "doc" := by simpa [keyOf] using there
          simp [recordedUnder, doc, Ne.symm own]
        | _ => rfl
      rw [logOf, stored, recorded]
      intro b mem
      simp [told, Content.join] at mem
  exact ⟨by decide +kernel, ((table_store_serves Reference.crate_laws run named).2 "doc").2.2
    (by decide +kernel)⟩

end Yrby.PgStore
