import Yrby.Convergence
import Yrby.Recording
import Mathlib.Data.List.Induction

/- A log kept short: its first entries replaced by the encoded state of their replay
   (encode_state_as_update, compacted_state_update), as a loader may return it. -/
namespace Yrby.Compaction
open Causal Document Wire Yrs Protocol Serving Readiness Channel History Recording Convergence

variable {y : Yrs}

section
variable (y)

def told (log : List Bytes) : Content := Content.join (log.filterMap y.contentOf)

def applyAll (doc : y.Doc) (log : List Bytes) : y.Doc :=
  log.foldl (fun doc update => (docApplyUpdate y doc update).1) doc

/-- What becomes of a log: an update is appended; the first n rows are replaced by their
    whole state, or by their integrated state. -/
inductive Upkeep where
  | append (update : Bytes)
  | snapshot (n : Nat)
  | compact (n : Nat)

/-- The updates recorded, and the rows kept of them. -/
structure Kept where
  recorded : List Bytes
  rows : List Bytes

def Kept.replace (kept : Kept) (n : Nat) : Except String Bytes → Kept
  | .ok state => { kept with rows := state :: kept.rows.drop n }
  | .error _ => kept

def Kept.step (kept : Kept) : Upkeep → Kept
  | .append update => ⟨kept.recorded ++ [update], kept.rows ++ [update]⟩
  | .snapshot n => kept.replace n (encodeStateAsUpdate y (replay y (kept.rows.take n)) none)
  | .compact n => kept.replace n (compactedStateUpdate y (replay y (kept.rows.take n)))

def keep (ops : List Upkeep) : Kept := ops.foldl (Kept.step y) ⟨[], []⟩

/-- On every document, the rows do what this content does. -/
def ActAs (rows : List Bytes) (content : Content) : Prop :=
  ∀ doc, Integrates (y.view doc) content (y.view (applyAll y doc rows))

end

theorem replay_eq (log : List Bytes) : replay y log = applyAll y y.newDoc log := rfl

theorem applyAll_append (doc : y.Doc) (log more : List Bytes) :
    applyAll y doc (log ++ more) = applyAll y (applyAll y doc log) more := by
  rw [applyAll, List.foldl_append]
  rfl

theorem told_append (log more : List Bytes) :
    told y (log ++ more) = (told y log).union (told y more) := by
  rw [told, List.filterMap_append, join_append]
  rfl

theorem ActAs.append {rows more : List Bytes} {content content' : Content}
    (first : ActAs y rows content) (rest : ActAs y more content') :
    ActAs y (rows ++ more) (content.union content') := by
  intro doc
  rw [applyAll_append]
  exact (first doc).trans (rest _)

theorem actAs_nil : ActAs y [] (told y []) := by
  intro doc
  have nothing : told y [] = ⟨∅, ∅⟩ := by simp [told, Content.join]
  rw [nothing]
  exact Integrates.refl (y.view doc)

theorem actAs_update (laws : y.Laws) (update : Bytes) : ActAs y [update] (told y [update]) := by
  intro doc
  change Integrates _ _ (y.view (docApplyUpdate y doc update).1)
  cases decoded : y.decodeV1 update with
  | error e =>
    have nothing : told y [update] = ⟨∅, ∅⟩ := by
      simp [told, contentOf, decoded, Content.join]
    rw [nothing, docApplyUpdate, decoded]
    exact Integrates.refl (y.view doc)
  | ok u =>
    have all : told y [update] = y.content u := by
      rw [told, List.filterMap_cons_some (contentOf_ok decoded), List.filterMap_nil, join_singleton]
    rw [all, docApplyUpdate, decoded]
    exact laws.integrates doc u

/-- What a log replays to knows what its rows act as. -/
theorem ActAs.knows (laws : y.Laws) {rows : List Bytes} {content : Content}
    (acts : ActAs y rows content) : Knows (y.view (replay y rows)) content := by
  have step := acts y.newDoc
  rwa [laws.view_newDoc] at step

theorem actAs_state (laws : y.Laws) {doc : y.Doc} {known : Content} {state : Bytes} {u : y.Update}
    (knows : Knows (y.view doc) known) (decoded : y.decodeV1 state = .ok u)
    (content : y.content u = whole (y.view doc)) : ActAs y [state] known := by
  intro other
  have step := laws.integrates other u
  rw [content] at step
  have same : applyAll y other [state] = (y.applyUpdate other u).1 := by
    change (docApplyUpdate y other state).1 = _
    rw [docApplyUpdate, decoded]
  rw [same]
  exact knows.handOn step

/-- Each row stands for a stretch of the updates recorded. -/
def Stands (y : Yrs) (kept : Kept) : Prop :=
  ∃ chunks : List (List Bytes), kept.recorded = chunks.flatten ∧
    List.Forall₂ (fun row chunk => ActAs y [row] (told y chunk)) kept.rows chunks

theorem stands_acts {rows : List Bytes} {chunks : List (List Bytes)}
    (stands : List.Forall₂ (fun row chunk => ActAs y [row] (told y chunk)) rows chunks) :
    ActAs y rows (told y chunks.flatten) := by
  induction stands with
  | nil => exact actAs_nil
  | cons acts _ ih =>
    rw [List.flatten_cons, told_append]
    exact acts.append ih

theorem Stands.replaced (laws : y.Laws) {kept : Kept} {chunks : List (List Bytes)}
    (recorded : kept.recorded = chunks.flatten)
    (stands : List.Forall₂ (fun row chunk => ActAs y [row] (told y chunk)) kept.rows chunks)
    (n : Nat) {state : Bytes} {u : y.Update} (decoded : y.decodeV1 state = .ok u)
    (content : y.content u = whole (y.view (replay y (kept.rows.take n)))) :
    Stands y (kept.replace n (.ok state)) := by
  refine ⟨(chunks.take n).flatten :: chunks.drop n, ?_, ?_⟩
  · rw [List.flatten_cons, ← List.flatten_append, List.take_append_drop]
    exact recorded
  · have first := stands_acts (List.forall₂_take n stands)
    exact .cons (actAs_state laws (first.knows laws) decoded content) (List.forall₂_drop n stands)

theorem actAs_log (laws : y.Laws) (log : List Bytes) : ActAs y log (told y log) := by
  induction log with
  | nil => exact actAs_nil
  | cons update rest ih =>
    have parts : told y (update :: rest) = (told y [update]).union (told y rest) :=
      told_append [update] rest
    rw [parts]
    exact (actAs_update laws update).append ih

/-- Step lemma: what the rows stand for survives, as long as nothing recorded parks. -/
theorem Stands.step (laws : y.Laws) {kept : Kept} (stands : Stands y kept) (op : Upkeep)
    (clean : ∀ p, p <+: kept.recorded → (y.view (replay y p)).NothingParked) :
    Stands y (kept.step y op) := by
  obtain ⟨chunks, recorded, rows⟩ := stands
  cases op with
  | append update =>
    refine ⟨chunks ++ [[update]], ?_, ?_⟩
    · simp [Kept.step, recorded]
    · exact List.rel_append rows (.cons (actAs_update laws update) .nil)
  | snapshot n =>
    obtain ⟨u, decoded, content⟩ := laws.encode_decodes (replay y (kept.rows.take n)) .default
    exact Stands.replaced laws recorded rows n decoded content
  | compact n =>
    obtain ⟨state, u, ok, decoded, content⟩ :=
      integratedUpdate_spec laws.toRules (replay y (kept.rows.take n)) .default
    have first := (stands_acts (List.forall₂_take n rows)).knows laws
    have plain := (actAs_log laws (chunks.take n).flatten).knows laws
    have alike := first.alike plain
    have early : (chunks.take n).flatten <+: kept.recorded := by
      rw [recorded]
      exact ⟨(chunks.drop n).flatten, by rw [← List.flatten_append, List.take_append_drop]⟩
    have unparked : (y.view (replay y (kept.rows.take n))).NothingParked := by
      have none := clean _ early
      exact ⟨alike.parked.trans none.1, alike.parkedDeletes.trans none.2⟩
    rw [pruned_eq_self unparked] at content
    rw [Kept.step, compactedStateUpdate, ok]
    exact Stands.replaced laws recorded rows n decoded content

theorem step_recorded (kept : Kept) (op : Upkeep) : kept.recorded <+: (kept.step y op).recorded := by
  have replaced : ∀ n state, (kept.replace n state).recorded = kept.recorded := by
    intro n state
    cases state <;> rfl
  cases op with
  | append update => exact List.prefix_append _ _
  | snapshot n => exact (replaced n _).symm ▸ List.prefix_rfl
  | compact n => exact (replaced n _).symm ▸ List.prefix_rfl

/-- Run lemma, by induction on the operations from the last one back. -/
theorem keep_stands (laws : y.Laws) (ops : List Upkeep)
    (clean : ∀ p, p <+: (keep y ops).recorded → (y.view (replay y p)).NothingParked) :
    Stands y (keep y ops) := by
  induction ops using List.reverseRecOn with
  | nil => exact ⟨[], rfl, .nil⟩
  | append_singleton ops op ih =>
    have last : keep y (ops ++ [op]) = (keep y ops).step y op := by
      rw [keep, List.foldl_append]
      rfl
    rw [last] at clean ⊢
    have before := fun p (sub : p <+: (keep y ops).recorded) =>
      clean p (sub.trans (step_recorded _ op))
    exact (ih before).step laws op before

variable {stored : String → List Bytes}

/-- Rewriting the log at any moments, any number of times, changes nothing a channel could
    tell: what is kept of the log of a key replays to what the log does, parks nothing and
    gives every later update the same verdicts; a loader may return it. -/
theorem compaction_unnoticed (laws : y.Laws) {key : String}
    (start : ∀ p, p <+: stored key → hasPending y (replay y p) = false) {server : Server}
    (reached : Reached y stored server) (ops : List Upkeep)
    (logged : (keep y ops).recorded = logOf stored server.world key) :
    Integrates.Alike (y.view (replay y (keep y ops).rows)) (durable y stored server.world key) ∧
    hasPending y (replay y (keep y ops).rows) = false ∧
    (∀ update, updateIsReady y (replay y (keep y ops).rows) update =
        updateIsReady y (replay y (logOf stored server.world key)) update ∧
      updateAdvancesDoc y (replay y (keep y ops).rows) update =
        updateAdvancesDoc y (replay y (logOf stored server.world key)) update) ∧
    (Set.InjOn Block.id (told y (logOf stored server.world key)).blocks →
      ∃ doc, docOfState y (loadState y (keep y ops).rows) = .ok doc ∧
        y.view doc = durable y stored server.world key) := by
  have stored_clean : (y.view (replay y (stored key))).NothingParked :=
    (hasPending_eq_false_iff laws.toRules _).mp (start _ List.prefix_rfl)
  have clean : ∀ p, p <+: logOf stored server.world key → (y.view (replay y p)).NothingParked := by
    intro p sub
    rcases List.prefix_or_prefix_of_prefix sub (List.prefix_append _ _) with inside | beyond
    · exact (hasPending_eq_false_iff laws.toRules _).mp (start p inside)
    · obtain ⟨p, rfl⟩ := beyond
      rw [logOf, List.prefix_append_right_inj] at sub
      exact replay_clean laws stored_clean (fun _ _ _ => entry_ready laws reached) p sub
  obtain ⟨chunks, recorded, rows⟩ := keep_stands laws ops (logged ▸ clean)
  have kept := (stands_acts rows).knows laws
  rw [← recorded, logged] at kept
  have plain := (actAs_log laws (logOf stored server.world key)).knows laws
  have alike := kept.alike plain
  have whole := clean _ List.prefix_rfl
  refine ⟨alike, ?_, fun update => ⟨ready_alike laws alike update, advances_alike laws alike update⟩, ?_⟩
  · rw [hasPending_eq_false_iff laws.toRules]
    exact ⟨alike.parked.trans whole.1, alike.parkedDeletes.trans whole.2⟩
  · intro agree
    obtain ⟨doc, ok, view⟩ := loadState_view laws (keep y ops).rows
    refine ⟨doc, ok, view.trans ?_⟩
    apply Integrates.same kept plain
    simpa [DocState.empty] using agree

/- The two characters of the conversation, their rows made one, and that one encoded anew. -/
def first : Reference.Delta := ⟨[Reference.typed 1 0 none], []⟩

def second : Reference.Delta := ⟨[Reference.typed 2 0 (some ⟨1, 0⟩)], []⟩

theorem characters_named : Set.InjOn Block.id
    (told Reference.crate [Reference.encodeDelta first, Reference.encodeDelta second]).blocks := by
  have all : told Reference.crate [Reference.encodeDelta first, Reference.encodeDelta second] =
      first.content.union second.content := by
    simp [told, Reference.contentOf_encodeDelta, Content.join, Content.union, Set.union_def]
  rw [all]
  intro b mem b' mem' same
  simp only [Content.union, Reference.Delta.content, first, second, Set.mem_union, mem_asSet,
    List.mem_singleton] at mem mem'
  rcases mem with rfl | rfl <;> rcases mem' with rfl | rfl <;> simp_all [Reference.typed]

def upkept : List Upkeep :=
  [.append (Reference.encodeDelta first), .append (Reference.encodeDelta second), .compact 2,
    .snapshot 1]

theorem conversed_upkept : (keep Reference.crate upkept).rows.length = 1 ∧
    hasPending Reference.crate (replay Reference.crate (keep Reference.crate upkept).rows) = false ∧
    ∃ doc, docOfState Reference.crate (loadState Reference.crate (keep Reference.crate upkept).rows) =
        .ok doc ∧
      Reference.crate.view doc = durable Reference.crate (fun _ => []) conversed "doc" := by
  obtain ⟨tasks, reached⟩ := conversed_reached
  have logged : logOf (fun _ => []) conversed "doc" =
      [Reference.encodeDelta first, Reference.encodeDelta second] := by decide +kernel
  have recorded : (keep Reference.crate upkept).recorded = logOf (fun _ => []) conversed "doc" := by
    decide +kernel
  have start : ∀ p : List Bytes, p <+: [] → hasPending Reference.crate (replay Reference.crate p) =
      false := by
    intro p sub
    obtain rfl := List.prefix_nil.mp sub
    rfl
  have unnoticed := @compaction_unnoticed _ _ Reference.crate_laws "doc" start _ reached upkept recorded
  refine ⟨by decide +kernel, unnoticed.2.1, unnoticed.2.2.2 ?_⟩
  change Set.InjOn Block.id (told _ (logOf (fun _ => []) conversed "doc")).blocks
  rw [logged]
  exact characters_named

end Yrby.Compaction
