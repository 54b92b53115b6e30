import Yrby.Readiness

/- That documents converge (protocol.rs, lib.rs): what one comes to is a function of
   what reached it, whatever the order, however often, and by whichever method. -/
namespace Yrby.Convergence
open Causal Document Wire Yrs Protocol Serving Readiness

abbrev whole (d : DocState) : Content := diff d .default

/-- What an empty document comes to that is told this. -/
def Knows (d : DocState) (known : Content) : Prop := Integrates .empty known d

variable {d e after : DocState} {known known' : Content}

theorem whole_eq (d : DocState) :
    whole d = ⟨d.integrated ∪ d.parked, d.deletes ∪ d.parkedDeletes⟩ := by simp [whole, diff]

theorem Knows.alike (one : Knows d known) (two : Knows e known) : Integrates.Alike d e :=
  Integrates.alike one two

/- Known blocks are in the document or parked, or lost to another one of their id. -/
theorem knows_blocks (knows : Knows d known) :
    (whole d).blocks ∪ admitted ∅ known.blocks = known.blocks := by
  have fresh := Integrates.fresh knows
  have parked := Integrates.parked knows
  have nothing : DocState.empty.parked ∪ known.blocks = known.blocks := Set.empty_union _
  rw [nothing, ids_empty] at fresh parked
  have taken : d.integrated ⊆ admitted ∅ known.blocks := fun b mem => (fresh mem).resolve_left id
  rw [whole_eq, parked]
  apply Set.Subset.antisymm
  · rintro b ((mem | left) | admits)
    · exact (taken mem).1
    · exact left.1
    · exact admits.1
  · intro b mem
    by_cases met : Met (closure ∅ known.blocks) b
    · exact Or.inr ⟨mem, met⟩
    · exact Or.inl (Or.inr ⟨mem, met⟩)

theorem knows_deletes (knows : Knows d known) : (whole d).deletes = known.deletes := by
  have marked : d.deletes = known.deletes ∩ d.ids := by
    rw [Integrates.deletes knows]
    simp [DocState.empty]
  have waiting : d.parkedDeletes = known.deletes \ d.ids := by
    rw [Integrates.parkedDeletes knows]
    simp [DocState.empty]
  change d.deletes ∪ d.parkedDeletes = known.deletes
  rw [marked, waiting]
  exact Set.inter_union_sdiff _ _

theorem knows_ids (knows : Knows d known) : d.ids = closure ∅ known.blocks := by
  rw [Integrates.ids knows, ids_empty]
  exact congrArg _ (Set.empty_union _)

theorem Knows.learn (knows : Knows d known) (step : Integrates d known' after) :
    Knows after (known.union known') := Integrates.trans knows step

theorem Knows.handOn (knows : Knows e known) (step : Integrates d (whole e) after) :
    Integrates d known after := by
  have within : e.ids ⊆ closure d.ids (d.parked ∪ (whole e).blocks) := by
    rw [whole_eq]
    calc e.ids = closure ∅ e.integrated := (grounded_closure e.grounded).symm
      _ ⊆ _ := Causal.closure_mono (Set.empty_subset _) fun b mem => Or.inr (Or.inl mem)
  have spare : Spare d.ids (d.parked ∪ (whole e).blocks) (admitted ∅ known.blocks) := by
    constructor
    · rintro _ ⟨b, ⟨mem, met⟩, rfl⟩
      apply within
      rw [knows_ids knows]
      exact closure_step mem met
    · intro b taken
      exact met_mono (knows_ids knows ▸ within) taken.2
  have step := step.beside spare
  rwa [knows_blocks knows, knows_deletes knows] at step

/-- A diff against clocks that a document covers does to it what the whole would. -/
theorem diff_whole {sv : StateVector}
    (covered : ∀ client clock, clock < sv.get client → (⟨client, clock⟩ : ID) ∈ d.ids)
    (step : Integrates d (diff e sv) after) : Integrates d (whole e) after := by
  have known : ∀ b ∈ e.integrated, b ∉ {b ∈ e.integrated | sv.get b.id.client ≤ b.id.clock} →
      key b ∈ d.ids := by
    intro b mem cut
    apply covered
    by_contra above
    exact cut ⟨mem, Nat.not_lt.mp above⟩
  have within : e.ids ⊆ closure d.ids (d.parked ∪ (diff e sv).blocks) := by
    apply (closure_cut e.grounded known).trans
    apply Causal.closure_mono subset_rfl
    exact fun b mem => Or.inr (Or.inl mem)
  have spare : Spare d.ids (d.parked ∪ (diff e sv).blocks)
      {b ∈ e.integrated | b.id.clock < sv.get b.id.client} := by
    constructor
    · rintro _ ⟨b, ⟨_, below⟩, rfl⟩
      exact Causal.subset_closure (covered _ _ below)
    · intro b cut
      have met := e.grounded b cut.1
      rw [grounded_closure e.grounded] at met
      exact met_mono within met
  have step := step.beside spare
  have parts : (diff e sv).blocks ∪ {b ∈ e.integrated | b.id.clock < sv.get b.id.client} =
      (whole e).blocks := by
    rw [whole_eq]
    ext b
    have cases := Nat.lt_or_ge b.id.clock (sv.get b.id.client)
    simp only [diff, Set.mem_union, Set.mem_sep_iff]
    tauto
  rw [parts] at step
  exact step

section
variable (y : Yrs)

/-- What happens among documents: one applies an update; one takes in the encoded state of
    another, diffed against its own state vector or not; one asks another with a SyncStep1
    and takes in the SyncStep2. -/
inductive Event where
  | apply (i : Nat) (update : Bytes)
  | pull (i j : Nat) (diffed : Bool)
  | handshake (i j : Nat)

def pulled (doc source : y.Doc) (diffed : Bool) : y.Doc :=
  match encodeStateAsUpdate y source (if diffed then some (encodeStateVector y doc) else none) with
  | .ok update => (docApplyUpdate y doc update).1
  | .error _ => doc

def answered (doc source : y.Doc) : y.Doc :=
  match (handleSyncMessage y source (syncStep1 y doc)).2 with
  | .ok (_, _, response) => (handleSyncMessage y doc response).1
  | .error _ => doc

structure Replicas where
  docs : Nat → y.Doc
  known : Nat → Content

def Replicas.fresh : Replicas y := ⟨fun _ => y.newDoc, fun _ => ⟨∅, ∅⟩⟩

def Replicas.set (r : Replicas y) (i : Nat) (doc : y.Doc) (reached : Content) : Replicas y where
  docs := Function.update r.docs i doc
  known := Function.update r.known i ((r.known i).union reached)

/- A SyncStep2 brings what is integrated, an encoded state what is parked as well. -/
def Replicas.step (r : Replicas y) : Event → Replicas y
  | .apply i update => r.set y i (docApplyUpdate y (r.docs i) update).1
      ((y.contentOf update).getD ⟨∅, ∅⟩)
  | .pull i j diffed => r.set y i (pulled y (r.docs i) (r.docs j) diffed) (r.known j)
  | .handshake i j => r.set y i (answered y (r.docs i) (r.docs j)) (whole (y.view (r.docs j)).pruned)

def run (events : List Event) : Replicas y :=
  events.foldl (Replicas.step y) (Replicas.fresh y)

end

variable {y : Yrs}

theorem apply_knows (laws : y.Laws) {doc : y.Doc} (knows : Knows (y.view doc) known)
    (update : Bytes) : Knows (y.view (docApplyUpdate y doc update).1)
      (known.union ((y.contentOf update).getD ⟨∅, ∅⟩)) := by
  cases decoded : y.decodeV1 update with
  | error e =>
    have nothing : known.union ⟨∅, ∅⟩ = known := by simp [Content.union]
    simpa [docApplyUpdate, contentOf, decoded, nothing] using knows
  | ok u =>
    rw [docApplyUpdate, decoded, contentOf_ok decoded]
    exact knows.learn (laws.integrates doc u)

theorem pulled_whole (laws : y.Laws) (doc source : y.Doc) (diffed : Bool) :
    Integrates (y.view doc) (whole (y.view source)) (y.view (pulled y doc source diffed)) := by
  obtain ⟨sv, decodes, covered⟩ : ∃ sv, encodeStateAsUpdate y source
      (if diffed then some (encodeStateVector y doc) else none) =
        .ok (y.encodeStateAsUpdateV1 source sv) ∧
      ∀ client, sv.get client ≤ (y.stateVector doc).get client := by
    cases diffed with
    | false => exact ⟨.default, rfl, fun _ => Nat.zero_le _⟩
    | true =>
      obtain ⟨sv, decoded, same⟩ := laws.stateVector_roundtrip (y.stateVector doc)
      refine ⟨sv, ?_, fun client => (same client).le⟩
      simp [encodeStateAsUpdate, encodeStateVector, decoded, bind, Except.bind, pure, Except.pure]
  obtain ⟨u, decoded, content⟩ := laws.encode_decodes source sv
  have step := laws.integrates doc u
  rw [content] at step
  rw [pulled, decodes]
  change Integrates _ _ (y.view (docApplyUpdate y doc (y.encodeStateAsUpdateV1 source sv)).1)
  rw [docApplyUpdate, decoded]
  apply diff_whole _ step
  intro client clock below
  exact (laws.stateVector_counts doc client clock).mpr (below.trans_le (covered client))

theorem answered_whole (laws : y.Laws) (doc source : y.Doc) :
    Integrates (y.view doc) (whole (y.view source).pruned) (y.view (answered y doc source)) := by
  obtain ⟨sv, asked, same⟩ := syncStep1_decodes laws doc
  obtain ⟨served, u, ok, decoded, content⟩ := integratedUpdate_spec laws.toRules source sv
  have step := laws.integrates doc u
  rw [content] at step
  have read : y.messageDecode (y.messageEncode (.sync (.syncStep2 served))) =
      .ok (.sync (.syncStep2 served), []) := by
    have frame := laws.decode_syncFrame (.syncStep2 served) served [] rfl
    rw [List.append_nil] at frame
    rw [laws.encode_syncStep2]
    exact frame
  have took : answered y doc source = (y.applyUpdate doc u).1 := by
    simp [answered, handleSyncMessage, asked, ok, Except.map, read, docApplyUpdate, decoded]
  rw [took]
  apply diff_whole _ step
  intro client clock below
  exact (laws.stateVector_counts doc client clock).mpr (same client ▸ below)

/-- Every document of a set of replicas is what an empty one comes to that is told what
    reached it. -/
def Replicas.Told (r : Replicas y) : Prop := ∀ i, Knows (y.view (r.docs i)) (r.known i)

theorem told_fresh (laws : y.Laws) : (Replicas.fresh y).Told := by
  intro i
  change Knows (y.view y.newDoc) ⟨∅, ∅⟩
  rw [laws.view_newDoc]
  exact Integrates.refl .empty

theorem Replicas.Told.set {r : Replicas y} (told : r.Told) (i : Nat) {doc : y.Doc}
    {reached : Content} (knows : Knows (y.view doc) ((r.known i).union reached)) :
    (r.set y i doc reached).Told := by
  intro j
  by_cases same : j = i
  · subst same
    simpa [Replicas.set] using knows
  · simpa [Replicas.set, Function.update_of_ne same] using told j

theorem Replicas.Told.step (laws : y.Laws) {r : Replicas y} (told : r.Told) (event : Event) :
    (r.step y event).Told := by
  cases event with
  | apply i update => exact told.set i (apply_knows laws (told i) update)
  | pull i j diffed =>
    have pulls := pulled_whole laws (r.docs i) (r.docs j) diffed
    exact told.set i ((told i).learn ((told j).handOn pulls))
  | handshake i j => exact told.set i ((told i).learn (answered_whole laws (r.docs i) (r.docs j)))

theorem run_told (laws : y.Laws) (events : List Event) : (run y events).Told := by
  have onward : ∀ (events : List Event) (r : Replicas y), r.Told →
      (events.foldl (Replicas.step y) r).Told := by
    intro events
    induction events with
    | nil => exact fun _ told => told
    | cons event rest ih => exact fun r told => ih _ (told.step laws event)
  exact onward events _ (told_fresh laws)

theorem unchanged_iff {c : Content} (step : Integrates d c after) :
    after = d ↔ Integrates.Alike after d := by
  constructor
  · rintro rfl
    exact ⟨rfl, rfl, rfl, rfl⟩
  · intro same
    exact DocState.ext (integrated_unchanged step same.ids) same.deletes same.parked same.parkedDeletes

theorem clocks_alike (laws : y.Laws) {doc doc' : y.Doc}
    (same : Integrates.Alike (y.view doc) (y.view doc')) (client : Nat) :
    (y.stateVector doc).get client = (y.stateVector doc').get client := by
  have counts : ∀ clock, clock < (y.stateVector doc).get client ↔
      clock < (y.stateVector doc').get client := by
    intro clock
    rw [← laws.stateVector_counts, ← laws.stateVector_counts, same.ids]
  have up := counts ((y.stateVector doc').get client)
  have down := counts ((y.stateVector doc).get client)
  omega

theorem ready_alike (laws : y.Laws) {doc doc' : y.Doc}
    (same : Integrates.Alike (y.view doc) (y.view doc')) (update : Bytes) :
    updateIsReady y doc update = updateIsReady y doc' update := by
  cases decoded : y.decodeV1 update with
  | error e => simp [updateIsReady, decoded, bind, Except.bind]
  | ok u =>
    obtain ⟨verdict, ok, exact⟩ := updateIsReady_eq laws.toRules decoded (triable laws doc _).ready
    obtain ⟨verdict', ok', exact'⟩ := updateIsReady_eq laws.toRules decoded (triable laws doc' _).ready
    rw [ok, ok', Bool.eq_iff_iff.mpr (exact.trans ((ready_congr same.ids).trans exact'.symm))]

theorem advances_alike (laws : y.Laws) {doc doc' : y.Doc}
    (same : Integrates.Alike (y.view doc) (y.view doc')) (update : Bytes) :
    updateAdvancesDoc y doc update = updateAdvancesDoc y doc' update := by
  cases decoded : y.decodeV1 update with
  | error e => simp [updateAdvancesDoc, decoded, bind, Except.bind]
  | ok u =>
    have agree : ∀ {a b : Bool}, (a = false ↔ b = false) → a = b := by decide
    cases deletes : y.deleteSetIsEmpty u with
    | false =>
      obtain ⟨after, advances, step, ok, exact⟩ :=
        @advances_encode y laws.toRules doc _ u decoded deletes (taken_whole laws doc u)
      obtain ⟨after', advances', step', ok', exact'⟩ :=
        @advances_encode y laws.toRules doc' _ u decoded deletes (taken_whole laws doc' u)
      have alike := Integrates.congr same step step'
      have unmoved : after = y.view doc ↔ after' = y.view doc' := by
        rw [unchanged_iff step, unchanged_iff step']
        constructor
        · exact fun still => (alike.symm.trans still).trans same
        · exact fun still => (alike.trans still).trans same.symm
      rw [ok, ok', agree (exact.trans (unmoved.trans exact'.symm))]
    | true =>
      have covers : (y.stateVector doc).covers (y.updateStateVector u) =
          (y.stateVector doc').covers (y.updateStateVector u) := by
        rw [Bool.eq_iff_iff, StateVector.covers_iff, StateVector.covers_iff]
        simp only [clocks_alike laws same]
      cases covered : (y.stateVector doc).covers (y.updateStateVector u) with
      | false =>
        rw [advances_uncovered decoded deletes covered,
          advances_uncovered decoded deletes (covers ▸ covered)]
      | true =>
        obtain ⟨after, advances, step, ok, exact⟩ :=
          @advances_probe y laws.toRules doc _ u decoded deletes covered (taken_whole laws doc u)
        obtain ⟨after', advances', step', ok', exact'⟩ :=
          @advances_probe y laws.toRules doc' _ u decoded deletes (covers ▸ covered)
            (taken_whole laws doc' u)
        have alike := Integrates.congr same step step'
        have unmoved : (after.ids = (y.view doc).ids ∧
              (after.NothingParked ↔ (y.view doc).NothingParked)) ↔
            after'.ids = (y.view doc').ids ∧ (after'.NothingParked ↔ (y.view doc').NothingParked) := by
          rw [DocState.NothingParked, DocState.NothingParked, DocState.NothingParked,
            DocState.NothingParked, alike.ids, alike.parked, alike.parkedDeletes, same.ids,
            same.parked, same.parkedDeletes]
        rw [ok, ok', agree (exact.trans (unmoved.trans exact'.symm))]

/-- Any documents that the same content reached are alike, parked content included, and
    give the same verdicts; they are equal where an id names one block. -/
theorem replicas_converge (laws : y.Laws) (events : List Event) {i j : Nat}
    (same : (run y events).known i = (run y events).known j) :
    Integrates.Alike (y.view ((run y events).docs i)) (y.view ((run y events).docs j)) ∧
    (∀ update, updateIsReady y ((run y events).docs i) update =
        updateIsReady y ((run y events).docs j) update ∧
      updateAdvancesDoc y ((run y events).docs i) update =
        updateAdvancesDoc y ((run y events).docs j) update) ∧
    (Set.InjOn Block.id ((run y events).known i).blocks →
      y.view ((run y events).docs i) = y.view ((run y events).docs j)) := by
  have one := run_told laws events i
  have two := run_told laws events j
  rw [← same] at two
  have alike := one.alike two
  refine ⟨alike, fun update => ⟨ready_alike laws alike update, advances_alike laws alike update⟩, ?_⟩
  intro agree
  apply Integrates.same one two
  have nothing : DocState.empty.integrated ∪ DocState.empty.parked ∪
      ((run y events).known i).blocks = ((run y events).known i).blocks := by
    simp [DocState.empty]
  rw [nothing]
  exact agree

/- One document hears of a block before the one it hangs on, the other twice of both. -/
def rooted : Reference.Delta := ⟨[Reference.typed 1 0 none], []⟩

def hung : Reference.Delta := ⟨[Reference.typed 2 0 (some ⟨1, 0⟩)], [⟨1, 0⟩]⟩

def crossed : List Event :=
  [.apply 0 (Reference.encodeDelta hung), .apply 0 (Reference.encodeDelta rooted),
    .apply 1 (Reference.encodeDelta rooted), .apply 1 (Reference.encodeDelta hung), .pull 1 0 true,
    .apply 1 (Reference.encodeDelta rooted)]

theorem crossed_known : (run Reference.crate crossed).known 0 = hung.content.union rooted.content ∧
    (run Reference.crate crossed).known 1 = hung.content.union rooted.content := by
  simp only [crossed, run, List.foldl_cons, List.foldl_nil, Replicas.step, Replicas.set,
    Replicas.fresh, Function.update_self, Function.update_of_ne, ne_eq, zero_ne_one, one_ne_zero,
    not_false_eq_true, Reference.contentOf_encodeDelta, Option.getD_some]
  constructor
  · simp [Content.union]
  · ext x
    · simp only [Content.union, Set.mem_union, Set.mem_empty_iff_false]
      tauto
    · simp only [Content.union, Set.mem_union, Set.mem_empty_iff_false]
      tauto

theorem crossed_converge :
    Reference.crate.view ((run Reference.crate crossed).docs 0) =
      Reference.crate.view ((run Reference.crate crossed).docs 1) := by
  apply (replicas_converge Reference.crate_laws crossed
    (crossed_known.1.trans crossed_known.2.symm)).2.2
  rw [crossed_known.1]
  intro b mem b' mem' same
  simp only [Content.union, Reference.Delta.content, hung, rooted, Set.mem_union, mem_asSet,
    List.mem_singleton] at mem mem'
  rcases mem with rfl | rfl <;> rcases mem' with rfl | rfl <;> simp_all [Reference.typed]

theorem stands (laws : y.Laws) (doc : y.Doc) : Knows (y.view doc) (whole (y.view doc)) := by
  obtain ⟨u, decoded, content⟩ := laws.encode_decodes doc .default
  have step := laws.integrates y.newDoc u
  rw [laws.view_newDoc, content, reseeded_view laws.toRules doc decoded] at step
  exact step

theorem union_comm (c c' : Content) : c.union c' = c'.union c := by
  simp [Content.union, Set.union_comm]

theorem union_again (c c' : Content) : c'.union (c.union c') = c.union c' := by
  ext x
  · simp only [Content.union, Set.mem_union]
    tauto
  · simp only [Content.union, Set.mem_union]
    tauto

theorem answered_clean (laws : y.Laws) {doc : y.Doc} (source : y.Doc)
    (clean : (y.view doc).NothingParked) : (y.view (answered y doc source)).NothingParked := by
  have step := answered_whole laws doc source
  exact (step.clean_iff_ready clean).mpr (cut_ready fun _ _ below => absurd below (Nat.not_lt_zero _)).1

/-- A diff brings what the whole state would; one encoded state in each direction makes any
    two documents alike, parked content included; and so does one handshake in each
    direction where neither has anything parked. -/
theorem exchange_converges (laws : y.Laws) (doc peer : y.Doc) :
    Integrates.Alike (y.view (pulled y doc peer true)) (y.view (pulled y doc peer false)) ∧
    (∀ there back, Integrates.Alike (y.view (pulled y doc peer there))
      (y.view (pulled y peer doc back)) ∧ Integrates.Alike (y.view (pulled y doc peer there))
      (y.view (pulled y peer (pulled y doc peer there) back))) ∧
    ((y.view doc).NothingParked → (y.view peer).NothingParked →
      Integrates.Alike (y.view (answered y doc peer))
        (y.view (answered y peer (answered y doc peer))) ∧
      (y.view (answered y doc peer)).NothingParked ∧
      (y.view (answered y peer (answered y doc peer))).NothingParked) := by
  have mine := stands laws doc
  have other := stands laws peer
  refine ⟨?_, ?_, ?_⟩
  · exact (pulled_whole laws doc peer true).alike (pulled_whole laws doc peer false)
  · intro there back
    have forth := mine.learn (pulled_whole laws doc peer there)
    have crossing := other.learn (pulled_whole laws peer doc back)
    have later := other.learn (forth.handOn (pulled_whole laws peer (pulled y doc peer there) back))
    rw [union_comm] at crossing
    rw [union_again] at later
    exact ⟨forth.alike crossing, forth.alike later⟩
  · intro clean cleanPeer
    have here := answered_clean laws peer clean
    have asks := answered_whole laws doc peer
    have asked := answered_whole laws peer (answered y doc peer)
    rw [pruned_eq_self cleanPeer] at asks
    rw [pruned_eq_self here] at asked
    have forth := mine.learn asks
    have later := other.learn (forth.handOn asked)
    rw [union_again] at later
    exact ⟨forth.alike later, here, answered_clean laws _ cleanPeer⟩

theorem waiting_exchange : Integrates.Alike
    (Reference.crate.view (pulled Reference.crate Reference.waiting
      (Reference.Replica.after [⟨[Reference.typed 3 0 none], []⟩]) true))
    (Reference.crate.view (pulled Reference.crate
      (Reference.Replica.after [⟨[Reference.typed 3 0 none], []⟩]) Reference.waiting false)) ∧
    (Reference.crate.view (answered Reference.crate (Reference.Replica.after [rooted])
      (Reference.Replica.after [⟨[Reference.typed 3 0 none], []⟩]))).NothingParked :=
  ⟨((exchange_converges Reference.crate_laws _ _).2.1 true false).1,
    ((exchange_converges Reference.crate_laws (Reference.Replica.after [rooted])
      (Reference.Replica.after [⟨[Reference.typed 3 0 none], []⟩])).2.2
        ((hasPending_eq_false_iff Reference.crate_laws.toRules _).mp rfl)
        ((hasPending_eq_false_iff Reference.crate_laws.toRules _).mp rfl)).2.1⟩

end Yrby.Convergence
