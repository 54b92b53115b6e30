import Yrby.Serving

/- When update_is_ready and update_advances_doc say yes. The sync layer records
   on ready, resyncs on not ready, and takes a ready update that does not advance
   the document for a retry, so both verdicts have to be exact. -/
namespace Yrby.Readiness
open Causal Document Wire Yrs Protocol Serving

variable {y : Yrs}

/- Why the cheap reject is safe: the lowest block of a client hangs on the clock
   below it, which only the document could hold. -/
theorem ready_lower_covered (rules : y.Rules) {doc : y.Doc} {u : y.Update}
    (ready : (y.view doc).Ready (y.content u)) :
    (y.stateVector doc).covers (y.updateStateVectorLower u) = true := by
  rw [StateVector.covers_iff]
  intro client
  by_contra above
  have above := Nat.not_le.mp above
  have present : (y.updateStateVectorLower u).entries.lookup client ≠ none := by
    intro absent
    simp [StateVector.get, absent] at above
  obtain ⟨b, mem, rfl⟩ : ∃ b ∈ (y.content u).blocks, b.id.client = client := by
    by_contra none
    push Not at none
    exact present ((rules.lower_absent u client).mpr none)
  obtain ⟨first, firstMem, at_lower⟩ := rules.lower_attained u b mem
  have gap : ∀ i ∈ closure (y.view doc).ids (y.content u).blocks, i.client = b.id.client →
      i ∈ (y.view doc).ids ∨ (y.updateStateVectorLower u).get b.id.client ≤ i.clock := by
    intro i reach own
    rcases closure_subset_keys reach with held | ⟨b', mem', rfl⟩
    · exact Or.inl held
    · have least := rules.lower_least u b' mem'
      rw [show b'.id.client = b.id.client from own] at least
      exact Or.inr least
  -- the clock just below the lowest one is neither held nor carried
  have firstId : first.id = ⟨b.id.client, (y.updateStateVectorLower u).get b.id.client⟩ := at_lower
  obtain ⟨lower, eq⟩ : ∃ n, (y.updateStateVectorLower u).get b.id.client = n + 1 :=
    Nat.exists_eq_succ_of_ne_zero (by omega)
  have need : (⟨b.id.client, lower⟩ : ID) ∈ needs first := by
    change _ ∈ first.needs
    simp [Block.needs, firstId, eq, ID.previous]
  rcases gap _ (ready.1 first firstMem _ need) rfl with held | high
  · have below := (rules.stateVector_counts doc b.id.client lower).mp held
    omega
  · rw [eq] at high
    exact absurd high (Nat.not_succ_le_self _)

theorem ready_congr {d e : DocState} {c : Content} (same : d.ids = e.ids) :
    d.Ready c ↔ e.Ready c := by
  rw [DocState.Ready, DocState.Ready, same]

/-- A throwaway document with what doc has integrated takes the update. -/
def TakenClean (y : Yrs) (doc : y.Doc) (u : y.Update) : Prop :=
  ∀ seed seedUpdate, integratedUpdate y doc .default = .ok seed → y.decodeV1 seed = .ok seedUpdate →
    y.Takes (y.applyUpdate y.newDoc seedUpdate).1 u

/-- A throwaway document with all of doc takes the update. -/
def TakenWhole (y : Yrs) (doc : y.Doc) (u : y.Update) : Prop :=
  ∀ current, y.decodeV1 (y.encodeStateAsUpdateV1 doc .default) = .ok current →
    y.Takes (y.applyUpdate y.newDoc current).1 u

/-- The crate refuses no block of the update where a verdict on it comes to a trial: where
    the clocks do not settle it at once. -/
structure Triable (y : Yrs) (doc : y.Doc) (u : y.Update) : Prop where
  ready : (y.stateVector doc).covers (y.updateStateVectorLower u) = true → TakenClean y doc u
  advances : (y.view doc).Ready (y.content u) → (y.deleteSetIsEmpty u = false ∨
    (y.stateVector doc).covers (y.updateStateVector u) = true) → TakenWhole y doc u

theorem taken_whole (laws : y.Laws) (doc : y.Doc) (u : y.Update) : TakenWhole y doc u :=
  fun _ _ => laws.takes _ u

theorem triable (laws : y.Laws) (doc : y.Doc) (u : y.Update) : Triable y doc u where
  ready _ _ _ _ _ := laws.takes _ u
  advances _ _ := taken_whole laws doc u

theorem seeded_probe (rules : y.Rules) (doc : y.Doc) :
    ∃ seed seedUpdate, integratedUpdate y doc .default = .ok seed ∧
      y.decodeV1 seed = .ok seedUpdate ∧ y.Takes y.newDoc seedUpdate ∧
      y.view (y.applyUpdate y.newDoc seedUpdate).1 = (y.view doc).pruned := by
  obtain ⟨source, served, view⟩ := integratedUpdate_encodes rules doc .default
  obtain ⟨seedUpdate, decoded, _⟩ := rules.encode_decodes source .default
  exact ⟨_, seedUpdate, served, decoded, rules.reseeds source seedUpdate decoded,
    (reseeded_view rules source decoded).trans view⟩

theorem updateIsReady_eq (rules : y.Rules) {doc : y.Doc} {bytes : Bytes} {u : y.Update}
    (decoded : y.decodeV1 bytes = .ok u)
    (taken : (y.stateVector doc).covers (y.updateStateVectorLower u) = true → TakenClean y doc u) :
    ∃ verdict, updateIsReady y doc bytes = .ok verdict ∧
      (verdict = true ↔ (y.view doc).Ready (y.content u)) := by
  by_cases covered : (y.stateVector doc).covers (y.updateStateVectorLower u) = true
  · obtain ⟨seed, seedUpdate, served, decodedSeed, seeds, view⟩ := seeded_probe rules doc
    have takes := taken covered seed seedUpdate served decodedSeed
    refine ⟨!hasPending y (y.applyUpdate (y.applyUpdate y.newDoc seedUpdate).1 u).1, ?_, ?_⟩
    · simp [updateIsReady, decoded, covered, served, decodedSeed, applied_ok seeds, applied_ok takes,
        bind, Except.bind, pure, Except.pure]
    · have step := rules.apply_integrates _ u takes
      rw [view] at step
      rw [Bool.not_eq_true', hasPending_eq_false_iff rules,
        step.clean_iff_ready (nothingParked_pruned _)]
      exact ready_congr rfl
  · refine ⟨false, ?_, ?_⟩
    · simp [updateIsReady, decoded, covered, bind, Except.bind, pure, Except.pure]
    · simp only [Bool.false_eq_true, false_iff]
      exact fun ready => covered (ready_lower_covered rules ready)

theorem updateIsReady_refused (rules : y.Rules) {doc : y.Doc} {bytes : Bytes} {u : y.Update}
    (decoded : y.decodeV1 bytes = .ok u)
    (covered : (y.stateVector doc).covers (y.updateStateVectorLower u) = true)
    (refused : ¬ TakenClean y doc u) : ∃ e, updateIsReady y doc bytes = .error e := by
  obtain ⟨seed, seedUpdate, served, decodedSeed, seeds, _⟩ := seeded_probe rules doc
  have here : ¬ y.Takes (y.applyUpdate y.newDoc seedUpdate).1 u := by
    intro takes
    apply refused
    intro seed' seedUpdate' served' decoded'
    obtain rfl := Except.ok.inj (served.symm.trans served')
    obtain rfl := Except.ok.inj (decodedSeed.symm.trans decoded')
    exact takes
  obtain ⟨e, raised⟩ := applied_refused here
  refine ⟨e, ?_⟩
  simp [updateIsReady, decoded, covered, served, decodedSeed, applied_ok seeds, raised, bind, Except.bind]

theorem updateIsReady_decodes {doc : y.Doc} {bytes : Bytes} {verdict : Bool}
    (ok : updateIsReady y doc bytes = .ok verdict) : ∃ u, y.decodeV1 bytes = .ok u := by
  cases decoded : y.decodeV1 bytes with
  | error e => simp [updateIsReady, decoded, bind, Except.bind] at ok
  | ok u => exact ⟨u, rfl⟩

theorem updateIsReady_true (laws : y.Laws) {doc : y.Doc} {bytes : Bytes}
    (ok : updateIsReady y doc bytes = .ok true) :
    ∃ u, y.decodeV1 bytes = .ok u ∧ (y.view doc).Ready (y.content u) := by
  obtain ⟨u, decoded⟩ := updateIsReady_decodes ok
  obtain ⟨verdict, ok', exact⟩ := updateIsReady_eq laws.toRules decoded (triable laws doc u).ready
  rw [ok] at ok'
  exact ⟨u, decoded, exact.mp (Except.ok.inj ok').symm⟩

/-- update_is_ready holds exactly when nothing parks over the integrated content
    alone. What the document itself has parked neither counts nor vetoes. -/
theorem update_is_ready_exact (laws : y.Laws) (doc : y.Doc) {bytes : Bytes} {u : y.Update}
    (decoded : y.decodeV1 bytes = .ok u) :
    ∃ verdict, updateIsReady y doc bytes = .ok verdict ∧
      (∀ clean, y.view clean = (y.view doc).pruned →
        (verdict = true ↔ hasPending y (y.applyUpdate clean u).1 = false)) ∧
      ((y.stateVector doc).covers (y.updateStateVectorLower u) = false →
        ∀ clean, y.view clean = (y.view doc).pruned →
          hasPending y (y.applyUpdate clean u).1 = true) ∧
      ∀ other, (y.view other).pruned = (y.view doc).pruned →
        updateIsReady y other bytes = .ok verdict := by
  obtain ⟨verdict, ok, exact⟩ := updateIsReady_eq laws.toRules decoded (triable laws doc u).ready
  have trial : ∀ clean, y.view clean = (y.view doc).pruned →
      (verdict = true ↔ hasPending y (y.applyUpdate clean u).1 = false) := by
    intro clean view
    have step := laws.integrates clean u
    rw [view] at step
    rw [hasPending_eq_false_iff laws.toRules, step.clean_iff_ready (nothingParked_pruned _), exact]
    exact ready_congr rfl
  refine ⟨verdict, ok, trial, ?_, ?_⟩
  · intro uncovered clean view
    by_contra unparked
    have ready := exact.mp ((trial clean view).mpr (by simpa using unparked))
    rw [ready_lower_covered laws.toRules ready] at uncovered
    exact Bool.noConfusion uncovered
  · intro other same
    obtain ⟨verdict', ok', exact'⟩ :=
      updateIsReady_eq laws.toRules decoded (triable laws other u).ready
    have agree : (y.view other).Ready (y.content u) ↔ (y.view doc).Ready (y.content u) :=
      ready_congr (by rw [← ids_pruned, same, ids_pruned])
    rw [ok', Bool.eq_iff_iff.mpr (exact'.trans (agree.trans exact.symm))]

theorem waiting_dependency_not_ready :
    updateIsReady Reference.crate Reference.waiting
        (Reference.encodeDelta ⟨[Reference.typed 3 0 (some ⟨2, 0⟩)], []⟩) = .ok false ∧
      hasPending Reference.crate (Reference.crate.applyUpdate
        (Reference.crate.prunePending Reference.waiting)
        ⟨[Reference.typed 3 0 (some ⟨2, 0⟩)], []⟩).1 = true := by
  obtain ⟨verdict, ok, trial, _, _⟩ :=
    @update_is_ready_exact _ Reference.crate_laws Reference.waiting
      (Reference.encodeDelta ⟨[Reference.typed 3 0 (some ⟨2, 0⟩)], []⟩)
      (⟨[Reference.typed 3 0 (some ⟨2, 0⟩)], []⟩ : Reference.Delta) rfl
  have parks := trial _ (Reference.crate_laws.prune_view Reference.waiting)
  have unready : updateIsReady Reference.crate Reference.waiting
      (Reference.encodeDelta ⟨[Reference.typed 3 0 (some ⟨2, 0⟩)], []⟩) = .ok false := rfl
  obtain rfl : verdict = false := Except.ok.inj (ok.symm.trans unready)
  exact ⟨unready, by simpa using parks⟩

theorem integrated_unchanged {before after : DocState} {c : Content} (step : Integrates before c after)
    (ids : after.ids = before.ids) : after.integrated = before.integrated := by
  apply Set.Subset.antisymm _ step.keeps
  intro b mem
  obtain ⟨b', mem', same⟩ : b.id ∈ before.ids := ids ▸ ⟨b, mem, rfl⟩
  exact after.single (step.keeps mem') mem same ▸ mem'

theorem contained_view {before after : DocState} {c : Content} (step : Integrates before c after)
    (ready : before.Ready c) (held : before.Contains c) : after = before := by
  have closed : closure before.ids c.blocks = before.ids := by
    rw [complete_closure ready.1, Set.union_eq_left]
    exact held.1
  have inert : Inert (closure before.ids c.blocks) before.parked := by
    rw [closed]
    exact before.parked_inert
  have ids : after.ids = before.ids := by rw [step.ids, closure_union_inert inert, closed]
  have inside : c.deletes ⊆ before.ids := held.2.trans before.deletes_integrated
  apply DocState.ext
  · exact integrated_unchanged step ids
  · rw [step.deletes, ids]
    apply Set.Subset.antisymm
    · rintro i ⟨(mem | parked) | new, here⟩
      · exact mem
      · exact absurd here (before.parkedDeletes_outside i parked)
      · exact held.2 new
    · exact fun i mem => ⟨Or.inl (Or.inl mem), before.deletes_integrated mem⟩
  · rw [step.parked, stuck_union_inert inert, stuck_eq_empty_iff.mpr ready.1, Set.union_empty]
  · rw [step.parkedDeletes, ids]
    apply Set.Subset.antisymm
    · rintro i ⟨parked | new, absent⟩
      · exact parked
      · exact absurd (inside new) absent
    · exact fun i parked => ⟨Or.inl parked, before.parkedDeletes_outside i parked⟩

theorem view_unchanged_iff {before after : DocState} {c : Content} (step : Integrates before c after)
    (ready : before.Ready c) : after = before ↔ before.Contains c :=
  ⟨fun same => same ▸ step.ready_contains ready, contained_view step ready⟩

theorem stateVector_same_iff (rules : y.Rules) (doc other : y.Doc) :
    (y.stateVector doc).same (y.stateVector other) = true ↔
      (y.view doc).ids = (y.view other).ids := by
  rw [StateVector.same_iff_get (rules.stateVector_positive doc) (rules.stateVector_positive other)]
  constructor
  · intro same
    ext ⟨client, clock⟩
    rw [rules.stateVector_counts, rules.stateVector_counts, same]
  · intro same client
    apply eq_of_forall_lt_iff
    intro clock
    rw [← rules.stateVector_counts, ← rules.stateVector_counts, same]

theorem covered_of_contains (rules : y.Rules) {doc : y.Doc} {u : y.Update}
    (held : (y.view doc).Contains (y.content u)) :
    (y.stateVector doc).covers (y.updateStateVector u) = true := by
  rw [StateVector.covers_iff]
  intro client
  by_contra above
  have carried := (rules.updateStateVector_counts u client _).mp (Nat.not_le.mp above) _ (Nat.le_refl _)
  have counted := (rules.stateVector_counts doc client _).mp (held.1 carried)
  exact Nat.lt_irrefl _ counted

/-- Without deletes, unchanged clocks mean that all of a ready update was there. -/
theorem ids_unchanged_iff {before after : DocState} {c : Content} (step : Integrates before c after)
    (ready : before.Ready c) (none : c.deletes = ∅) :
    after.ids = before.ids ↔ before.Contains c := by
  constructor
  · intro same
    refine ⟨?_, none ▸ Set.empty_subset _⟩
    rw [← same]
    exact (step.ready_contains ready).1
  · intro held
    rw [contained_view step ready held]

theorem advances_probes (rules : y.Rules) (doc : y.Doc) (u : y.Update) :
    ∃ current, y.decodeV1 (y.encodeStateAsUpdateV1 doc .default) = .ok current ∧
      y.Takes y.newDoc current ∧ y.view (y.applyUpdate y.newDoc current).1 = y.view doc ∧
      (y.Takes (y.applyUpdate y.newDoc current).1 u → Integrates (y.view doc) (y.content u)
        (y.view (y.applyUpdate (y.applyUpdate y.newDoc current).1 u).1)) := by
  obtain ⟨current, decoded, _⟩ := rules.encode_decodes doc .default
  have seeded := reseeded_view rules doc decoded
  refine ⟨current, decoded, rules.reseeds doc current decoded, seeded, fun takes => ?_⟩
  have step := rules.apply_integrates _ u takes
  rwa [seeded] at step

theorem advances_encode (rules : y.Rules) {doc : y.Doc} {bytes : Bytes} {u : y.Update}
    (decoded : y.decodeV1 bytes = .ok u) (deletes : y.deleteSetIsEmpty u = false)
    (taken : TakenWhole y doc u) :
    ∃ after advances, Integrates (y.view doc) (y.content u) after ∧
      updateAdvancesDoc y doc bytes = .ok advances ∧ (advances = false ↔ after = y.view doc) := by
  obtain ⟨current, decodedCurrent, seeds, seeded, step⟩ := advances_probes rules doc u
  have takes := taken current decodedCurrent
  have trial := applied_ok takes
  replace step := step takes
  generalize (y.applyUpdate (y.applyUpdate y.newDoc current).1 u).1 = after at step trial
  generalize probe : (y.applyUpdate y.newDoc current).1 = before at *
  refine ⟨y.view after, y.encodeStateAsUpdateV1 before .default != y.encodeStateAsUpdateV1 after .default,
    step, ?_, ?_⟩
  · simp [updateAdvancesDoc, decoded, deletes, decodedCurrent, applied_ok seeds, probe, trial, bind,
      Except.bind, pure, Except.pure]
  · rw [bne_eq_false_iff_eq, ← seeded]
    constructor
    · exact fun same => (encode_injective rules same).symm
    · exact fun same => rules.encode_view _ _ _ same.symm

theorem advances_probe (rules : y.Rules) {doc : y.Doc} {bytes : Bytes} {u : y.Update}
    (decoded : y.decodeV1 bytes = .ok u) (deletes : y.deleteSetIsEmpty u = true)
    (covered : (y.stateVector doc).covers (y.updateStateVector u) = true) (taken : TakenWhole y doc u) :
    ∃ after advances, Integrates (y.view doc) (y.content u) after ∧
      updateAdvancesDoc y doc bytes = .ok advances ∧
      (advances = false ↔ after.ids = (y.view doc).ids ∧
        (after.NothingParked ↔ (y.view doc).NothingParked)) := by
  obtain ⟨current, decodedCurrent, seeds, seeded, step⟩ := advances_probes rules doc u
  have takes := taken current decodedCurrent
  have trial := applied_ok takes
  replace step := step takes
  generalize (y.applyUpdate (y.applyUpdate y.newDoc current).1 u).1 = after at step trial
  generalize probe : (y.applyUpdate y.newDoc current).1 = before at *
  have counted := stateVector_same_iff rules before after
  rw [seeded] at counted
  by_cases same : (y.stateVector before).same (y.stateVector after) = true
  · refine ⟨y.view after, hasPending y after != hasPending y before, step, ?_, ?_⟩
    · simp [updateAdvancesDoc, decoded, deletes, covered, decodedCurrent, applied_ok seeds, probe,
        trial, same, hasPending, bind, Except.bind, pure, Except.pure]
    · have held : (y.view after).ids = (y.view doc).ids := (counted.mp same).symm
      rw [bne_eq_false_iff_eq, ← Bool.not_inj_iff, Bool.eq_iff_iff, Bool.not_eq_true',
        Bool.not_eq_true', hasPending_eq_false_iff rules, hasPending_eq_false_iff rules, seeded]
      exact ⟨fun pending => ⟨held, pending⟩, fun both => both.2⟩
  · refine ⟨y.view after, true, step, ?_, ?_⟩
    · simp [updateAdvancesDoc, decoded, deletes, covered, decodedCurrent, applied_ok seeds, probe,
        trial, same, bind, Except.bind, pure, Except.pure]
    · simp only [Bool.true_eq_false, false_iff]
      exact fun both => same (counted.mpr both.1.symm)

theorem advances_uncovered {doc : y.Doc} {bytes : Bytes} {u : y.Update}
    (decoded : y.decodeV1 bytes = .ok u) (deletes : y.deleteSetIsEmpty u = true)
    (uncovered : (y.stateVector doc).covers (y.updateStateVector u) = false) :
    updateAdvancesDoc y doc bytes = .ok true := by
  simp [updateAdvancesDoc, decoded, deletes, uncovered, bind, Except.bind, pure, Except.pure]

theorem advances_refused (rules : y.Rules) {doc : y.Doc} {bytes : Bytes} {u : y.Update}
    (decoded : y.decodeV1 bytes = .ok u)
    (unsettled : y.deleteSetIsEmpty u = false ∨
      (y.stateVector doc).covers (y.updateStateVector u) = true) (refused : ¬ TakenWhole y doc u) :
    ∃ e, updateAdvancesDoc y doc bytes = .error e := by
  obtain ⟨current, decodedCurrent, seeds, _, _⟩ := advances_probes rules doc u
  have here : ¬ y.Takes (y.applyUpdate y.newDoc current).1 u := by
    intro takes
    apply refused
    intro current' decoded'
    obtain rfl := Except.ok.inj (decodedCurrent.symm.trans decoded')
    exact takes
  obtain ⟨e, raised⟩ := applied_refused here
  refine ⟨e, ?_⟩
  cases deletes : y.deleteSetIsEmpty u with
  | false =>
    simp [updateAdvancesDoc, decoded, deletes, decodedCurrent, applied_ok seeds, raised, bind,
      Except.bind]
  | true =>
    have covered := unsettled.resolve_left (by simp [deletes])
    simp [updateAdvancesDoc, decoded, deletes, covered, decodedCurrent, applied_ok seeds, raised, bind,
      Except.bind]

/- On a ready update, all three paths come to the same verdict. -/
theorem updateAdvancesDoc_eq (rules : y.Rules) {doc : y.Doc} {bytes : Bytes} {u : y.Update}
    (decoded : y.decodeV1 bytes = .ok u) (ready : (y.view doc).Ready (y.content u))
    (triable : Triable y doc u) :
    ∃ advances, updateAdvancesDoc y doc bytes = .ok advances ∧
      (advances = false ↔ (y.view doc).Contains (y.content u)) := by
  cases deletes : y.deleteSetIsEmpty u with
  | false =>
    obtain ⟨after, advances, step, ok, exact⟩ :=
      @advances_encode y rules doc bytes u decoded deletes (triable.advances ready (.inl deletes))
    exact ⟨advances, ok, exact.trans (view_unchanged_iff step ready)⟩
  | true =>
    cases covered : (y.stateVector doc).covers (y.updateStateVector u) with
    | false =>
      refine ⟨true, advances_uncovered decoded deletes covered, ?_⟩
      simp only [Bool.true_eq_false, false_iff]
      exact fun held => Bool.false_ne_true (covered.symm.trans (covered_of_contains rules held))
    | true =>
      obtain ⟨after, advances, step, ok, exact⟩ :=
        advances_probe rules decoded deletes covered (triable.advances ready (.inr covered))
      have counted := ids_unchanged_iff step ready ((rules.deleteSet_iff u).mp deletes)
      refine ⟨advances, ok, exact.trans ⟨fun both => counted.mp both.1, fun held => ?_⟩⟩
      have same := contained_view step ready held
      exact ⟨counted.mpr held, by rw [same]⟩

theorem ready_advances (laws : y.Laws) {doc : y.Doc} {bytes : Bytes}
    (ready : updateIsReady y doc bytes = .ok true) :
    ∃ u advances, y.decodeV1 bytes = .ok u ∧ updateAdvancesDoc y doc bytes = .ok advances ∧
      (advances = false ↔ (y.view doc).Contains (y.content u)) := by
  obtain ⟨u, decoded, ready⟩ := updateIsReady_true laws ready
  obtain ⟨advances, ok, exact⟩ := updateAdvancesDoc_eq laws.toRules decoded ready (triable laws doc u)
  exact ⟨u, advances, decoded, ok, exact⟩

/-- Where a trial refuses a block of the update, a verdict on it raises. -/
theorem untriable_raises (rules : y.Rules) {doc : y.Doc} {bytes : Bytes} {u : y.Update}
    (decoded : y.decodeV1 bytes = .ok u) (untriable : ¬ Triable y doc u) :
    (∃ e, updateIsReady y doc bytes = .error e) ∨
      updateIsReady y doc bytes = .ok true ∧ ∃ e, updateAdvancesDoc y doc bytes = .error e := by
  by_cases taken : (y.stateVector doc).covers (y.updateStateVectorLower u) = true → TakenClean y doc u
  · obtain ⟨verdict, ok, exact⟩ := updateIsReady_eq rules decoded taken
    right
    by_contra quiet
    refine untriable ⟨taken, fun ready unsettled => ?_⟩
    obtain rfl := exact.mpr ready
    by_contra refused
    exact quiet ⟨ok, advances_refused rules decoded unsettled refused⟩
  · push Not at taken
    exact .inl (updateIsReady_refused rules decoded taken.1 taken.2)

end Yrby.Readiness
