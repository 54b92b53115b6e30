import Yrby.Protocol
import Yrby.Reference.Crate

/- What integrated_update hands out: the integrated content at or above a state
   vector with every deletion, and nothing of the parked remainder. -/
namespace Yrby.Serving
open Causal Document Wire Yrs Protocol

variable {y : Yrs}

/-- Applied to an empty document, the full encoding of d gives d back, with the
    same things parked. -/
theorem replanted {d e : DocState} (step : Integrates .empty (diff d .default) e) : e = d := by
  have whole : diff d .default = ⟨d.integrated ∪ d.parked, d.deletes ∪ d.parkedDeletes⟩ := by
    simp [diff]
  rw [whole] at step
  have offered : DocState.empty.parked ∪ (d.integrated ∪ d.parked) = d.parked ∪ d.integrated := by
    rw [show DocState.empty.parked = ∅ from rfl, Set.empty_union, Set.union_comm]
  have inert : Inert (closure ∅ d.integrated) d.parked := by
    rw [grounded_closure d.grounded]
    exact d.parked_inert
  have ids : e.ids = d.ids := by
    have := step.ids
    simp only [offered, ids_empty] at this
    rw [this, closure_union_inert inert, grounded_closure d.grounded]
    rfl
  have sub : e.integrated ⊆ d.integrated := by
    intro b mem
    rcases step.fresh mem with none | taken
    · exact none.elim
    · rw [offered, ids_empty, admitted_union_inert inert] at taken
      exact taken.1
  apply DocState.ext
  · apply sub.antisymm
    intro b mem
    have held : b.id ∈ e.ids := ids ▸ ⟨b, mem, rfl⟩
    obtain ⟨b', mem', same⟩ := held
    exact d.single (sub mem') mem same ▸ mem'
  · have inside := d.deletes_integrated
    rw [step.deletes, ids]
    ext i
    constructor
    · rintro ⟨(none | none) | mem | parked, held⟩
      · exact none.elim
      · exact none.elim
      · exact mem
      · exact absurd held (d.parkedDeletes_outside i parked)
    · intro mem
      exact ⟨Or.inr (Or.inl mem), inside mem⟩
  · rw [step.parked, offered, ids_empty, stuck_union_inert inert,
      stuck_eq_empty_iff.mpr d.grounded, Set.union_empty]
  · rw [step.parkedDeletes, ids]
    ext i
    constructor
    · rintro ⟨none | mem | parked, absent⟩
      · exact none.elim
      · exact absurd (d.deletes_integrated mem) absent
      · exact parked
    · intro parked
      exact ⟨Or.inr (Or.inr parked), d.parkedDeletes_outside i parked⟩

theorem reseeded_view (rules : y.Rules) (doc : y.Doc) {u : y.Update}
    (decoded : y.decodeV1 (y.encodeStateAsUpdateV1 doc .default) = .ok u) :
    y.view (y.applyUpdate y.newDoc u).1 = y.view doc := by
  obtain ⟨u', decoded', content⟩ := rules.encode_decodes doc .default
  obtain rfl : u = u' := by rw [decoded] at decoded'; exact Except.ok.inj decoded'
  have step := rules.apply_integrates y.newDoc u (rules.reseeds doc u decoded)
  rw [rules.view_newDoc, content] at step
  exact replanted step

theorem encode_injective (rules : y.Rules) {doc doc' : y.Doc}
    (same : y.encodeStateAsUpdateV1 doc .default = y.encodeStateAsUpdateV1 doc' .default) :
    y.view doc = y.view doc' := by
  obtain ⟨u, decoded, _⟩ := rules.encode_decodes doc .default
  rw [← reseeded_view rules doc decoded, ← reseeded_view rules doc' (same ▸ decoded)]

theorem rebuiltUpdate_encodes (rules : y.Rules) (doc : y.Doc) (sv : StateVector) :
    ∃ rebuilt, rebuiltUpdate y doc sv = .ok (y.encodeStateAsUpdateV1 rebuilt sv) ∧
      y.view rebuilt = (y.view doc).pruned := by
  obtain ⟨full, decoded, _⟩ := rules.encode_decodes doc .default
  refine ⟨y.prunePending (y.applyUpdate y.newDoc full).1, ?_, ?_⟩
  · simp [rebuiltUpdate, decoded, applied_ok (rules.reseeds doc full decoded), bind, Except.bind, pure,
      Except.pure]
  · rw [rules.prune_view, reseeded_view rules doc decoded]

theorem integratedUpdate_encodes (rules : y.Rules) (doc : y.Doc) (sv : StateVector) :
    ∃ source, integratedUpdate y doc sv = .ok (y.encodeStateAsUpdateV1 source sv) ∧
      y.view source = (y.view doc).pruned := by
  by_cases clean : hasPending y doc = false
  · refine ⟨doc, ?_, (pruned_eq_self ((hasPending_eq_false_iff rules doc).mp clean)).symm⟩
    simp only [hasPending, Bool.or_eq_false_iff] at clean
    simp [integratedUpdate, clean]
  · obtain ⟨rebuilt, encodes, view⟩ := rebuiltUpdate_encodes rules doc sv
    refine ⟨rebuilt, ?_, view⟩
    rw [← encodes, integratedUpdate, if_neg]
    simpa [hasPending, ← Bool.not_or] using clean

theorem rebuiltUpdate_spec (rules : y.Rules) (doc : y.Doc) (sv : StateVector) :
    ∃ bytes u, rebuiltUpdate y doc sv = .ok bytes ∧ y.decodeV1 bytes = .ok u ∧
      y.content u = diff (y.view doc).pruned sv := by
  obtain ⟨rebuilt, encodes, view⟩ := rebuiltUpdate_encodes rules doc sv
  obtain ⟨u, decoded, content⟩ := rules.encode_decodes rebuilt sv
  exact ⟨_, u, encodes, decoded, view ▸ content⟩

theorem integratedUpdate_spec (rules : y.Rules) (doc : y.Doc) (sv : StateVector) :
    ∃ bytes u, integratedUpdate y doc sv = .ok bytes ∧ y.decodeV1 bytes = .ok u ∧
      y.content u = diff (y.view doc).pruned sv := by
  obtain ⟨source, encodes, view⟩ := integratedUpdate_encodes rules doc sv
  obtain ⟨u, decoded, content⟩ := rules.encode_decodes source sv
  exact ⟨_, u, encodes, decoded, view ▸ content⟩

/-- A peer that holds everything below the state vector has what the diff needs,
    whatever client the dependency belongs to. -/
theorem cut_ready {p d : DocState} {sv : StateVector}
    (covered : ∀ client clock, clock < sv.get client → (⟨client, clock⟩ : ID) ∈ p.ids) :
    p.Ready (diff d.pruned sv) ∧
      closure p.ids (diff d.pruned sv).blocks = p.ids ∪ d.ids := by
  have blocks : (diff d.pruned sv).blocks =
      {b ∈ d.integrated | sv.get b.id.client ≤ b.id.clock} := Set.union_empty _
  have sub : (diff d.pruned sv).blocks ⊆ d.integrated := blocks ▸ fun _ h => h.1
  have held : ∀ b ∈ d.integrated, b ∉ (diff d.pruned sv).blocks → key b ∈ p.ids := by
    intro b mem cut
    apply covered
    by_contra above
    exact cut (blocks ▸ ⟨mem, Nat.not_lt.mp above⟩)
  have grown := closure_cut_eq d.grounded sub held
  refine ⟨⟨complete_cut d.grounded sub held, ?_⟩, grown⟩
  rintro i (mem | none)
  · exact grown ▸ Or.inr (d.deletes_integrated mem)
  · exact none.elim

/-- A peer's own content with that of d beside it, and nothing parked. Under an
    id that both hold, the peer keeps its block. -/
structure MergeOf (peer d after : DocState) : Prop where
  integrated : after.integrated = peer.integrated ∪ {b ∈ d.integrated | b.id ∉ peer.ids}
  deletes : after.deletes = peer.deletes ∪ d.deletes
  clean : after.NothingParked

namespace MergeOf

variable {p d after other : DocState}

theorem ids (merged : MergeOf p d after) : after.ids = p.ids ∪ d.ids := by
  rw [DocState.ids, merged.integrated, keys_union]
  apply Set.Subset.antisymm
  · apply Set.union_subset_union_right
    exact keys_mono fun _ mem => mem.1
  · rintro i (held | ⟨b, mem, rfl⟩)
    · exact Or.inl held
    · by_cases held : b.id ∈ p.ids
      · exact Or.inl held
      · exact Or.inr ⟨b, ⟨mem, held⟩, rfl⟩

theorem unique (merged : MergeOf p d after) (again : MergeOf p d other) : after = other := by
  apply DocState.ext
  · rw [merged.integrated, again.integrated]
  · rw [merged.deletes, again.deletes]
  · rw [merged.clean.1, again.clean.1]
  · rw [merged.clean.2, again.clean.2]

theorem union (merged : MergeOf p d after)
    (agree : Set.InjOn Block.id (p.integrated ∪ d.integrated)) :
    after.integrated = p.integrated ∪ d.integrated := by
  rw [merged.integrated]
  apply Set.Subset.antisymm
  · exact Set.union_subset_union_right _ fun _ mem => mem.1
  · rintro b (mem | mem)
    · exact Or.inl mem
    · by_cases held : b.id ∈ p.ids
      · obtain ⟨b', mem', same⟩ := held
        exact Or.inl (agree (Or.inl mem') (Or.inr mem) same ▸ mem')
      · exact Or.inr ⟨mem, held⟩

end MergeOf

/-- Whatever is served against a state vector that the peer covers, the peer
    takes in whole. -/
theorem served_merge {p d after : DocState} {sv : StateVector} (clean : p.NothingParked)
    (covered : ∀ client clock, clock < sv.get client → (⟨client, clock⟩ : ID) ∈ p.ids)
    (step : Integrates p (diff d.pruned sv) after) : MergeOf p d after := by
  obtain ⟨ready, grown⟩ := cut_ready (d := d) covered
  have ids : after.ids = p.ids ∪ d.ids := (step.clean_ids clean).trans grown
  have offered : p.parked ∪ (diff d.pruned sv).blocks ⊆ d.integrated := by
    rw [clean.1, Set.empty_union]
    rintro b (⟨mem, _⟩ | none)
    · exact mem
    · exact none.elim
  refine ⟨?_, ?_, (step.clean_iff_ready clean).mpr ready⟩
  · apply Set.Subset.antisymm
    · intro b mem
      by_cases held : b.id ∈ p.ids
      · obtain ⟨b', mem', same⟩ := held
        exact Or.inl (after.single (step.keeps mem') mem same ▸ mem')
      · rcases step.fresh mem with own | ⟨taken, _⟩
        · exact Or.inl own
        · exact Or.inr ⟨offered taken, held⟩
    · rintro b (own | ⟨mem, absent⟩)
      · exact step.keeps own
      · have held : b.id ∈ after.ids := ids ▸ Or.inr ⟨b, mem, rfl⟩
        obtain ⟨b', mem', same⟩ := held
        rcases step.fresh mem' with own | ⟨taken, _⟩
        · exact absurd ⟨b', own, same⟩ absent
        · exact d.single (offered taken) mem same ▸ mem'
  · rw [step.deletes, clean.2, Set.union_empty, ids]
    apply Set.Subset.antisymm
    · rintro i ⟨own | mem | none, _⟩
      · exact Or.inl own
      · exact Or.inr mem
      · exact none.elim
    · rintro i (own | mem)
      · exact ⟨Or.inl own, Or.inl (p.deletes_integrated own)⟩
      · exact ⟨Or.inr (Or.inl mem), Or.inr (d.deletes_integrated mem)⟩

/-- The bytes are an update that brings the peer exactly what doc has integrated. -/
def Completes (doc peer : y.Doc) (bytes : Bytes) : Prop :=
  ∃ after, docApplyUpdate y peer bytes = (after, .ok ()) ∧
    MergeOf (y.view peer) (y.view doc) (y.view after)

theorem completes_of_diff (laws : y.Laws) {doc peer : y.Doc} {sv : StateVector} {bytes : Bytes}
    {u : y.Update} (clean : (y.view peer).NothingParked)
    (covered : ∀ client, sv.get client ≤ (y.stateVector peer).get client)
    (decoded : y.decodeV1 bytes = .ok u) (content : y.content u = diff (y.view doc).pruned sv) :
    Completes doc peer bytes := by
  refine ⟨(y.applyUpdate peer u).1, ?_, ?_⟩
  · rw [docApplyUpdate, decoded]
    exact apply_eq laws peer u
  · have step := laws.integrates peer u
    rw [content] at step
    apply served_merge clean _ step
    intro client clock below
    exact (laws.stateVector_counts peer client clock).mpr (below.trans_le (covered client))

theorem completes_same {doc peer : y.Doc} {bytes bytes' : Bytes} (one : Completes doc peer bytes)
    (two : Completes doc peer bytes') :
    y.view (docApplyUpdate y peer bytes).1 = y.view (docApplyUpdate y peer bytes').1 := by
  obtain ⟨after, applied, merged⟩ := one
  obtain ⟨after', applied', merged'⟩ := two
  rw [applied, applied']
  exact merged.unique merged'

theorem integratedUpdate_completes (laws : y.Laws) (doc : y.Doc) {peer : y.Doc} {sv : StateVector}
    (clean : (y.view peer).NothingParked)
    (covered : ∀ client, sv.get client ≤ (y.stateVector peer).get client) :
    ∃ bytes, integratedUpdate y doc sv = .ok bytes ∧ Completes doc peer bytes := by
  obtain ⟨bytes, u, served, decoded, content⟩ := integratedUpdate_spec laws.toRules doc sv
  exact ⟨bytes, served, completes_of_diff laws clean covered decoded content⟩

theorem rebuiltUpdate_completes (laws : y.Laws) (doc : y.Doc) {peer : y.Doc} {sv : StateVector}
    (clean : (y.view peer).NothingParked)
    (covered : ∀ client, sv.get client ≤ (y.stateVector peer).get client) :
    ∃ bytes, rebuiltUpdate y doc sv = .ok bytes ∧ Completes doc peer bytes := by
  obtain ⟨bytes, u, served, decoded, content⟩ := rebuiltUpdate_spec laws.toRules doc sv
  exact ⟨bytes, served, completes_of_diff laws clean covered decoded content⟩

theorem syncStep1_decodes (laws : y.Laws) (doc : y.Doc) :
    ∃ sv, y.messageDecode (syncStep1 y doc) = .ok (.sync (.syncStep1 sv), []) ∧
      ∀ client, sv.get client = (y.stateVector doc).get client := by
  obtain ⟨sv, decoded, same⟩ := laws.stateVector_roundtrip (y.stateVector doc)
  refine ⟨sv, ?_, same⟩
  have read := laws.decode_syncFrame (.syncStep1 sv) (y.stateVectorEncodeV1 (y.stateVector doc)) []
    decoded
  rw [List.append_nil] at read
  rw [syncStep1, laws.encode_syncStep1]
  exact read

/-- What integrated_update serves a peer with nothing parked is taken in whole,
    whichever path encoded it, and so is what is built on it. -/
theorem integrated_update_gap_free (laws : y.Laws) (doc peer : y.Doc)
    (clean : (y.view peer).NothingParked) :
    (∃ served, integratedUpdate y doc (y.stateVector peer) = .ok served ∧
      Completes doc peer served ∧
      (hasPending y doc = false →
        served = y.encodeStateAsUpdateV1 doc (y.stateVector peer) ∧
        ∃ rebuilt, rebuiltUpdate y doc (y.stateVector peer) = .ok rebuilt ∧
          y.view (docApplyUpdate y peer served).1 = y.view (docApplyUpdate y peer rebuilt).1)) ∧
    (∃ served, handleSyncMessage y doc (syncStep1 y peer) =
        (doc, .ok (0, 0, y.messageEncode (.sync (.syncStep2 served)))) ∧
      Completes doc peer served) ∧
    (∃ compacted, compactedStateUpdate y doc = .ok compacted ∧ Completes doc peer compacted) := by
  refine ⟨?_, ?_, ?_⟩
  · obtain ⟨served, ok, whole⟩ := integratedUpdate_completes laws doc clean (fun _ => Nat.le_refl _)
    refine ⟨served, ok, whole, fun unparked => ⟨?_, ?_⟩⟩
    · rw [hasPending, Bool.or_eq_false_iff] at unparked
      simpa [integratedUpdate, unparked] using ok.symm
    · obtain ⟨rebuilt, ok', whole'⟩ :=
        rebuiltUpdate_completes laws doc clean (fun _ => Nat.le_refl _)
      exact ⟨rebuilt, ok', completes_same whole whole'⟩
  · obtain ⟨sv, decoded, same⟩ := syncStep1_decodes laws peer
    obtain ⟨served, ok, whole⟩ :=
      integratedUpdate_completes laws doc clean (fun client => (same client).le)
    refine ⟨served, ?_, whole⟩
    simp [handleSyncMessage, decoded, ok, Except.map]
  · exact integratedUpdate_completes laws doc clean (fun _ => Nat.zero_le _)

theorem waiting_document_served : ∃ served,
    handleSyncMessage Reference.crate Reference.waiting
        (syncStep1 Reference.crate (Reference.Replica.after [⟨[Reference.typed 3 0 none], []⟩])) =
      (Reference.waiting,
        .ok (0, 0, Reference.crate.messageEncode (.sync (.syncStep2 served)))) ∧
      Completes (y := Reference.crate) Reference.waiting
        (Reference.Replica.after [⟨[Reference.typed 3 0 none], []⟩]) served :=
  (integrated_update_gap_free Reference.crate_laws _ _
    ((hasPending_eq_false_iff Reference.crate_laws.toRules _).mp rfl)).2.1

end Yrby.Serving
