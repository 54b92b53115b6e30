import Yrby.Document

/- A client document over a server one, and the contents the client has queued for
   it: whatever the client holds is on the server or queued, and the queue, offered
   from its head on, always has what it needs. -/
namespace Yrby.Document
open Causal

/-- The block is in the log of a document, integrated or still waiting there. -/
def DocState.Logs (server : DocState) (b : Block) : Prop := b.id ∈ server.ids ∨ b ∈ server.parked

/-- Nothing the server holds back refers to a block of c. -/
def DocState.Unaware (server : DocState) (c : Content) : Prop :=
  ∀ b ∈ server.parked, ∀ i ∈ needs b, i ∉ keys c.blocks

/-- A server document that moved on by taking in ready content only. -/
structure Settles (server server' : DocState) : Prop where
  ids : server.ids ⊆ server'.ids
  parked : server'.parked ⊆ server.parked
  resolved : ∀ b ∈ server.parked, server'.Logs b

structure Rooted (server mine : DocState) (queue : List Content) : Prop where
  ids : mine.ids ⊆ server.ids ∪ keys (Content.join queue).blocks
  parked : ∀ b ∈ mine.parked, server.Logs b
  chained : Chained server.ids (queue.map Content.blocks)
  deletes : (Content.join queue).deletes ⊆ server.ids ∪ keys (Content.join queue).blocks
  unaware : server.Unaware (Content.join queue)

theorem joined_blocks (queue : List Content) :
    joined (queue.map Content.blocks) = (Content.join queue).blocks := by
  ext b
  simp [joined, Content.join]

theorem Settles.refl (d : DocState) : Settles d d := ⟨subset_rfl, subset_rfl, fun _ mem => Or.inr mem⟩

theorem Settles.logs {d e : DocState} {b : Block} (settles : Settles d e) (logs : d.Logs b) : e.Logs b := by
  rcases logs with held | parked
  · exact Or.inl (settles.ids held)
  · exact settles.resolved b parked

theorem Settles.trans {d e f : DocState} (one : Settles d e) (two : Settles e f) : Settles d f :=
  ⟨one.ids.trans two.ids, two.parked.trans one.parked, fun b mem => two.logs (one.resolved b mem)⟩

theorem Integrates.settles {before after : DocState} {c : Content}
    (step : Integrates before c after) (ready : before.Ready c) : Settles before after where
  ids := step.ids_grow
  parked := by
    rw [step.parked]
    rintro b ⟨parked | offered, unmet⟩
    · exact parked
    · exact absurd (met_mono (Causal.closure_mono subset_rfl Set.subset_union_right) (ready.1 b offered)) unmet
  resolved b mem := by
    by_cases met : Met (closure before.ids (before.parked ∪ c.blocks)) b
    · left
      rw [step.ids]
      exact closure_step (Or.inl mem) met
    · right
      rw [step.parked]
      exact ⟨Or.inl mem, met⟩

namespace Rooted
variable {server server' mine mine' : DocState} {queue : List Content} {c : Content}

theorem born (logged : ∀ b ∈ mine.integrated ∪ mine.parked, server.Logs b) :
    Rooted server mine [] where
  ids := by
    have whole : keys mine.integrated ⊆ server.ids := by
      rw [← grounded_closure mine.grounded]
      apply closure_min (Set.empty_subset _)
      intro b mem met
      rcases logged b (Or.inl mem) with held | parked
      · exact held
      · exact absurd met (server.parked_inert b parked)
    exact whole.trans Set.subset_union_left
  parked b mem := logged b (Or.inr mem)
  chained := trivial
  deletes := by simp [Content.join]
  unaware := by simp [DocState.Unaware, Content.join]

/- What a client integrates is on the server or queued, because what the server
   holds back waits for nothing that is queued. -/
theorem ids_bound {offered : Set Block} (unaware : server.Unaware (Content.join queue))
    (held : mine.ids ⊆ server.ids ∪ keys (Content.join queue).blocks)
    (logged : ∀ b ∈ offered, server.Logs b ∨ b.id ∈ keys (Content.join queue).blocks) :
    closure mine.ids offered ⊆ server.ids ∪ keys (Content.join queue).blocks := by
  apply closure_min held
  intro b mem met
  rcases logged b mem with (held | parked) | queued
  · exact Or.inl held
  · refine absurd (fun i need => ?_) (server.parked_inert b parked)
    exact (met i need).resolve_right (unaware b parked i need)
  · exact Or.inr queued

theorem remote (rooted : Rooted server mine queue) (logged : ∀ b ∈ c.blocks, server.Logs b)
    (step : Integrates mine c mine') : Rooted server mine' queue where
  ids := by
    rw [step.ids]
    apply ids_bound rooted.unaware rooted.ids
    rintro b (parked | offered)
    · exact Or.inl (rooted.parked b parked)
    · exact Or.inl (logged b offered)
  parked b mem := by
    rcases step.parked_bound mem with parked | offered
    · exact rooted.parked b parked
    · exact logged b offered
  chained := rooted.chained
  deletes := rooted.deletes
  unaware := rooted.unaware

theorem edit (rooted : Rooted server mine queue) (ready : mine.Ready c)
    (unaware : server.Unaware c) (step : Integrates mine c mine') :
    Rooted server mine' (queue ++ [c]) := by
  have blocks : (Content.join (queue ++ [c])).blocks = (Content.join queue).blocks ∪ c.blocks := by
    rw [join_append, join_singleton]; rfl
  have deletes : (Content.join (queue ++ [c])).deletes = (Content.join queue).deletes ∪ c.deletes := by
    rw [join_append, join_singleton]; rfl
  have queued : server.ids ∪ keys (Content.join queue).blocks ⊆
      server.ids ∪ keys (Content.join (queue ++ [c])).blocks := by
    rw [blocks, keys_union, ← Set.union_assoc]
    exact Set.subset_union_left
  have own : keys c.blocks ⊆ keys (Content.join (queue ++ [c])).blocks := by
    rw [blocks, keys_union]
    exact Set.subset_union_right
  have both : server.Unaware (Content.join (queue ++ [c])) := by
    intro b parked i need
    rw [blocks, keys_union]
    rintro (old | new)
    · exact rooted.unaware b parked i need old
    · exact unaware b parked i need new
  have needsMet : Complete (server.ids ∪ keys (Content.join queue).blocks) c.blocks :=
    complete_mono rooted.ids ready.1
  constructor
  · rw [step.ids]
    apply ids_bound both (rooted.ids.trans queued)
    rintro b (parked | offered)
    · exact Or.inl (rooted.parked b parked)
    · exact Or.inr (own ⟨b, offered, rfl⟩)
  · intro b mem
    rw [step.parked] at mem
    obtain ⟨parked | offered, unmet⟩ := mem
    · exact rooted.parked b parked
    · exact absurd (met_mono (Causal.closure_mono subset_rfl Set.subset_union_right)
        (ready.1 b offered)) unmet
  · rw [List.map_append, List.map_singleton, chained_append, joined_blocks]
    exact ⟨rooted.chained, needsMet⟩
  · rw [deletes]
    rintro i (old | new)
    · exact queued (rooted.deletes old)
    · have within := closure_mono rooted.ids subset_rfl (ready.2 new)
      rw [complete_closure needsMet] at within
      rcases within with held | new
      · exact queued held
      · exact Or.inr (own new)
  · exact both

theorem later (rooted : Rooted server mine queue) (settles : Settles server server') :
    Rooted server' mine queue where
  ids := rooted.ids.trans (Set.union_subset_union_left _ settles.ids)
  parked b mem := settles.logs (rooted.parked b mem)
  chained := chained_mono settles.ids rooted.chained
  deletes := rooted.deletes.trans (Set.union_subset_union_left _ settles.ids)
  unaware b mem := rooted.unaware b (settles.parked mem)

theorem prune {first rest : List Content} (rooted : Rooted server mine (first ++ rest))
    (held : ∀ c ∈ first, keys c.blocks ⊆ server.ids) : Rooted server mine rest := by
  have inside : keys (Content.join first).blocks ⊆ server.ids := by
    rintro i ⟨b, ⟨c, mem, here⟩, rfl⟩
    exact held c mem ⟨b, here, rfl⟩
  have all : server.ids ∪ keys (Content.join (first ++ rest)).blocks ⊆
      server.ids ∪ keys (Content.join rest).blocks := by
    rw [join_append]
    change server.ids ∪ keys ((Content.join first).blocks ∪ (Content.join rest).blocks) ⊆ _
    rw [keys_union, ← Set.union_assoc, Set.union_eq_self_of_subset_right inside]
  have part : (Content.join rest).blocks ⊆ (Content.join (first ++ rest)).blocks := by
    rw [join_append]
    exact Set.subset_union_right
  refine ⟨rooted.ids.trans all, rooted.parked, ?_, ?_, ?_⟩
  · have chain := rooted.chained
    clear all part rooted
    induction first with
    | nil => exact chain
    | cons c first ih =>
      have rest := chained_mono (T := server.ids)
        (Set.union_subset subset_rfl (held c (by simp))) chain.2
      refine ih (fun c mem => held c (List.mem_cons_of_mem _ mem)) ?_ rest
      rintro i ⟨b, ⟨c, mem, here⟩, rfl⟩
      exact held c (List.mem_cons_of_mem _ mem) ⟨b, here, rfl⟩
  · have deletes : (Content.join rest).deletes ⊆ (Content.join (first ++ rest)).deletes := by
      rw [join_append]
      exact Set.subset_union_right
    exact (deletes.trans rooted.deletes).trans all
  · exact fun b mem i need queued => rooted.unaware b mem i need (keys_mono part queued)

theorem ready (rooted : Rooted server mine queue) : server.Ready (Content.join queue) := by
  have whole := chained_complete rooted.chained
  rw [joined_blocks] at whole
  exact ⟨whole, by rw [complete_closure whole]; exact rooted.deletes⟩

end Rooted

end Yrby.Document
