import Yrby.Readiness

/- What update_advances_doc says of updates that are not ready, for a caller that
   asks it without the readiness gate. -/
namespace Yrby.Duplicates
open Causal Document Wire Yrs Protocol Readiness

/-- No block of c that d could integrate is new to it. -/
def Stalls (d : DocState) (c : Content) : Prop := ∀ b ∈ c.blocks, Met d.ids b → b.id ∈ d.ids

/-- What d cannot integrate of c is parked there already, and so are its deletes. -/
def Parks (d : DocState) (c : Content) : Prop :=
  (∀ b ∈ c.blocks, Met d.ids b ∨ b ∈ d.parked) ∧ c.deletes ⊆ d.deletes ∪ d.parkedDeletes

variable {d e : DocState} {c : Content}

theorem ids_same_iff (step : Integrates d c e) : e.ids = d.ids ↔ Stalls d c := by
  rw [step.ids]
  constructor
  · intro same b mem met
    rw [← same]
    exact closure_step (Or.inr mem) (met_mono Causal.subset_closure met)
  · intro stalls
    apply Set.Subset.antisymm _ Causal.subset_closure
    apply closure_min subset_rfl
    rintro b (parked | offered) met
    · exact absurd met (d.parked_inert b parked)
    · exact stalls b offered met

theorem same_iff (step : Integrates d c e) : e = d ↔ Stalls d c ∧ Parks d c := by
  have still : ∀ stalls : Stalls d c, closure d.ids (d.parked ∪ c.blocks) = d.ids :=
    fun stalls => step.ids.symm.trans ((ids_same_iff step).mpr stalls)
  constructor
  · rintro rfl
    have stalls := (ids_same_iff step).mp rfl
    refine ⟨stalls, fun b mem => ?_, fun i mem => ?_⟩
    · by_cases met : Met e.ids b
      · exact Or.inl met
      · right
        rw [step.parked]
        exact ⟨Or.inr mem, (still stalls).symm ▸ met⟩
    · by_cases held : i ∈ e.ids
      · left
        rw [step.deletes]
        exact ⟨Or.inr mem, held⟩
      · right
        rw [step.parkedDeletes]
        exact ⟨Or.inr mem, held⟩
  · rintro ⟨stalls, parks, deletes⟩
    have ids := (ids_same_iff step).mpr stalls
    apply DocState.ext
    · exact integrated_unchanged step ids
    · rw [step.deletes, ids]
      apply Set.Subset.antisymm
      · rintro i ⟨(mem | parked) | new, here⟩
        · exact mem
        · exact absurd here (d.parkedDeletes_outside i parked)
        · exact (deletes new).resolve_right fun parked => d.parkedDeletes_outside i parked here
      · exact fun i mem => ⟨Or.inl (Or.inl mem), d.deletes_integrated mem⟩
    · rw [step.parked, stuck, still stalls]
      apply Set.Subset.antisymm
      · rintro b ⟨parked | offered, unmet⟩
        · exact parked
        · exact (parks b offered).resolve_left unmet
      · exact fun b parked => ⟨Or.inl parked, d.parked_inert b parked⟩
    · rw [step.parkedDeletes, ids]
      apply Set.Subset.antisymm
      · rintro i ⟨parked | new, absent⟩
        · exact parked
        · exact (deletes new).resolve_left fun mem => absent (d.deletes_integrated mem)
      · exact fun i parked => ⟨Or.inl parked, d.parkedDeletes_outside i parked⟩

variable {y : Yrs}

end Yrby.Duplicates
