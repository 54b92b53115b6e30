import Mathlib.Data.Set.Function

/- Items stored under keys, each naming the keys it needs. Everything here is
   about which keys a store can hold once a batch of items is offered to it. -/
namespace Causal

class Keyed (B : Type*) (I : outParam (Type*)) where
  key : B → I
  needs : B → List I

export Keyed (key needs)

variable {B I : Type*} [Keyed B I]

/- Keys held already, or brought by an offered item whose needs are reached. -/
inductive Reach (S : Set I) (U : Set B) : I → Prop where
  | base {i : I} (held : i ∈ S) : Reach S U i
  | step {b : B} (offered : b ∈ U) (met : ∀ i ∈ needs b, Reach S U i) : Reach S U (key b)

def closure (S : Set I) (U : Set B) : Set I := {i | Reach S U i}

def keys (U : Set B) : Set I := key '' U

def Met (S : Set I) (b : B) : Prop := ∀ i ∈ needs b, i ∈ S

def admitted (S : Set I) (U : Set B) : Set B := {b ∈ U | Met (closure S U) b}

def stuck (S : Set I) (U : Set B) : Set B := {b ∈ U | ¬ Met (closure S U) b}

def Complete (S : Set I) (U : Set B) : Prop := ∀ b ∈ U, Met (closure S U) b

def Inert (S : Set I) (U : Set B) : Prop := ∀ b ∈ U, ¬ Met S b

/-- A batch that an empty store takes in whole. -/
def Grounded (U : Set B) : Prop := Complete ∅ U

variable {S T : Set I} {U V W : Set B}

theorem met_mono {b : B} (le : S ⊆ T) (met : Met S b) : Met T b :=
  fun i mem => le (met i mem)

theorem subset_closure : S ⊆ closure S U := fun _ held => Reach.base held

theorem closure_step {b : B} (offered : b ∈ U) (met : Met (closure S U) b) :
    key b ∈ closure S U := Reach.step offered met

theorem closure_min (held : S ⊆ T) (closed : ∀ b ∈ U, Met T b → key b ∈ T) :
    closure S U ⊆ T := by
  intro i reach
  induction reach with
  | base h => exact held h
  | step offered _ ih => exact closed _ offered ih

theorem closure_mono (le : S ⊆ T) (sub : U ⊆ V) : closure S U ⊆ closure T V :=
  closure_min (le.trans subset_closure) fun _ offered met => closure_step (sub offered) met

theorem closure_subset_keys : closure S U ⊆ S ∪ keys U :=
  closure_min Set.subset_union_left fun _ offered _ => Or.inr ⟨_, offered, rfl⟩

theorem keys_mono (sub : U ⊆ V) : keys U ⊆ keys V := Set.image_mono sub

theorem keys_union : keys (U ∪ V) = keys U ∪ keys V := Set.image_union ..

@[simp] theorem keys_empty : keys (∅ : Set B) = (∅ : Set I) := Set.image_empty _

@[simp] theorem closure_empty : closure S (∅ : Set B) = S :=
  (closure_min subset_rfl (by simp)).antisymm subset_closure

/- Offering more once the store is closed is the same as offering all at once. -/
theorem closure_closure_union : closure (closure S U) V ⊆ closure S (U ∪ V) :=
  closure_min (closure_mono subset_rfl Set.subset_union_left)
    fun _ offered met => closure_step (Or.inr offered) met

theorem stuck_eq_empty_iff : stuck S U = ∅ ↔ Complete S U := by
  simp only [stuck, Complete, Set.eq_empty_iff_forall_notMem, Set.mem_sep_iff, not_and, not_not]

theorem complete_mono (le : S ⊆ T) (whole : Complete S U) : Complete T U :=
  fun b offered => met_mono (closure_mono le subset_rfl) (whole b offered)

theorem complete_closure (whole : Complete S U) : closure S U = S ∪ keys U := by
  refine closure_subset_keys.antisymm (Set.union_subset subset_closure ?_)
  rintro _ ⟨b, offered, rfl⟩
  exact closure_step offered (whole b offered)

theorem complete_of_met (met : ∀ b ∈ U, Met S b) : Complete S U :=
  fun b offered => met_mono subset_closure (met b offered)

@[simp] theorem complete_empty : Complete S (∅ : Set B) := by simp [Complete]

theorem closure_union_complete (first : Complete S U) :
    closure S (U ∪ V) = closure (S ∪ keys U) V := by
  apply Set.Subset.antisymm
  · apply closure_min (Set.subset_union_left.trans Causal.subset_closure)
    rintro b (offered | offered) met
    · exact subset_closure (Or.inr ⟨b, offered, rfl⟩)
    · exact closure_step offered met
  · rw [← complete_closure first]
    exact closure_closure_union

theorem complete_union_iff (first : Complete S U) :
    Complete S (U ∪ V) ↔ Complete (S ∪ keys U) V := by
  constructor
  · intro whole b offered
    rw [← closure_union_complete first]
    exact whole b (Or.inr offered)
  · rintro second b (offered | offered)
    · exact met_mono (closure_mono subset_rfl Set.subset_union_left) (first b offered)
    · rw [closure_union_complete first]
      exact second b offered

theorem grounded_closure (whole : Grounded U) : closure ∅ U = keys U := by
  rw [complete_closure whole, Set.empty_union]

/-- Nothing of W is new beside U: its keys are reached, and its needs met, without it. -/
structure Spare (S : Set I) (U W : Set B) : Prop where
  reached : keys W ⊆ closure S U
  met : ∀ b ∈ W, Met (closure S U) b

theorem closure_union_spare (spare : Spare S U W) : closure S (U ∪ W) = closure S U := by
  apply Set.Subset.antisymm _ (closure_mono subset_rfl Set.subset_union_left)
  apply closure_min subset_closure
  rintro b (offered | extra) met
  · exact closure_step offered met
  · exact spare.reached ⟨b, extra, rfl⟩

theorem stuck_union_spare (spare : Spare S U W) : stuck S (U ∪ W) = stuck S U := by
  ext b
  simp only [stuck, closure_union_spare spare, Set.mem_sep_iff, Set.mem_union]
  constructor
  · rintro ⟨offered | extra, unmet⟩
    · exact ⟨offered, unmet⟩
    · exact absurd (spare.met b extra) unmet
  · intro left
    exact ⟨Or.inl left.1, left.2⟩

theorem admitted_union_spare (spare : Spare S U W) : admitted S U ⊆ admitted S (U ∪ W) := by
  intro b taken
  refine ⟨Or.inl taken.1, ?_⟩
  rw [closure_union_spare spare]
  exact taken.2

/-- An inert batch offered beside another one adds nothing, as long as it is
    inert over everything the other one brings. -/
theorem closure_union_inert (inert : Inert (closure S U) V) :
    closure S (V ∪ U) = closure S U := by
  apply Set.Subset.antisymm _ (closure_mono subset_rfl Set.subset_union_right)
  apply closure_min subset_closure
  rintro b (parked | offered) met
  · exact absurd met (inert b parked)
  · exact closure_step offered met

theorem stuck_union_inert (inert : Inert (closure S U) V) :
    stuck S (V ∪ U) = V ∪ stuck S U := by
  ext b
  simp only [stuck, closure_union_inert inert, Set.mem_sep_iff, Set.mem_union]
  constructor
  · rintro ⟨parked | offered, unmet⟩
    · exact Or.inl parked
    · exact Or.inr ⟨offered, unmet⟩
  · rintro (parked | ⟨offered, unmet⟩)
    · exact ⟨Or.inl parked, inert b parked⟩
    · exact ⟨Or.inr offered, unmet⟩

theorem admitted_union_inert (inert : Inert (closure S U) V) :
    admitted S (V ∪ U) = admitted S U := by
  ext b
  simp only [admitted, closure_union_inert inert, Set.mem_sep_iff, Set.mem_union]
  constructor
  · rintro ⟨parked | offered, met⟩
    · exact absurd met (inert b parked)
    · exact ⟨offered, met⟩
  · rintro ⟨offered, met⟩
    exact ⟨Or.inr offered, met⟩

theorem closure_twice : closure (closure S U) (stuck S U ∪ V) = closure S (U ∪ V) := by
  apply Set.Subset.antisymm
  · have offered : stuck S U ∪ V ⊆ U ∪ V := Set.union_subset_union_left V fun _ left => left.1
    calc closure (closure S U) (stuck S U ∪ V)
        ⊆ closure (closure S U) (U ∪ V) := closure_mono subset_rfl offered
      _ ⊆ closure S (U ∪ (U ∪ V)) := closure_closure_union
      _ = closure S (U ∪ V) := by rw [← Set.union_assoc, Set.union_self]
  · apply closure_min (subset_closure.trans subset_closure)
    rintro b (offered | offered) met
    · by_cases first : Met (closure S U) b
      · exact subset_closure (closure_step offered first)
      · exact closure_step (Or.inl ⟨offered, first⟩) met
    · exact closure_step (Or.inr offered) met

theorem stuck_twice : stuck (closure S U) (stuck S U ∪ V) = stuck S (U ∪ V) := by
  have grow : closure S U ⊆ closure S (U ∪ V) := closure_mono subset_rfl Set.subset_union_left
  have same : closure (closure S U) (stuck S U ∪ V) = closure S (U ∪ V) := closure_twice
  ext b
  constructor
  · rintro ⟨⟨offered, _⟩ | offered, unmet⟩
    · exact ⟨Or.inl offered, same ▸ unmet⟩
    · exact ⟨Or.inr offered, same ▸ unmet⟩
  · rintro ⟨offered | offered, unmet⟩
    · exact ⟨Or.inl ⟨offered, fun met => unmet (met_mono grow met)⟩, same.symm ▸ unmet⟩
    · exact ⟨Or.inr offered, same.symm ▸ unmet⟩

theorem admitted_twice :
    admitted S U ∪ admitted (closure S U) (stuck S U ∪ V) ⊆ admitted S (U ∪ V) := by
  have grow : closure S U ⊆ closure S (U ∪ V) := closure_mono subset_rfl Set.subset_union_left
  rintro b (⟨offered, met⟩ | ⟨offered, met⟩)
  · exact ⟨Or.inl offered, met_mono grow met⟩
  · rw [closure_twice] at met
    exact ⟨offered.imp (fun left => left.1) id, met⟩

/-- Cutting a grounded batch: whatever is left out has its key in the store
    already, so the rest is still taken in whole and brings all the keys. -/
theorem closure_cut (whole : Grounded V)
    (held : ∀ b ∈ V, b ∉ W → key b ∈ S) : keys V ⊆ closure S W := by
  rw [← grounded_closure whole]
  apply closure_min (Set.empty_subset _)
  intro b mem met
  by_cases kept : b ∈ W
  · exact closure_step kept met
  · exact subset_closure (held b mem kept)

theorem complete_cut (whole : Grounded V) (sub : W ⊆ V)
    (held : ∀ b ∈ V, b ∉ W → key b ∈ S) : Complete S W := by
  intro b kept i need
  apply closure_cut whole held
  rw [← grounded_closure whole]
  exact whole b (sub kept) i need

theorem closure_cut_eq (whole : Grounded V) (sub : W ⊆ V)
    (held : ∀ b ∈ V, b ∉ W → key b ∈ S) : closure S W = S ∪ keys V := by
  apply Set.Subset.antisymm
  · exact closure_subset_keys.trans (Set.union_subset_union_right S (keys_mono sub))
  · exact Set.union_subset subset_closure (closure_cut whole held)

/-- Batches queued one after another, each whole over the store and the
    batches before it, are whole when offered together. -/
def joined (Us : List (Set B)) : Set B := {b | ∃ U ∈ Us, b ∈ U}

def Chained (S : Set I) : List (Set B) → Prop
  | [] => True
  | U :: rest => Complete S U ∧ Chained (S ∪ keys U) rest

@[simp] theorem joined_nil : joined ([] : List (Set B)) = ∅ := by simp [joined]

@[simp] theorem joined_cons {Us : List (Set B)} : joined (U :: Us) = U ∪ joined Us := by
  ext b; simp [joined]

theorem chained_mono {Us : List (Set B)} (le : S ⊆ T) (chain : Chained S Us) : Chained T Us := by
  induction Us generalizing S T with
  | nil => trivial
  | cons U rest ih =>
    exact ⟨complete_mono le chain.1, ih (Set.union_subset_union_left _ le) chain.2⟩

theorem chained_append {Us : List (Set B)} :
    Chained S (Us ++ [V]) ↔ Chained S Us ∧ Complete (S ∪ keys (joined Us)) V := by
  induction Us generalizing S with
  | nil => simp [Chained]
  | cons U rest ih =>
    simp only [List.cons_append, Chained, ih, joined_cons, keys_union, Set.union_assoc, and_assoc]

theorem chained_complete {Us : List (Set B)} (chain : Chained S Us) : Complete S (joined Us) := by
  induction Us generalizing S with
  | nil => simp
  | cons U rest ih =>
    rw [joined_cons]
    exact (complete_union_iff chain.1).mpr (ih chain.2)

end Causal
