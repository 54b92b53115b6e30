import Yrby.Causal.Closure

/- What a Yjs document and a Yjs update hold, apart from their bytes. A struct
   covering n clocks is n blocks here, one a clock; a Skip in an update is a
   clock that no block of the update carries. Clocks are unbounded Nat. -/
namespace Yrby.Document
open Causal

abbrev Bytes := List UInt8

structure ID where
  client : Nat
  clock : Nat
  deriving DecidableEq, Repr

structure Block where
  id : ID
  origin : Option ID
  rightOrigin : Option ID
  parent : Option ID
  deriving DecidableEq, Repr

def ID.previous : ID → List ID
  | ⟨_, 0⟩ => []
  | ⟨client, clock + 1⟩ => [⟨client, clock⟩]

/- The block before it in its own client, and whatever it refers to in the
   blocks of another client. A reference into its own client is not checked. -/
def Block.needs (b : Block) : List ID :=
  b.id.previous ++
    ([b.origin, b.rightOrigin, b.parent].filterMap fun i => i).filter (·.client ≠ b.id.client)

instance : Keyed Block ID where
  key := Block.id
  needs := Block.needs

@[simp] theorem key_block (b : Block) : key b = b.id := rfl

/-- What a decoded update carries: blocks, and the ids it deletes. -/
@[ext] structure Content where
  blocks : Set Block
  deletes : Set ID

def Content.union (a b : Content) : Content := ⟨a.blocks ∪ b.blocks, a.deletes ∪ b.deletes⟩

def Content.join (cs : List Content) : Content :=
  ⟨{b | ∃ c ∈ cs, b ∈ c.blocks}, {i | ∃ c ∈ cs, i ∈ c.deletes}⟩

def Content.IsEmpty (c : Content) : Prop := c.blocks = ∅ ∧ c.deletes = ∅

/-- A document: a dependency-closed set of integrated blocks, deletions of some
    of them, and a parked remainder waiting for something that is missing. -/
@[ext] structure DocState where
  integrated : Set Block
  deletes : Set ID
  parked : Set Block
  parkedDeletes : Set ID
  grounded : Grounded integrated
  single : Set.InjOn Block.id integrated
  deletes_integrated : deletes ⊆ keys integrated
  parked_inert : Inert (keys integrated) parked
  parkedDeletes_outside : ∀ i ∈ parkedDeletes, i ∉ keys integrated

def DocState.ids (d : DocState) : Set ID := keys d.integrated

def DocState.empty : DocState where
  integrated := ∅
  deletes := ∅
  parked := ∅
  parkedDeletes := ∅
  grounded := complete_empty
  single := Set.injOn_empty _
  deletes_integrated := Set.empty_subset _
  parked_inert := fun _ h => h.elim
  parkedDeletes_outside := fun _ h => h.elim

def DocState.NothingParked (d : DocState) : Prop := d.parked = ∅ ∧ d.parkedDeletes = ∅

def DocState.pruned (d : DocState) : DocState where
  integrated := d.integrated
  deletes := d.deletes
  parked := ∅
  parkedDeletes := ∅
  grounded := d.grounded
  single := d.single
  deletes_integrated := d.deletes_integrated
  parked_inert := fun _ h => h.elim
  parkedDeletes_outside := fun _ h => h.elim

/-- All of c is integrated in d already. -/
def DocState.Contains (d : DocState) (c : Content) : Prop :=
  keys c.blocks ⊆ d.ids ∧ c.deletes ⊆ d.deletes

/-- Over exactly the integrated content of d, nothing of c would be parked. -/
def DocState.Ready (d : DocState) (c : Content) : Prop :=
  Complete d.ids c.blocks ∧ c.deletes ⊆ closure d.ids c.blocks

/-- What applying c to a document does: the parked blocks and those of c are
    offered together, whatever has its dependencies is taken in (the first block
    of an id wins), deletions reach the blocks that are there, the rest parks. -/
structure Integrates (before : DocState) (c : Content) (after : DocState) : Prop where
  ids : after.ids = closure before.ids (before.parked ∪ c.blocks)
  keeps : before.integrated ⊆ after.integrated
  fresh : after.integrated ⊆
    before.integrated ∪ admitted before.ids (before.parked ∪ c.blocks)
  parked : after.parked = stuck before.ids (before.parked ∪ c.blocks)
  deletes : after.deletes = (before.deletes ∪ before.parkedDeletes ∪ c.deletes) ∩ after.ids
  parkedDeletes : after.parkedDeletes = (before.parkedDeletes ∪ c.deletes) \ after.ids

variable {d before after : DocState} {c : Content}

@[simp] theorem ids_empty : DocState.empty.ids = ∅ := keys_empty

@[simp] theorem ids_pruned (d : DocState) : d.pruned.ids = d.ids := rfl

@[simp] theorem deletes_pruned (d : DocState) : d.pruned.deletes = d.deletes := rfl

@[simp] theorem integrated_pruned (d : DocState) : d.pruned.integrated = d.integrated := rfl

theorem join_append (one two : List Content) :
    Content.join (one ++ two) = (Content.join one).union (Content.join two) := by
  ext x <;> simp [Content.join, Content.union, or_and_right, exists_or]

theorem join_singleton (c : Content) : Content.join [c] = c := by
  ext x <;> simp [Content.join]

/-- Where an id names one block, what is contained is integrated block by block. -/
theorem DocState.Contains.integrated (contains : d.Contains c)
    (agree : Set.InjOn Block.id (d.integrated ∪ c.blocks)) : c.blocks ⊆ d.integrated := by
  intro b mem
  obtain ⟨held, there, same⟩ := contains.1 ⟨b, mem, rfl⟩
  exact agree (Or.inl there) (Or.inr mem) same ▸ there

theorem nothingParked_pruned (d : DocState) : d.pruned.NothingParked := ⟨rfl, rfl⟩

theorem pruned_eq_self (clean : d.NothingParked) : d.pruned = d := by
  ext x
  · rfl
  · rfl
  · rw [clean.1]; rfl
  · rw [clean.2]; rfl

/-- The clocks of one client held by a document start at zero without a gap. -/
theorem ids_downward {client clock j : Nat} (held : (⟨client, clock⟩ : ID) ∈ d.ids)
    (le : j ≤ clock) : (⟨client, j⟩ : ID) ∈ d.ids := by
  induction clock with
  | zero =>
    obtain rfl : j = 0 := by omega
    exact held
  | succ n ih =>
    by_cases last : j = n + 1
    · exact last ▸ held
    · apply ih _ (by omega)
      obtain ⟨b, mem, eq⟩ := held
      have met := d.grounded b mem
      rw [grounded_closure d.grounded] at met
      apply met
      change _ ∈ b.needs
      have : b.id = ⟨client, n + 1⟩ := eq
      simp [Block.needs, this, ID.previous]

theorem contains_mono {d e : DocState} (ids : d.ids ⊆ e.ids) (deletes : d.deletes ⊆ e.deletes)
    (held : d.Contains c) : e.Contains c :=
  ⟨held.1.trans ids, held.2.trans deletes⟩

theorem ready_mono {d e : DocState} (ids : d.ids ⊆ e.ids) (ready : d.Ready c) : e.Ready c :=
  ⟨complete_mono ids ready.1, ready.2.trans (closure_mono ids subset_rfl)⟩

namespace Integrates

theorem ids_grow (step : Integrates before c after) : before.ids ⊆ after.ids := by
  rw [step.ids]
  exact Causal.subset_closure

theorem deletes_grow (step : Integrates before c after) : before.deletes ⊆ after.deletes := by
  intro i mem
  rw [step.deletes]
  exact ⟨Or.inl (Or.inl mem), step.ids_grow (before.deletes_integrated mem)⟩

theorem parked_bound (step : Integrates before c after) :
    after.parked ⊆ before.parked ∪ c.blocks := by
  rw [step.parked]
  exact fun _ left => left.1

theorem ready_ids (step : Integrates before c after) (ready : before.Ready c) :
    before.ids ∪ keys c.blocks ⊆ after.ids := by
  rw [step.ids, ← complete_closure ready.1]
  exact closure_mono subset_rfl Set.subset_union_right

theorem ready_contains (step : Integrates before c after) (ready : before.Ready c) :
    after.Contains c := by
  have ids := step.ready_ids ready
  refine ⟨Set.subset_union_right.trans ids, fun i mem => ?_⟩
  rw [step.deletes]
  refine ⟨Or.inr mem, ids ?_⟩
  rw [← complete_closure ready.1]
  exact ready.2 mem

theorem clean_ids (step : Integrates before c after) (clean : before.NothingParked) :
    after.ids = closure before.ids c.blocks := by
  rw [step.ids, clean.1, Set.empty_union]

theorem clean_iff_ready (step : Integrates before c after) (clean : before.NothingParked) :
    after.NothingParked ↔ before.Ready c := by
  have ids := step.clean_ids clean
  have parked := step.parked
  have parkedDeletes := step.parkedDeletes
  rw [clean.1, Set.empty_union] at parked
  rw [clean.2, Set.empty_union, ids] at parkedDeletes
  rw [DocState.NothingParked, parked, parkedDeletes, stuck_eq_empty_iff, Set.sdiff_eq_empty]
  rfl

theorem refl (d : DocState) : Integrates d ⟨∅, ∅⟩ d := by
  have inert : closure d.ids d.parked = d.ids := by
    apply Set.Subset.antisymm _ Causal.subset_closure
    exact closure_min subset_rfl fun b parked met => absurd met (d.parked_inert b parked)
  refine ⟨?_, subset_rfl, Set.subset_union_left, ?_, ?_, ?_⟩
  · rw [Set.union_empty, inert]
  · rw [Set.union_empty]
    ext b
    simp only [stuck, inert, Set.mem_sep_iff]
    exact ⟨fun parked => ⟨parked, d.parked_inert b parked⟩, fun left => left.1⟩
  · ext i
    simp only [Set.union_empty, Set.mem_inter_iff, Set.mem_union]
    constructor
    · exact fun mem => ⟨Or.inl mem, d.deletes_integrated mem⟩
    · rintro ⟨mem | parked, held⟩
      · exact mem
      · exact absurd held (d.parkedDeletes_outside i parked)
  · ext i
    simp only [Set.union_empty, Set.mem_sdiff]
    exact ⟨fun parked => ⟨parked, d.parkedDeletes_outside i parked⟩, fun parked => parked.1⟩

/-- Applying one batch of content after another is applying the two as one. -/
theorem trans {mid : DocState} {c' : Content} (one : Integrates before c mid)
    (two : Integrates mid c' after) : Integrates before (c.union c') after := by
  have ids : after.ids = closure before.ids (before.parked ∪ (c.blocks ∪ c'.blocks)) := by
    rw [two.ids, one.ids, one.parked, closure_twice, Set.union_assoc]
  -- a deletion of the first batch has reached its block in mid, or waits there
  have kept : mid.deletes ∪ mid.parkedDeletes =
      before.deletes ∪ before.parkedDeletes ∪ c.deletes := by
    rw [one.deletes, one.parkedDeletes]
    ext i
    have here : i ∈ before.deletes → i ∈ mid.ids := fun mem =>
      one.ids_grow (before.deletes_integrated mem)
    simp only [Set.mem_union, Set.mem_inter_iff, Set.mem_sdiff]
    tauto
  refine ⟨ids, one.keeps.trans two.keeps, ?_, ?_, ?_, ?_⟩
  · intro b mem
    change b ∈ before.integrated ∪ admitted before.ids (before.parked ∪ (c.blocks ∪ c'.blocks))
    rw [← Set.union_assoc]
    rcases two.fresh mem with early | late
    · rcases one.fresh early with held | taken
      · exact Or.inl held
      · exact Or.inr (admitted_twice (Or.inl taken))
    · rw [one.ids, one.parked] at late
      exact Or.inr (admitted_twice (Or.inr late))
  · rw [two.parked, one.ids, one.parked, stuck_twice, Set.union_assoc]
    rfl
  · rw [two.deletes, kept, Set.union_assoc _ c.deletes]
    rfl
  · rw [two.parkedDeletes]
    ext i
    have early : i ∈ mid.parkedDeletes ↔ i ∈ before.parkedDeletes ∪ c.deletes ∧ i ∉ mid.ids := by
      rw [one.parkedDeletes, Set.mem_sdiff]
    have grow : i ∈ mid.ids → i ∈ after.ids := fun held => two.ids_grow held
    simp only [Content.union, Set.mem_sdiff, Set.mem_union] at early ⊢
    tauto

/-- Two documents that took in the same content differ at most in which block they hold
    under an id that several blocks came with. -/
structure Alike (d e : DocState) : Prop where
  ids : d.ids = e.ids
  deletes : d.deletes = e.deletes
  parked : d.parked = e.parked
  parkedDeletes : d.parkedDeletes = e.parkedDeletes

theorem Alike.symm {d e : DocState} (same : Alike d e) : Alike e d :=
  ⟨same.ids.symm, same.deletes.symm, same.parked.symm, same.parkedDeletes.symm⟩

theorem Alike.trans {d e f : DocState} (one : Alike d e) (two : Alike e f) : Alike d f :=
  ⟨one.ids.trans two.ids, one.deletes.trans two.deletes, one.parked.trans two.parked,
    one.parkedDeletes.trans two.parkedDeletes⟩

theorem alike {other : DocState} (one : Integrates before c after)
    (two : Integrates before c other) : Alike after other where
  ids := by rw [one.ids, two.ids]
  deletes := by rw [one.deletes, two.deletes, one.ids, two.ids]
  parked := by rw [one.parked, two.parked]
  parkedDeletes := by rw [one.parkedDeletes, two.parkedDeletes, one.ids, two.ids]

theorem congr {before' after' : DocState} (same : Alike before before')
    (one : Integrates before c after) (two : Integrates before' c after') : Alike after after' where
  ids := by rw [one.ids, two.ids, same.ids, same.parked]
  deletes := by
    rw [one.deletes, two.deletes, one.ids, two.ids, same.ids, same.parked, same.deletes,
      same.parkedDeletes]
  parked := by rw [one.parked, two.parked, same.ids, same.parked]
  parkedDeletes := by
    rw [one.parkedDeletes, two.parkedDeletes, one.ids, two.ids, same.ids, same.parked,
      same.parkedDeletes]

theorem beside {extra : Set Block} (step : Integrates before c after)
    (spare : Spare before.ids (before.parked ∪ c.blocks) extra) :
    Integrates before ⟨c.blocks ∪ extra, c.deletes⟩ after where
  ids := by rw [← Set.union_assoc, closure_union_spare spare, step.ids]
  keeps := step.keeps
  fresh := by
    intro b mem
    rw [← Set.union_assoc]
    rcases step.fresh mem with held | taken
    · exact Or.inl held
    · exact Or.inr (admitted_union_spare spare taken)
  parked := by rw [← Set.union_assoc, stuck_union_spare spare, step.parked]
  deletes := step.deletes
  parkedDeletes := step.parkedDeletes

theorem integrated_bound (step : Integrates before c after) :
    after.integrated ⊆ before.integrated ∪ before.parked ∪ c.blocks := by
  intro b mem
  rw [Set.union_assoc]
  rcases step.fresh mem with held | taken
  · exact Or.inl held
  · exact Or.inr taken.1

theorem same {other : DocState} (one : Integrates before c after)
    (two : Integrates before c other)
    (agree : Set.InjOn Block.id (before.integrated ∪ before.parked ∪ c.blocks)) :
    after = other := by
  obtain ⟨ids, deletes, parked, parkedDeletes⟩ := one.alike two
  have within : ∀ {d e : DocState}, Integrates before c d → Integrates before c e →
      d.ids = e.ids → d.integrated ⊆ e.integrated := by
    intro d e left right ids b mem
    have held : b.id ∈ e.ids := ids ▸ ⟨b, mem, rfl⟩
    obtain ⟨b', mem', same⟩ := held
    exact agree (right.integrated_bound mem') (left.integrated_bound mem) same ▸ mem'
  apply DocState.ext
  · exact (within one two ids).antisymm (within two one ids.symm)
  · exact deletes
  · exact parked
  · exact parkedDeletes

end Integrates

end Yrby.Document
