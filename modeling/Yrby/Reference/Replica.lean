import Mathlib.Data.List.Perm.Subperm
import Mathlib.Order.MinMax
import Yrby.Reference.Codec

/- A document that can be run: lists of blocks and ids with the invariants of a
   DocState, and every operation the extension asks of yrs. -/
namespace Yrby.Reference
open Causal Document Wire

structure Replica where
  integrated : List Block
  deletes : List ID
  parked : List Block
  parkedDeletes : List ID
  grounded : Grounded (asSet integrated)
  single : (heldKeys integrated).Nodup
  deletes_integrated : ∀ i ∈ deletes, i ∈ heldKeys integrated
  parked_inert : Inert (keys (asSet integrated)) (asSet parked)
  parkedDeletes_outside : ∀ i ∈ parkedDeletes, i ∉ heldKeys integrated

namespace Replica

def state (r : Replica) : DocState where
  integrated := asSet r.integrated
  deletes := asSet r.deletes
  parked := asSet r.parked
  parkedDeletes := asSet r.parkedDeletes
  grounded := r.grounded
  single _ mem _ mem' same := List.inj_on_of_nodup_map r.single mem mem' same
  deletes_integrated _ mem := mem_heldKeys.mp (r.deletes_integrated _ mem)
  parked_inert := r.parked_inert
  parkedDeletes_outside _ mem held := r.parkedDeletes_outside _ mem (mem_heldKeys.mpr held)

def ids (r : Replica) : List ID := heldKeys r.integrated

theorem mem_ids {r : Replica} {i : ID} : i ∈ r.ids ↔ i ∈ r.state.ids := mem_heldKeys

def empty : Replica where
  integrated := []
  deletes := []
  parked := []
  parkedDeletes := []
  grounded := by simp [Grounded]
  single := List.nodup_nil
  deletes_integrated := by simp
  parked_inert := by simp [Inert]
  parkedDeletes_outside := by simp

def prune (r : Replica) : Replica where
  integrated := r.integrated
  deletes := r.deletes
  parked := []
  parkedDeletes := []
  grounded := r.grounded
  single := r.single
  deletes_integrated := r.deletes_integrated
  parked_inert := by simp [Inert]
  parkedDeletes_outside := by simp

def apply (r : Replica) (u : Delta) : Replica where
  integrated := (absorb r.integrated (r.parked ++ u.blocks)).1
  deletes := (r.deletes ++ r.parkedDeletes ++ u.deletes).filter
    (· ∈ heldKeys (absorb r.integrated (r.parked ++ u.blocks)).1)
  parked := (absorb r.integrated (r.parked ++ u.blocks)).2
  parkedDeletes := (r.parkedDeletes ++ u.deletes).filter
    (· ∉ heldKeys (absorb r.integrated (r.parked ++ u.blocks)).1)
  grounded := absorb_grounded _ r.grounded
  single := absorb_nodup _ r.single
  deletes_integrated i mem := by simpa using (List.mem_filter.mp mem).2
  parked_inert := absorb_inert _ _
  parkedDeletes_outside i mem := by simpa using (List.mem_filter.mp mem).2

theorem state_empty : empty.state = DocState.empty := by
  ext x <;> simp [state, empty, DocState.empty]

theorem state_prune (r : Replica) : r.prune.state = r.state.pruned := by
  ext x <;> simp [state, prune, DocState.pruned]

theorem apply_integrates (r : Replica) (u : Delta) :
    Integrates r.state u.content (r.apply u).state where
  ids := by
    change keys (asSet (absorb r.integrated (r.parked ++ u.blocks)).1) = _
    rw [absorb_keys, asSet_append]
    rfl
  keeps := (absorb_spec r.integrated (r.parked ++ u.blocks)).keeps
  fresh := by
    have fresh := absorb_fresh r.integrated (r.parked ++ u.blocks)
    rwa [asSet_append] at fresh
  parked := by
    change asSet (absorb r.integrated (r.parked ++ u.blocks)).2 = _
    rw [absorb_left, asSet_append]
    rfl
  deletes := by
    ext i
    simp only [state, apply, mem_asSet, List.mem_filter, List.mem_append, decide_eq_true_eq,
      mem_heldKeys, DocState.ids, Delta.content, Set.mem_inter_iff, Set.mem_union]
  parkedDeletes := by
    ext i
    simp only [state, apply, mem_asSet, List.mem_filter, List.mem_append, decide_eq_true_eq,
      mem_heldKeys, DocState.ids, Delta.content, Set.mem_sdiff, Set.mem_union]

/- A fresh document after a list of updates. -/
def after (updates : List Delta) : Replica := updates.foldl apply empty

/- The diff against a state vector, with the parked remainder merged back in. -/
def since (r : Replica) (sv : StateVector) : Delta where
  blocks := r.integrated.filter (fun b => decide (sv.get b.id.client ≤ b.id.clock)) ++ r.parked
  deletes := r.deletes ++ r.parkedDeletes

theorem since_content (r : Replica) (sv : StateVector) :
    (r.since sv).content = Yrs.diff r.state sv := by
  ext x <;> simp [since, Delta.content, Yrs.diff, state]

end Replica

/- One character typed by a client to the right of another one. -/
def typed (client clock : Nat) (origin : Option ID) : Block := ⟨⟨client, clock⟩, origin, none, none⟩

/- How far the clocks of a client run from zero without a gap. -/
def runFrom (ids : List ID) (client : Nat) : Nat → Nat → Nat
  | 0, k => k
  | fuel + 1, k => if ⟨client, k⟩ ∈ ids then runFrom ids client fuel (k + 1) else k

def run (ids : List ID) (client : Nat) : Nat := runFrom ids client ids.length 0

theorem runFrom_spec (ids : List ID) (client fuel k : Nat) :
    (∀ j, k ≤ j → j < runFrom ids client fuel k → ⟨client, j⟩ ∈ ids) ∧
      (runFrom ids client fuel k = k + fuel ∨ ⟨client, runFrom ids client fuel k⟩ ∉ ids) := by
  induction fuel generalizing k with
  | zero =>
    refine ⟨fun j le less => ?_, Or.inl rfl⟩
    simp only [runFrom] at less
    omega
  | succ fuel ih =>
    rw [runFrom]
    split
    · rename_i here
      obtain ⟨inside, stop⟩ := ih (k + 1)
      constructor
      · intro j le less
        by_cases same : j = k
        · exact same ▸ here
        · exact inside j (by omega) less
      · rcases stop with all | gap
        · exact Or.inl (by omega)
        · exact Or.inr gap
    · rename_i gap
      exact ⟨fun j le less => by omega, Or.inr gap⟩

theorem run_bound {ids : List ID} {client n : Nat}
    (inside : ∀ j < n, (⟨client, j⟩ : ID) ∈ ids) : n ≤ ids.length := by
  have nodup : ((List.range n).map fun j => (⟨client, j⟩ : ID)).Nodup :=
    List.nodup_range.map fun _ _ same => (ID.mk.inj same).2
  have sub : (List.range n).map (fun j => (⟨client, j⟩ : ID)) ⊆ ids := by
    intro i mem
    obtain ⟨j, less, rfl⟩ := List.mem_map.mp mem
    exact inside j (List.mem_range.mp less)
  simpa using (nodup.subperm sub).length_le

theorem lt_run_iff (ids : List ID) (client clock : Nat) :
    clock < run ids client ↔ ∀ j ≤ clock, (⟨client, j⟩ : ID) ∈ ids := by
  obtain ⟨inside, stop⟩ := runFrom_spec ids client ids.length 0
  constructor
  · exact fun less j le => inside j (Nat.zero_le _) (lt_of_le_of_lt le less)
  · intro all
    by_contra beyond
    rcases stop with whole | gap
    · have bound : clock + 1 ≤ ids.length := run_bound fun j less => all j (by omega)
      simp only [run, whole] at beyond
      omega
    · exact gap (all _ (Nat.not_lt.mp beyond))

def clients (ids : List ID) : List Nat := (ids.map ID.client).dedup

theorem mem_clients {ids : List ID} {client : Nat} :
    client ∈ clients ids ↔ ∃ i ∈ ids, i.client = client := by
  simp [clients]

def tabulate (l : List Nat) (f : Nat → Nat) : StateVector := ⟨l.map fun c => (c, f c)⟩

theorem lookup_tabulate (l : List Nat) (f : Nat → Nat) (client : Nat) :
    (tabulate l f).entries.lookup client = if client ∈ l then some (f client) else none := by
  induction l with
  | nil => rfl
  | cons c l ih =>
    simp only [tabulate, List.map_cons, List.lookup_cons] at ih ⊢
    by_cases same : client = c
    · simp [same]
    · have other : (client == c) = false := by simpa using same
      simp [other, same, ih]

theorem get_tabulate (l : List Nat) (f : Nat → Nat) (client : Nat) :
    (tabulate l f).get client = if client ∈ l then f client else 0 := by
  rw [StateVector.get, lookup_tabulate]
  split <;> rfl

/- The clocks a set of ids runs to, without entries at zero. -/
def vectorOf (ids : List ID) : StateVector :=
  tabulate ((clients ids).filter fun c => decide (0 < run ids c)) (run ids)

theorem get_vectorOf (ids : List ID) (client : Nat) :
    (vectorOf ids).get client = run ids client := by
  rw [vectorOf, get_tabulate]
  split
  · rfl
  · rename_i absent
    by_contra positive
    have first := (lt_run_iff ids client 0).mp (by omega) 0 (Nat.le_refl _)
    apply absent
    simp only [List.mem_filter, mem_clients, decide_eq_true_eq]
    exact ⟨⟨_, first, rfl⟩, by omega⟩

theorem vectorOf_positive (ids : List ID) (client : Nat) :
    (vectorOf ids).entries.lookup client ≠ some 0 := by
  rw [vectorOf, lookup_tabulate]
  split
  · rename_i mem
    have := (List.mem_filter.mp mem).2
    simp only [decide_eq_true_eq] at this
    simp only [ne_eq, Option.some.injEq]
    omega
  · simp

def clocksOf (ids : List ID) (client : Nat) : List Nat :=
  (ids.filter fun i => decide (i.client = client)).map ID.clock

theorem mem_clocksOf {ids : List ID} {client clock : Nat} :
    clock ∈ clocksOf ids client ↔ (⟨client, clock⟩ : ID) ∈ ids := by
  simp only [clocksOf, List.mem_map, List.mem_filter, decide_eq_true_eq]
  constructor
  · rintro ⟨⟨c, k⟩, ⟨mem, rfl⟩, rfl⟩
    exact mem
  · exact fun mem => ⟨_, ⟨mem, rfl⟩, rfl⟩

def lowest (ids : List ID) (client : Nat) : Nat := (clocksOf ids client).min?.getD 0

def lowerOf (ids : List ID) : StateVector := tabulate (clients ids) (lowest ids)

theorem lowest_spec {ids : List ID} {client clock : Nat} (mem : (⟨client, clock⟩ : ID) ∈ ids) :
    lowest ids client ≤ clock ∧ (⟨client, lowest ids client⟩ : ID) ∈ ids := by
  have inside := mem_clocksOf.mpr mem
  cases least : (clocksOf ids client).min? with
  | none => simp [List.min?_eq_none_iff.mp least] at inside
  | some k =>
    obtain ⟨attained, bound⟩ := List.min?_eq_some_iff.mp least
    rw [lowest, least]
    exact ⟨bound _ inside, mem_clocksOf.mp attained⟩

theorem get_lowerOf {ids : List ID} {i : ID} (mem : i ∈ ids) :
    (lowerOf ids).get i.client = lowest ids i.client := by
  rw [lowerOf, get_tabulate, if_pos (mem_clients.mpr ⟨i, mem, rfl⟩)]

def mergeDeltas (updates : List Bytes) : Except String Bytes :=
  (updates.mapM decodeDelta).map fun us =>
    encodeDelta ⟨us.flatMap Delta.blocks, us.flatMap Delta.deletes⟩

end Yrby.Reference
