import Mathlib.Data.List.Nodup
import Yrby.Causal.Closure

/- Taking in a finite batch, item by item: a pass takes every item whose needs
   are held by then, and passes are repeated until one changes nothing. -/
namespace Causal

variable {B I : Type*} [Keyed B I]

def heldKeys (taken : List B) : List I := taken.map key

def asSet {A : Type*} (l : List A) : Set A := {a | a ∈ l}

@[simp] theorem mem_asSet {A : Type*} {l : List A} {a : A} : a ∈ asSet l ↔ a ∈ l := Iff.rfl

@[simp] theorem asSet_nil {A : Type*} : asSet ([] : List A) = ∅ := by ext; simp

@[simp] theorem asSet_append {A : Type*} (l m : List A) : asSet (l ++ m) = asSet l ∪ asSet m := by
  ext; simp

theorem mem_heldKeys {taken : List B} {i : I} : i ∈ heldKeys taken ↔ i ∈ keys (asSet taken) := by
  simp [heldKeys, keys]

/-- What holds between a store and an offer, and the store and the rest after
    some of the offer was taken in. -/
structure Absorbing (taken offered after left : List B) : Prop where
  keeps : ∀ b ∈ taken, b ∈ after
  fresh : ∀ b ∈ after, b ∈ taken ∨ b ∈ offered ∧ Met (keys (asSet after)) b
  handled : ∀ b ∈ offered, b ∈ left ∨
    Met (keys (asSet after)) b ∧ key b ∈ keys (asSet after)
  rest : ∀ b ∈ left, b ∈ offered
  reached : keys (asSet after) ⊆ closure (keys (asSet taken)) (asSet offered)
  nodup : (heldKeys taken).Nodup → (heldKeys after).Nodup
  grounded : Grounded (asSet taken) → Grounded (asSet after)

variable {taken offered middle after left rest : List B}

theorem Absorbing.refl (taken offered : List B) : Absorbing taken offered taken offered where
  keeps _ mem := mem
  fresh _ mem := Or.inl mem
  handled _ mem := Or.inl mem
  rest _ mem := mem
  reached := subset_closure
  nodup nodup := nodup
  grounded whole := whole

theorem Absorbing.keys_grow (step : Absorbing taken offered after left) :
    keys (asSet taken) ⊆ keys (asSet after) := keys_mono step.keeps

theorem Absorbing.trans (one : Absorbing taken offered middle rest)
    (two : Absorbing middle rest after left) : Absorbing taken offered after left where
  keeps b mem := two.keeps b (one.keeps b mem)
  fresh b mem := by
    rcases two.fresh b mem with held | ⟨offer, met⟩
    · rcases one.fresh b held with held | ⟨offer, met⟩
      · exact Or.inl held
      · exact Or.inr ⟨offer, met_mono two.keys_grow met⟩
    · exact Or.inr ⟨one.rest b offer, met⟩
  handled b mem := by
    rcases one.handled b mem with later | ⟨met, here⟩
    · exact two.handled b later
    · exact Or.inr ⟨met_mono two.keys_grow met, two.keys_grow here⟩
  rest b mem := one.rest b (two.rest b mem)
  reached := by
    apply two.reached.trans
    apply closure_min one.reached
    intro b offer met
    exact closure_step (one.rest b offer) met
  nodup nodup := two.nodup (one.nodup nodup)
  grounded whole := two.grounded (one.grounded whole)

/- Skipping the head of an offer, however it was settled. -/
theorem Absorbing.cons_left {b : B} (step : Absorbing taken rest after left) :
    Absorbing taken (b :: rest) after (b :: left) where
  keeps := step.keeps
  fresh c mem := by
    rcases step.fresh c mem with held | ⟨offer, met⟩
    · exact Or.inl held
    · exact Or.inr ⟨List.mem_cons_of_mem _ offer, met⟩
  handled c mem := by
    rcases List.mem_cons.mp mem with rfl | offer
    · exact Or.inl List.mem_cons_self
    · rcases step.handled c offer with later | done
      · exact Or.inl (List.mem_cons_of_mem _ later)
      · exact Or.inr done
  rest c mem := by
    rcases List.mem_cons.mp mem with rfl | later
    · exact List.mem_cons_self
    · exact List.mem_cons_of_mem _ (step.rest c later)
  reached := step.reached.trans (closure_mono subset_rfl fun _ => List.mem_cons_of_mem _)
  nodup := step.nodup
  grounded := step.grounded

theorem Absorbing.drop {b : B} (met : Met (keys (asSet taken)) b)
    (known : key b ∈ keys (asSet taken)) : Absorbing taken (b :: rest) taken rest where
  keeps _ mem := mem
  fresh _ mem := Or.inl mem
  handled c mem := by
    rcases List.mem_cons.mp mem with rfl | offer
    · exact Or.inr ⟨met, known⟩
    · exact Or.inl offer
  rest _ mem := List.mem_cons_of_mem _ mem
  reached := subset_closure
  nodup nodup := nodup
  grounded whole := whole

theorem Absorbing.take {b : B} (met : Met (keys (asSet taken)) b)
    (new : key b ∉ keys (asSet taken)) : Absorbing taken (b :: rest) (taken ++ [b]) rest := by
  have grow : keys (asSet taken) ⊆ keys (asSet (taken ++ [b])) :=
    keys_mono fun _ mem => List.mem_append_left _ mem
  refine ⟨fun c mem => List.mem_append_left _ mem, ?_, ?_, ?_, ?_, ?_, ?_⟩
  · intro c mem
    rcases List.mem_append.mp mem with held | last
    · exact Or.inl held
    · obtain rfl := List.mem_singleton.mp last
      exact Or.inr ⟨List.mem_cons_self, met_mono grow met⟩
  · intro c mem
    rcases List.mem_cons.mp mem with rfl | offer
    · exact Or.inr ⟨met_mono grow met, ⟨c, by simp, rfl⟩⟩
    · exact Or.inl offer
  · exact fun c mem => List.mem_cons_of_mem _ mem
  · rintro _ ⟨c, mem, rfl⟩
    rcases List.mem_append.mp mem with held | last
    · exact subset_closure ⟨c, held, rfl⟩
    · obtain rfl := List.mem_singleton.mp last
      exact closure_step List.mem_cons_self (met_mono subset_closure met)
  · intro nodup
    rw [heldKeys, List.map_append, List.nodup_append]
    refine ⟨nodup, List.nodup_singleton _, ?_⟩
    rintro i mem j last rfl
    obtain rfl : i = key b := by simpa using last
    exact new (mem_heldKeys.mp mem)
  · intro whole
    rw [asSet_append]
    apply (complete_union_iff whole).mpr
    rw [Set.empty_union]
    apply complete_of_met
    intro c mem
    obtain rfl := List.mem_singleton.mp mem
    exact met

variable [DecidableEq I]

def metBy (taken : List B) (b : B) : Bool := (needs b).all fun i => decide (i ∈ heldKeys taken)

/- An item whose key is held already is dropped: the first one of a key stays. -/
def absorbPass : List B → List B → List B × List B
  | taken, [] => (taken, [])
  | taken, b :: rest =>
    if metBy taken b then
      if key b ∈ heldKeys taken then absorbPass taken rest
      else absorbPass (taken ++ [b]) rest
    else
      ((absorbPass taken rest).1, b :: (absorbPass taken rest).2)

def absorbPasses : Nat → List B → List B → List B × List B
  | 0, taken, offered => (taken, offered)
  | n + 1, taken, offered =>
    absorbPasses n (absorbPass taken offered).1 (absorbPass taken offered).2

/-- The store once the offered items are in it, and the items left over. -/
def absorb (taken offered : List B) : List B × List B :=
  absorbPasses offered.length taken offered

theorem metBy_iff {taken : List B} {b : B} : metBy taken b = true ↔ Met (keys (asSet taken)) b := by
  simp [metBy, Met, mem_heldKeys]

theorem absorbPass_spec (taken offered : List B) :
    Absorbing taken offered (absorbPass taken offered).1 (absorbPass taken offered).2 := by
  induction offered generalizing taken with
  | nil => exact Absorbing.refl taken []
  | cons b rest ih =>
    rw [absorbPass]
    split
    · rename_i met
      have met := metBy_iff.mp met
      split
      · rename_i known
        exact (Absorbing.drop met (mem_heldKeys.mp known)).trans (ih taken)
      · rename_i new
        exact (Absorbing.take met fun mem => new (mem_heldKeys.mpr mem)).trans (ih _)
    · exact (ih taken).cons_left

theorem absorbPass_length (taken offered : List B) :
    (absorbPass taken offered).2.length < offered.length ∨
      absorbPass taken offered = (taken, offered) ∧ Inert (keys (asSet taken)) (asSet offered) := by
  induction offered generalizing taken with
  | nil => exact Or.inr ⟨rfl, by simp [Inert]⟩
  | cons b rest ih =>
    rw [absorbPass]
    split
    · rename_i met
      have bound : ∀ t : List B, (absorbPass t rest).2.length ≤ rest.length := by
        intro t
        rcases ih t with less | ⟨same, _⟩
        · exact less.le
        · rw [same]
      split
      · exact Or.inl (Nat.lt_succ_of_le (bound _))
      · exact Or.inl (Nat.lt_succ_of_le (bound _))
    · rename_i unmet
      rcases ih taken with less | ⟨same, inert⟩
      · exact Or.inl (Nat.succ_lt_succ less)
      · refine Or.inr ⟨by rw [same], ?_⟩
        intro c mem
        rcases List.mem_cons.mp mem with rfl | later
        · exact fun met => unmet (metBy_iff.mpr met)
        · exact inert c later

theorem absorbPasses_inert (n : Nat) (taken : List B) (inert : Inert (keys (asSet taken)) (asSet offered)) :
    absorbPasses n taken offered = (taken, offered) := by
  induction n with
  | zero => rfl
  | succ n ih =>
    have same : absorbPass taken offered = (taken, offered) := by
      clear ih
      induction offered with
      | nil => rfl
      | cons b rest ih =>
        have unmet : metBy taken b = false := by
          rw [← Bool.not_eq_true, metBy_iff]
          exact inert b List.mem_cons_self
        simp [absorbPass, unmet, ih fun c mem => inert c (List.mem_cons_of_mem _ mem)]
    rw [absorbPasses, same, ih]

theorem absorbPasses_spec (n : Nat) (taken offered : List B) (enough : offered.length ≤ n) :
    Absorbing taken offered (absorbPasses n taken offered).1 (absorbPasses n taken offered).2 ∧
      Inert (keys (asSet (absorbPasses n taken offered).1))
        (asSet (absorbPasses n taken offered).2) := by
  induction n generalizing taken offered with
  | zero =>
    obtain rfl : offered = [] := List.length_eq_zero_iff.mp (Nat.le_zero.mp enough)
    exact ⟨Absorbing.refl taken [], by simp [absorbPasses, Inert]⟩
  | succ n ih =>
    rw [absorbPasses]
    have pass := absorbPass_spec taken offered
    rcases absorbPass_length taken offered with less | ⟨same, inert⟩
    · obtain ⟨rest, inert⟩ := ih (absorbPass taken offered).1
        (absorbPass taken offered).2 (by omega)
      exact ⟨pass.trans rest, inert⟩
    · rw [same, absorbPasses_inert n taken inert]
      exact ⟨Absorbing.refl taken offered, inert⟩

theorem absorb_spec (taken offered : List B) :
    Absorbing taken offered (absorb taken offered).1 (absorb taken offered).2 :=
  (absorbPasses_spec _ taken offered (Nat.le_refl _)).1

theorem absorb_inert (taken offered : List B) :
    Inert (keys (asSet (absorb taken offered).1)) (asSet (absorb taken offered).2) :=
  (absorbPasses_spec _ taken offered (Nat.le_refl _)).2

theorem absorb_keys (taken offered : List B) :
    keys (asSet (absorb taken offered).1) = closure (keys (asSet taken)) (asSet offered) := by
  have spec := absorb_spec taken offered
  apply spec.reached.antisymm
  apply closure_min spec.keys_grow
  intro b offer met
  rcases spec.handled b offer with later | ⟨_, here⟩
  · exact absurd met (absorb_inert taken offered b later)
  · exact here

theorem absorb_left (taken offered : List B) :
    asSet (absorb taken offered).2 = stuck (keys (asSet taken)) (asSet offered) := by
  have spec := absorb_spec taken offered
  ext b
  rw [stuck, ← absorb_keys]
  constructor
  · exact fun later => ⟨spec.rest b later, absorb_inert taken offered b later⟩
  · rintro ⟨offer, unmet⟩
    rcases spec.handled b offer with later | ⟨met, _⟩
    · exact later
    · exact absurd met unmet

theorem absorb_fresh (taken offered : List B) :
    asSet (absorb taken offered).1 ⊆
      asSet taken ∪ admitted (keys (asSet taken)) (asSet offered) := by
  intro b mem
  rcases (absorb_spec taken offered).fresh b mem with held | ⟨offer, met⟩
  · exact Or.inl held
  · refine Or.inr ⟨offer, ?_⟩
    rwa [← absorb_keys]

theorem absorb_nodup {taken : List B} (offered : List B) (nodup : (heldKeys taken).Nodup) :
    (heldKeys (absorb taken offered).1).Nodup := (absorb_spec taken offered).nodup nodup

theorem absorb_grounded {taken : List B} (offered : List B) (whole : Grounded (asSet taken)) :
    Grounded (asSet (absorb taken offered).1) := (absorb_spec taken offered).grounded whole

end Causal
