import Yrby.Effects.Program

/- A program that looks at a shared object at several moments, while others move the
   object on. Where it goes on the same way had it looked later, its result is what
   the object of one moment gives. -/
namespace Effects
open Program

variable {Action : Type} {Reply : Action → Type} {E α β σ : Type}
variable (serve : σ → (action : Action) → σ × Except E (Reply action))

/-- What a program comes to that begins at start and ends by stop. An action of its own
    takes place at one moment, and whatever it changes is there from the next one on. -/
inductive Seen (states : Nat → σ) (stop : Nat) :
    Nat → Program Action Reply E α → Except E α → Prop where
  | done {start : Nat} {a : α} (inTime : start ≤ stop) : Seen states stop start (.done a) (.ok a)
  | raise {start : Nat} {e : E} (inTime : start ≤ stop) :
      Seen states stop start (.raise e) (.error e)
  | perform {start moment after : Nat} {action : Action}
      {next : Except E (Reply action) → Program Action Reply E α} {result : Except E α}
      (later : start ≤ moment) (soon : moment ≤ after ∧ after ≤ moment + 1)
      (served : (serve (states moment) action).1 = states after)
      (rest : Seen states stop after (next (serve (states moment) action).2) result) :
      Seen states stop start (.perform action next) result

/-- Each look changes nothing, and either ends the program or sends it on as a look at
    any later moment would. -/
def Timeless (later : σ → σ → Prop) : Program Action Reply E α → Prop
  | .done _ => True
  | .raise _ => True
  | .perform action next => (∀ s, (serve s action).1 = s) ∧ ∀ s,
      Ended (next (serve s action).2) ∨ Timeless later (next (serve s action).2) ∧
        ∀ s', later s s' → next (serve s' action).2 = next (serve s action).2

variable {serve} {later : σ → σ → Prop}

theorem ended_ofExcept (result : Except E α) :
    Ended (ofExcept result : Program Action Reply E α) := by
  cases result <;> trivial

theorem ended_bind {p : Program Action Reply E α} {f : α → Program Action Reply E β}
    (first : Ended p) (rest : ∀ a, Ended (f a)) : Ended (p >>= f) := by
  cases p with
  | done a => exact rest a
  | raise e => trivial
  | perform action next => exact first.elim

theorem timeless_of_ended {p : Program Action Reply E α} (ended : Ended p) :
    Timeless serve later p := by
  cases p with
  | done a => trivial
  | raise e => trivial
  | perform action next => exact ended.elim

theorem timeless_bind {p : Program Action Reply E α} {f : α → Program Action Reply E β}
    (whole : Timeless serve later p) (rest : ∀ a, Ended (f a)) :
    Timeless serve later (p >>= f) := by
  change Timeless serve later (p.bind f)
  induction p with
  | done a => exact timeless_of_ended (rest a)
  | raise e => trivial
  | perform action next ih =>
    obtain ⟨reads, onward⟩ := whole
    refine ⟨reads, fun s => ?_⟩
    rcases onward s with ended | ⟨goes, same⟩
    · exact Or.inl (ended_bind ended rest)
    · refine Or.inr ⟨ih _ goes, fun s' late => ?_⟩
      exact congrArg (fun p : Program Action Reply E α => p.bind f) (same s' late)

theorem timeless_ofExcept_bind {result : Except E α} {f : α → Program Action Reply E β}
    (rest : ∀ a, Timeless serve later (f a)) : Timeless serve later (ofExcept result >>= f) := by
  cases result with
  | ok a => exact rest a
  | error e => trivial

theorem timeless_once {action : Action} {f : Reply action → Program Action Reply E α}
    (reads : ∀ s, (serve s action).1 = s) (rest : ∀ reply, Ended (f reply)) :
    Timeless serve later (act action >>= f) := by
  rw [act_bind]
  refine ⟨reads, fun s => Or.inl ?_⟩
  cases (serve s action).2 with
  | ok reply => exact rest reply
  | error e => trivial

theorem timeless_check {action : Action} {f : Reply action → Program Action Reply E α}
    {tail : Program Action Reply E α} (reads : ∀ s, (serve s action).1 = s)
    (whole : Timeless serve later tail)
    (check : ∀ s reply, (serve s action).2 = .ok reply → Ended (f reply) ∨
      f reply = tail ∧ ∀ s', later s s' → ∃ reply', (serve s' action).2 = .ok reply' ∧ f reply' = tail) :
    Timeless serve later (act action >>= f) := by
  rw [act_bind]
  refine ⟨reads, fun s => ?_⟩
  cases served : (serve s action).2 with
  | error e => exact Or.inl trivial
  | ok reply =>
    rcases check s reply served with ended | ⟨onward, same⟩
    · exact Or.inl ended
    · refine Or.inr ⟨?_, fun s' late => ?_⟩
      · rw [orRaise, onward]
        exact whole
      · obtain ⟨reply', served', onward'⟩ := same s' late
        rw [served', orRaise, orRaise, onward, onward']

theorem Seen.ended {states : Nat → σ} {start stop : Nat} {p : Program Action Reply E α}
    {result : Except E α} (seen : Seen serve states stop start p result) (ended : Ended p) :
    start ≤ stop ∧ ∀ s, result = (p.runWith serve s).2 := by
  cases seen with
  | done inTime => exact ⟨inTime, fun _ => rfl⟩
  | raise inTime => exact ⟨inTime, fun _ => rfl⟩
  | perform => exact ended.elim

/-- Its result is the one it would have had, alone, at one moment of the time it took. -/
theorem Seen.one_moment {states : Nat → σ} {start stop : Nat} {p : Program Action Reply E α}
    {result : Except E α} (order : ∀ n m, n ≤ m → later (states n) (states m))
    (seen : Seen serve states stop start p result) (timeless : Timeless serve later p) :
    ∃ moment, start ≤ moment ∧ moment ≤ stop ∧ result = (p.runWith serve (states moment)).2 := by
  induction seen with
  | @done start a inTime => exact ⟨start, Nat.le_refl _, inTime, rfl⟩
  | @raise start e inTime => exact ⟨start, Nat.le_refl _, inTime, rfl⟩
  | @perform start moment after action next result began soon served rest ih =>
    obtain ⟨reads, onward⟩ := timeless
    rcases onward (states moment) with ended | ⟨goes, same⟩
    · obtain ⟨inTime, alone⟩ := rest.ended ended
      refine ⟨moment, began, Nat.le_trans soon.1 inTime, ?_⟩
      rw [runWith, reads]
      exact alone _
    · obtain ⟨moment', late, inTime, alone⟩ := ih goes
      have onto : moment ≤ moment' := Nat.le_trans soon.1 late
      refine ⟨moment', Nat.le_trans began onto, inTime, ?_⟩
      rw [alone, runWith, reads, same _ (order _ _ onto)]

end Effects
