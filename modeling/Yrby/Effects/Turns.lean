import Yrby.Effects.Pool

/- Programs that take turns: none begins before the others have ended. A discipline is
   met here without anything being asked of the others. -/
namespace Effects
open Program

variable {Action : Type} {Reply : Action → Type} {E α ι σ : Type}

section
variable [DecidableEq ι] (host : Host Action Reply E α ι σ)

inductive Turn : Pool Action Reply E α ι σ → Pool Action Reply E α ι σ → Prop where
  | spawn {s s' tasks c p} (idle : ∀ c' q, tasks c' = some q → q.Ended) (absent : tasks c = none)
      (started : host.start c s p s') : Turn ⟨s, tasks⟩ ⟨s', Function.update tasks c (some p)⟩
  | act {s s' tasks c action next reply} (next_is : tasks c = some (.perform action next))
      (served : host.serve c s action reply s') :
      Turn ⟨s, tasks⟩ ⟨s', Function.update tasks c (some (next reply))⟩
  | die {s tasks} (c : ι) : Turn ⟨s, tasks⟩ ⟨s, Function.update tasks c none⟩

def Turns : Pool Action Reply E α ι σ → Pool Action Reply E α ι σ → Prop :=
  Relation.ReflTransGen (Turn host)

/-- A task left to run alone goes through turns. -/
theorem turns_alone {c : ι} {serve : σ → (action : Action) → σ × Except E (Reply action)}
    (obeys : ∀ s action, host.serve c s action (serve s action).2 (serve s action).1)
    (p : Program Action Reply E α) (s : σ) (tasks : ι → Option (Program Action Reply E α))
    (task : tasks c = some p) : Turns host ⟨s, tasks⟩ ⟨(p.runWith serve s).1,
      Function.update tasks c (some (ofExcept (p.runWith serve s).2))⟩ :=
  alone serve (F := fun s' tasks' => Turns host ⟨s, tasks⟩ ⟨s', tasks'⟩)
    (fun s' _ action _ next_is turns => turns.tail (Turn.act next_is (obeys s' action)))
    p task Relation.ReflTransGen.refl

variable {host} {pool pool' : Pool Action Reply E α ι σ}

theorem Turn.step (turn : Turn host pool pool') : Step host pool pool' := by
  cases turn with
  | spawn _ absent started => exact .spawn absent started
  | act next_is served => exact .act next_is served
  | die c => exact .die c

theorem Turns.run (turns : Turns host pool pool') : Run host pool pool' := by
  induction turns with
  | refl => exact Relation.ReflTransGen.refl
  | tail _ turn ih => exact ih.tail turn.step

end

variable (host : Host Action Reply E α ι σ) (d : Discipline Action ι σ) (ends : ι → σ → α → Prop)

/-- What a discipline has to meet to hold while tasks take turns, and what a task that
    has ended leaves behind for good. -/
structure Fit : Prop extends Steady d where
  serve_holds : ∀ c s action reply s', d.holds s → d.owes c s action →
    host.serve c s action reply s' → d.holds s'
  start_holds : ∀ c s p s', d.holds s → host.start c s p s' → d.holds s'
  start_safe : ∀ c s p s', d.holds s → host.start c s p s' → d.holds s' →
    Safe host d c (ends c) s' p
  serve_ends : ∀ c c' s action reply s' a, host.serve c' s action reply s' → ends c s a → ends c s' a
  start_ends : ∀ c c' s p s' a, host.start c' s p s' → ends c s a → ends c s' a

/-- The invariant of turns: the world is in order, one task at most has something left
    to do, and that task is safe. -/
structure InTurn (pool : Pool Action Reply E α ι σ) : Prop where
  holds : d.holds pool.world
  single : ∀ c c' p p', pool.tasks c = some p → pool.tasks c' = some p' → ¬ p.Ended → ¬ p'.Ended →
    c = c'
  safe : ∀ c p, pool.tasks c = some p → ¬ p.Ended → Safe host d c (ends c) pool.world p
  ended : ∀ c a, pool.tasks c = some (.done a) → ends c pool.world a

variable {host} {d} {ends} {pool pool' : Pool Action Reply E α ι σ}

theorem InTurn.initial {s : σ} (holds : d.holds s) :
    InTurn host d ends (Pool.initial s : Pool Action Reply E α ι σ) where
  holds := holds
  single _ _ _ _ task := by simp [Pool.initial] at task
  safe _ _ task := by simp [Pool.initial] at task
  ended _ _ task := by simp [Pool.initial] at task

variable [DecidableEq ι]

/- All other tasks have ended, so only the changed one has to be looked at. -/
theorem InTurn.update {s' : σ} {tasks : ι → Option (Program Action Reply E α)} {c : ι}
    {p : Option (Program Action Reply E α)} (idle : ∀ c' q, c' ≠ c → tasks c' = some q → q.Ended)
    (holds : d.holds s') (own : ∀ q, p = some q → Safe host d c (ends c) s' q)
    (steady : Steady d) (lasting : ∀ c' a, c' ≠ c → tasks c' = some (.done a) → ends c' s' a) :
    InTurn host d ends ⟨s', Function.update tasks c p⟩ := by
  have other : ∀ c' q, Function.update tasks c p c' = some q → ¬ q.Ended → c' = c := by
    intro c' q task open'
    by_contra apart
    rw [Function.update_of_ne apart] at task
    exact open' (idle c' q apart task)
  constructor
  · exact holds
  · intro c₁ c₂ p₁ p₂ one two open₁ open₂
    rw [other c₁ p₁ one open₁, other c₂ p₂ two open₂]
  · intro c' q task open'
    obtain rfl := other c' q task open'
    exact own q (by simpa using task)
  · intro c' a task
    by_cases same : c' = c
    · subst same
      have safe := own (.done a) (by simpa using task)
      exact safe s' (steady.refl _ _) holds
    · change Function.update tasks c p c' = some (.done a) at task
      rw [Function.update_of_ne same] at task
      exact lasting c' a same task

theorem InTurn.turn (fit : Fit host d ends) (inTurn : InTurn host d ends pool)
    (turn : Turn host pool pool') : InTurn host d ends pool' := by
  cases turn with
  | @spawn s s' tasks c p idle absent started =>
    have holds := fit.start_holds c s p s' inTurn.holds started
    refine InTurn.update (fun c' q _ => idle c' q) holds ?_ fit.toSteady ?_
    · intro q is
      obtain rfl := Option.some.inj is
      exact fit.start_safe c s p s' inTurn.holds started holds
    · exact fun c' a _ task => fit.start_ends c' c s p s' a started (inTurn.ended c' a task)
  | @act s s' tasks c action next reply task served =>
    have acting : ¬ (Program.perform action next).Ended := id
    obtain ⟨owes, onward⟩ := inTurn.safe c _ task acting s (fit.refl _ _) inTurn.holds
    have holds := fit.serve_holds c s action reply s' inTurn.holds owes served
    refine InTurn.update ?_ holds ?_ fit.toSteady ?_
    · intro c' q apart task'
      by_contra open'
      exact apart (inTurn.single c' c q _ task' task open' acting)
    · intro q is
      obtain rfl := Option.some.inj is
      exact onward reply s' served holds
    · intro c' a _ task'
      exact fit.serve_ends c' c s action reply s' a served (inTurn.ended c' a task')
  | @die s tasks c =>
    have left : ∀ c' q, Function.update tasks c none c' = some q → tasks c' = some q := by
      intro c' q task
      by_cases same : c' = c
      · subst same
        simp at task
      · rwa [Function.update_of_ne same] at task
    constructor
    · exact inTurn.holds
    · exact fun c₁ c₂ p₁ p₂ one two => inTurn.single c₁ c₂ p₁ p₂ (left c₁ p₁ one) (left c₂ p₂ two)
    · exact fun c' q task => inTurn.safe c' q (left c' q task)
    · exact fun c' a task => inTurn.ended c' a (left c' _ task)

theorem InTurn.turns (fit : Fit host d ends) (inTurn : InTurn host d ends pool)
    (turns : Turns host pool pool') : InTurn host d ends pool' := by
  induction turns with
  | refl => exact inTurn
  | tail _ turn ih => exact ih.turn fit turn

end Effects
