import Mathlib.Logic.Function.Basic
import Mathlib.Logic.Relation
import Yrby.Effects.Program

/- Any number of programs acting on one world in any order, any of them ending
   between two of its actions. A discipline says what a program may count on from
   the others, what it owes before each action, and what then stays true. -/
namespace Effects
open Program

variable {Action : Type} {Reply : Action → Type} {E α β ι σ : Type}

structure Pool (Action : Type) (Reply : Action → Type) (E α ι σ : Type) where
  world : σ
  tasks : ι → Option (Program Action Reply E α)

def Pool.initial (s : σ) : Pool Action Reply E α ι σ := ⟨s, fun _ => none⟩

/-- How the world takes an action of a task, and how a task begins. -/
structure Host (Action : Type) (Reply : Action → Type) (E α ι σ : Type) where
  serve : ι → σ → (action : Action) → Except E (Reply action) → σ → Prop
  start : ι → σ → Program Action Reply E α → σ → Prop

structure Discipline (Action ι σ : Type) where
  rely : ι → σ → σ → Prop
  owes : ι → σ → Action → Prop
  holds : σ → Prop

variable (host : Host Action Reply E α ι σ) (d : Discipline Action ι σ)

/-- From s on, whatever the others do meanwhile, the program owes nothing when it
    acts, and ends where post holds. -/
def Safe (c : ι) (post : σ → β → Prop) : σ → Program Action Reply E β → Prop
  | s, .done b => ∀ s', d.rely c s s' → d.holds s' → post s' b
  | _, .raise _ => True
  | s, .perform action next => ∀ s', d.rely c s s' → d.holds s' → d.owes c s' action ∧
    ∀ reply s'', host.serve c s' action reply s'' → d.holds s'' → Safe c post s'' (next reply)

structure Steady : Prop where
  refl : ∀ c s, d.rely c s s
  trans : ∀ c s s' s'', d.rely c s s' → d.rely c s' s'' → d.rely c s s''

structure Sound : Prop extends Steady d where
  others_serve : ∀ c c' s action reply s', c ≠ c' → host.serve c' s action reply s' → d.rely c s s'
  others_start : ∀ c c' s p s', c ≠ c' → host.start c' s p s' → d.rely c s s'
  serve_holds : ∀ c s action reply s', d.holds s → d.owes c s action →
    host.serve c s action reply s' → d.holds s'
  start_holds : ∀ c s p s', d.holds s → host.start c s p s' → d.holds s'
  start_safe : ∀ c s p s', d.holds s → host.start c s p s' → d.holds s' →
    Safe host d c (fun _ _ => True) s' p

variable {host d} {c : ι} {s s' : σ} {post : σ → β → Prop}

theorem Safe.later (steady : Steady d) {p : Program Action Reply E β}
    (meanwhile : d.rely c s s') (safe : Safe host d c post s p) : Safe host d c post s' p := by
  cases p with
  | done b => exact fun t onward => safe t (steady.trans _ _ _ _ meanwhile onward)
  | raise e => trivial
  | perform action next => exact fun t onward => safe t (steady.trans _ _ _ _ meanwhile onward)

theorem Safe.pure {b : β} (after : ∀ s', d.rely c s s' → d.holds s' → post s' b) :
    Safe host d c post s (Pure.pure b : Program Action Reply E β) := after

theorem Safe.act {action : Action} {post : σ → Reply action → Prop}
    (owes : ∀ s', d.rely c s s' → d.holds s' → d.owes c s' action)
    (after : ∀ s' reply s'' t, d.rely c s s' → d.holds s' → host.serve c s' action (.ok reply) s'' →
      d.holds s'' → d.rely c s'' t → d.holds t → post t reply) :
    Safe host d c post s (Program.act action : Program Action Reply E _) := by
  intro s' meanwhile holds
  refine ⟨owes s' meanwhile holds, fun reply s'' served holds' => ?_⟩
  cases reply with
  | ok reply => exact fun t onward there => after s' reply s'' t meanwhile holds served holds' onward there
  | error e => trivial

theorem Safe.ofExcept {result : Except E β}
    (after : ∀ b s', result = .ok b → d.rely c s s' → d.holds s' → post s' b) :
    Safe host d c post s (Program.ofExcept result : Program Action Reply E β) := by
  cases result with
  | ok b => exact fun s' meanwhile holds => after b s' rfl meanwhile holds
  | error e => trivial

theorem Safe.bind {γ : Type} {p : Program Action Reply E γ} {f : γ → Program Action Reply E β}
    (mid : σ → γ → Prop) (steady : Steady d) (holds : d.holds s)
    (first : Safe host d c mid s p)
    (rest : ∀ t b, d.holds t → mid t b → Safe host d c post t (f b)) :
    Safe host d c post s (p >>= f) := by
  change Safe host d c post s (p.bind f)
  induction p generalizing s with
  | done b => exact rest s b holds (first s (steady.refl _ _) holds)
  | raise e => trivial
  | perform action next ih =>
    intro s' meanwhile there
    obtain ⟨owes, onward⟩ := first s' meanwhile there
    exact ⟨owes, fun reply s'' served holds' => ih reply holds' (onward reply s'' served holds')⟩

theorem Safe.weaken {post' : σ → β → Prop} {p : Program Action Reply E β}
    (safe : Safe host d c post s p) (le : ∀ t b, d.holds t → post t b → post' t b) :
    Safe host d c post' s p := by
  induction p generalizing s with
  | done b => exact fun t meanwhile there => le t b there (safe t meanwhile there)
  | raise e => trivial
  | perform action next ih =>
    intro s' meanwhile there
    obtain ⟨owes, onward⟩ := safe s' meanwhile there
    exact ⟨owes, fun reply s'' served holds' => ih reply (onward reply s'' served holds')⟩

/-- A program that may perform all it ever performs, from a fact that lasts on. -/
theorem Safe.of_only {allowed : Action → Prop} {F : σ → Prop}
    (rely : ∀ s s', F s → d.rely c s s' → F s')
    (serve : ∀ s action reply s', F s → host.serve c s action reply s' → F s')
    (owes : ∀ s action, F s → allowed action → d.owes c s action)
    (ends : ∀ s b, F s → post s b) {p : Program Action Reply E β} (only : p.Only allowed)
    (there : F s) : Safe host d c post s p := by
  induction p generalizing s with
  | done b => exact fun t meanwhile _ => ends t b (rely s t there meanwhile)
  | raise e => trivial
  | perform action next ih =>
    intro s' meanwhile _
    have still := rely s s' there meanwhile
    refine ⟨owes s' action still only.1, fun reply s'' served _ => ?_⟩
    exact ih reply (only.2 reply) (serve s' action reply s'' still served)

/-- The invariant of a pool: the world is in order, and every task is safe there. -/
structure Orderly (host : Host Action Reply E α ι σ) (d : Discipline Action ι σ)
    (pool : Pool Action Reply E α ι σ) : Prop where
  holds : d.holds pool.world
  safe : ∀ c p, pool.tasks c = some p → Safe host d c (fun _ _ => True) pool.world p

theorem Orderly.initial (holds : d.holds s) : Orderly host d (Pool.initial s) :=
  ⟨holds, fun _ _ task => by simp [Pool.initial] at task⟩

variable [DecidableEq ι]

inductive Step (host : Host Action Reply E α ι σ) :
    Pool Action Reply E α ι σ → Pool Action Reply E α ι σ → Prop where
  | spawn {s s' tasks c p} (absent : tasks c = none) (started : host.start c s p s') :
    Step host ⟨s, tasks⟩ ⟨s', Function.update tasks c (some p)⟩
  | act {s s' tasks c action next reply} (next_is : tasks c = some (.perform action next))
    (served : host.serve c s action reply s') :
    Step host ⟨s, tasks⟩ ⟨s', Function.update tasks c (some (next reply))⟩
  | die {s tasks} (c : ι) : Step host ⟨s, tasks⟩ ⟨s, Function.update tasks c none⟩

def Run (host : Host Action Reply E α ι σ) :
    Pool Action Reply E α ι σ → Pool Action Reply E α ι σ → Prop := Relation.ReflTransGen (Step host)

theorem Orderly.update {tasks : ι → Option (Program Action Reply E α)} (sound : Sound host d)
    (orderly : Orderly host d ⟨s, tasks⟩) {p : Option (Program Action Reply E α)}
    (holds : d.holds s') (others : ∀ c', c' ≠ c → d.rely c' s s')
    (own : ∀ q, p = some q → Safe host d c (fun _ _ => True) s' q) :
    Orderly host d ⟨s', Function.update tasks c p⟩ := by
  refine ⟨holds, fun c' q task => ?_⟩
  by_cases same : c' = c
  · subst same
    exact own q (by simpa using task)
  · change Function.update tasks c p c' = some q at task
    rw [Function.update_of_ne same] at task
    exact (orderly.safe c' q task).later sound.toSteady (others c' same)

theorem Orderly.step (sound : Sound host d) {pool pool' : Pool Action Reply E α ι σ}
    (orderly : Orderly host d pool) (step : Step host pool pool') : Orderly host d pool' := by
  cases step with
  | @spawn s s' tasks c p absent started =>
    have holds := sound.start_holds c s p s' orderly.holds started
    apply orderly.update sound holds
    · exact fun c' other => sound.others_start c' c s p s' other started
    · intro q is
      obtain rfl := Option.some.inj is
      exact sound.start_safe c s p s' orderly.holds started holds
  | @act s s' tasks c action next reply task served =>
    obtain ⟨owes, onward⟩ := orderly.safe c _ task s (sound.refl _ _) orderly.holds
    have holds := sound.serve_holds c s action reply s' orderly.holds owes served
    apply orderly.update sound holds
    · exact fun c' other => sound.others_serve c' c s action reply s' other served
    · intro q is
      obtain rfl := Option.some.inj is
      exact onward reply s' served holds
  | @die s tasks c =>
    apply orderly.update sound orderly.holds
    · exact fun c' _ => sound.refl c' s
    · intro q none
      exact absurd none (by simp)

theorem Orderly.run (sound : Sound host d) {pool pool' : Pool Action Reply E α ι σ}
    (orderly : Orderly host d pool) (run : Run host pool pool') : Orderly host d pool' := by
  induction run with
  | refl => exact orderly
  | tail _ step ih => exact ih.step sound step

/-- A fact about a task that the others cannot end, that holds as the task begins, and
    that its own actions carry on, holds of every task in every run. -/
theorem Run.every {F : ι → σ → Program Action Reply E α → Prop}
    (served : ∀ c c' s action reply s' p, host.serve c' s action reply s' → F c s p → F c s' p)
    (started : ∀ c c' s p s' q, host.start c' s q s' → F c s p → F c s' p)
    (spawned : ∀ c s p s', host.start c s p s' → F c s' p)
    {s : σ} (acted : ∀ c pool action next reply s', Run host (Pool.initial s) pool →
      host.serve c pool.world action reply s' → F c pool.world (.perform action next) →
      F c s' (next reply))
    {pool : Pool Action Reply E α ι σ} (run : Run host (Pool.initial s) pool) :
    ∀ c p, pool.tasks c = some p → F c pool.world p := by
  induction run with
  | refl => exact fun _ _ task => by simp [Pool.initial] at task
  | tail run step ih =>
    intro c' p' task
    cases step with
    | @spawn s s' tasks c p absent start =>
      change Function.update tasks c (some p) c' = some p' at task
      by_cases same : c' = c
      · subst same
        obtain rfl : p = p' := by simpa using task
        exact spawned _ _ _ _ start
      · rw [Function.update_of_ne same] at task
        exact started _ _ _ _ _ _ start (ih c' p' task)
    | @act s s' tasks c action next reply next_is serve =>
      change Function.update tasks c (some (next reply)) c' = some p' at task
      by_cases same : c' = c
      · subst same
        obtain rfl : next reply = p' := by simpa using task
        exact acted _ _ _ _ _ _ run serve (ih c' _ next_is)
      · rw [Function.update_of_ne same] at task
        exact served _ _ _ _ _ _ _ serve (ih c' p' task)
    | @die s tasks c =>
      change Function.update tasks c none c' = some p' at task
      by_cases same : c' = c
      · subst same
        simp at task
      · rw [Function.update_of_ne same] at task
        exact ih c' p' task

/-- What a task cannot change by acting once, it cannot change by running alone. -/
theorem alone {c : ι} (serve : σ → (action : Action) → σ × Except E (Reply action))
    {F : σ → (ι → Option (Program Action Reply E α)) → Prop}
    (acts : ∀ s tasks action next, tasks c = some (.perform action next) → F s tasks →
      F (serve s action).1 (Function.update tasks c (some (next (serve s action).2))))
    (p : Program Action Reply E α) {s : σ} {tasks : ι → Option (Program Action Reply E α)}
    (task : tasks c = some p) (start : F s tasks) : F (p.runWith serve s).1
      (Function.update tasks c (some (ofExcept (p.runWith serve s).2))) := by
  induction p generalizing s tasks with
  | done a =>
    have same : Function.update tasks c (some (.done a)) = tasks := by rw [← task]; simp
    simpa only [runWith, Program.ofExcept, same] using start
  | raise e =>
    have same : Function.update tasks c (some (.raise e)) = tasks := by rw [← task]; simp
    simpa only [runWith, Program.ofExcept, same] using start
  | perform action next ih =>
    have first := acts s tasks action next task start
    have rest := ih (serve s action).2 (by simp) first
    rwa [Function.update_idem] at rest

/-- A task left to run alone goes through a run of the pool. -/
theorem run_alone (host : Host Action Reply E α ι σ) {c : ι}
    {serve : σ → (action : Action) → σ × Except E (Reply action)}
    (obeys : ∀ s action, host.serve c s action (serve s action).2 (serve s action).1)
    (p : Program Action Reply E α) (s : σ) (tasks : ι → Option (Program Action Reply E α))
    (task : tasks c = some p) : Run host ⟨s, tasks⟩ ⟨(p.runWith serve s).1,
      Function.update tasks c (some (ofExcept (p.runWith serve s).2))⟩ :=
  alone serve (F := fun s' tasks' => Run host ⟨s, tasks⟩ ⟨s', tasks'⟩)
    (fun s' _ action _ next_is run => run.tail (Step.act next_is (obeys s' action)))
    p task Relation.ReflTransGen.refl

end Effects
