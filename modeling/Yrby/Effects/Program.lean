import Mathlib.Init

/- Programs that act on a world they do not own. An action is answered with a
   reply or an error; the program sees either and goes on from there. -/
namespace Effects

inductive Program (Action : Type) (Reply : Action → Type) (E α : Type) where
  | done (a : α)
  | raise (e : E)
  | perform (action : Action) (next : Except E (Reply action) → Program Action Reply E α)

namespace Program
variable {Action : Type} {Reply : Action → Type} {E α β : Type}

def bind : Program Action Reply E α → (α → Program Action Reply E β) → Program Action Reply E β
  | done a, f => f a
  | raise e, _ => raise e
  | perform action next, f => perform action fun reply => (next reply).bind f

instance : Monad (Program Action Reply E) where
  pure := done
  bind := bind

def act (action : Action) : Program Action Reply E (Reply action) :=
  perform action fun
    | .ok reply => done reply
    | .error e => raise e

def ofExcept : Except E α → Program Action Reply E α
  | .ok a => done a
  | .error e => raise e

/-- No action is left to perform. -/
def Ended : Program Action Reply E α → Prop
  | .perform _ _ => False
  | _ => True

/-- Running alone, on a world that answers every action. -/
def runWith {σ : Type} (serve : σ → (action : Action) → σ × Except E (Reply action)) :
    Program Action Reply E α → σ → σ × Except E α
  | done a, s => (s, .ok a)
  | raise e, s => (s, .error e)
  | perform action next, s => (next (serve s action).2).runWith serve (serve s action).1

/-- Every action the program can come to perform is one of these. -/
def Only (allowed : Action → Prop) : Program Action Reply E α → Prop
  | done _ => True
  | raise _ => True
  | perform action next => allowed action ∧ ∀ reply, (next reply).Only allowed

/-- While its actions are answered as answers says, the program raises nothing of its
    own, and ends where post holds. -/
def Relays (answers : ∀ action, Reply action → Prop) (post : α → Prop) :
    Program Action Reply E α → Prop
  | done a => post a
  | raise _ => False
  | perform action next => (∀ e, next (.error e) = raise e) ∧
      ∀ reply, answers action reply → (next (.ok reply)).Relays answers post

/-- Whatever its actions are answered with, what the program returns is such. -/
def Returns (post : α → Prop) : Program Action Reply E α → Prop
  | done a => post a
  | raise _ => True
  | perform _ next => ∀ reply, (next reply).Returns post

theorem bind_def (p : Program Action Reply E α) (f : α → Program Action Reply E β) :
    (p >>= f) = p.bind f := rfl

section
variable {allowed : Action → Prop}

theorem only_of_all (all : ∀ action, allowed action) (p : Program Action Reply E α) :
    p.Only allowed := by
  induction p with
  | done _ => trivial
  | raise _ => trivial
  | perform action _ ih => exact ⟨all action, ih⟩

theorem only_pure (a : α) : (pure a : Program Action Reply E α).Only allowed := trivial

theorem only_ofExcept (result : Except E α) :
    (ofExcept result : Program Action Reply E α).Only allowed := by
  cases result <;> trivial

theorem only_act {action : Action} (may : allowed action) :
    (act action : Program Action Reply E _).Only allowed := by
  refine ⟨may, fun reply => ?_⟩
  cases reply <;> trivial

theorem only_bind {p : Program Action Reply E α} {f : α → Program Action Reply E β}
    (first : p.Only allowed) (rest : ∀ a, (f a).Only allowed) : (p >>= f).Only allowed := by
  change (p.bind f).Only allowed
  induction p with
  | done a => exact rest a
  | raise e => trivial
  | perform action next ih => exact ⟨first.1, fun reply => ih reply (first.2 reply)⟩

theorem only_checked {result : Except E β} {f : β → Program Action Reply E α}
    (rest : ∀ b, result = .ok b → (f b).Only allowed) : (ofExcept result >>= f).Only allowed := by
  cases result with
  | ok b => exact rest b rfl
  | error e => trivial

end

section
variable {post : α → Prop}

theorem returns_bind {p : Program Action Reply E β} {f : β → Program Action Reply E α}
    (rest : ∀ b, (f b).Returns post) : (p >>= f).Returns post := by
  change (p.bind f).Returns post
  induction p with
  | done b => exact rest b
  | raise e => trivial
  | perform action next ih => exact fun reply => ih reply

end

section
variable {answers : ∀ action, Reply action → Prop} {post : α → Prop}

theorem relays_pure {a : α} (there : post a) :
    (pure a : Program Action Reply E α).Relays answers post := there

theorem relays_ok {a : α} (there : post a) :
    (ofExcept (.ok a) : Program Action Reply E α).Relays answers post := there

theorem relays_act (action : Action) :
    (act action : Program Action Reply E _).Relays answers (answers action) :=
  ⟨fun _ => rfl, fun _ answered => answered⟩

theorem relays_bind {p : Program Action Reply E β} {f : β → Program Action Reply E α}
    (mid : β → Prop) (first : p.Relays answers mid)
    (rest : ∀ b, mid b → (f b).Relays answers post) : (p >>= f).Relays answers post := by
  change (p.bind f).Relays answers post
  induction p with
  | done b => exact rest b first
  | raise e => exact first.elim
  | perform action next ih =>
    refine ⟨fun e => ?_, fun reply answered => ih (.ok reply) (first.2 reply answered)⟩
    change (next (.error e)).bind f = raise e
    rw [first.1 e]
    rfl

end

variable {σ : Type} {serve : σ → (action : Action) → σ × Except E (Reply action)}

theorem runWith_bind (p : Program Action Reply E α) (f : α → Program Action Reply E β) (s : σ) :
    (p.bind f).runWith serve s =
      match p.runWith serve s with
      | (s', .ok a) => (f a).runWith serve s'
      | (s', .error e) => (s', .error e) := by
  induction p generalizing s with
  | done a => rfl
  | raise e => rfl
  | perform action next ih => exact ih _ _

theorem returns_ran {post : α → Prop} {p : Program Action Reply E α} (returns : p.Returns post)
    {s s' : σ} {a : α} (ran : p.runWith serve s = (s', .ok a)) : post a := by
  induction p generalizing s with
  | done b =>
    obtain ⟨_, same⟩ := Prod.mk.inj ran
    exact Except.ok.inj same ▸ returns
  | raise e => cases (Prod.mk.inj ran).2
  | perform action next ih => exact ih _ (returns _) ran

theorem ok_bind (a : α) (f : α → Program Action Reply E β) : (ofExcept (.ok a) >>= f) = f a := rfl

def orRaise (f : α → Program Action Reply E β) : Except E α → Program Action Reply E β
  | .ok a => f a
  | .error e => raise e

theorem act_bind (action : Action) (f : Reply action → Program Action Reply E β) :
    (act action >>= f) = perform action (orRaise f) := by
  rw [bind_def, act, bind]
  congr 1
  funext reply
  cases reply <;> rfl

theorem runWith_act (action : Action) (s : σ) :
    (act action : Program Action Reply E _).runWith serve s = serve s action := by
  unfold act runWith
  rcases answered : serve s action with ⟨s', reply | e⟩ <;> rfl

theorem runWith_ok {p : Program Action Reply E α} {s s' : σ} {a : α}
    (ran : p.runWith serve s = (s', .ok a)) (f : α → Program Action Reply E β) :
    (p >>= f).runWith serve s = (f a).runWith serve s' := by
  rw [bind_def, runWith_bind, ran]

end Program

end Effects
