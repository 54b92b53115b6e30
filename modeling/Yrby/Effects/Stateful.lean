import Mathlib.Logic.Relation

/- Programs that change a state and may throw. What was changed before a throw
   stays changed, so a property of a program speaks of both ways it can end. -/
namespace Effects
variable {ε σ τ α β : Type}

/-- From s, the program ends where post holds if it returns, and where raised
    holds if it throws. -/
def Ends (program : EStateM ε σ α) (post : α → σ → Prop) (raised : σ → Prop) (s : σ) : Prop :=
  match program s with
  | .ok a t => post a t
  | .error _ t => raised t

/-- The state a program leaves behind, either way. -/
def after (program : EStateM ε σ α) (s : σ) : σ :=
  match program s with
  | .ok _ t => t
  | .error _ t => t

/-- However it ends, the program leaves a state where post holds. -/
abbrev Leaves (program : EStateM ε σ α) (post : σ → Prop) (s : σ) : Prop :=
  Ends program (fun _ => post) post s

def zoom (get : σ → τ) (set : τ → σ → σ) (program : EStateM ε τ α) : EStateM ε σ α := fun s =>
  match program (get s) with
  | .ok a t => .ok a (set t s)
  | .error e t => .error e (set t s)

variable {post : α → σ → Prop} {raised : σ → Prop} {s : σ}

theorem run_get (s : σ) : (get : EStateM ε σ σ) s = .ok s s := rfl

theorem run_set (s t : σ) : (set t : EStateM ε σ PUnit) s = .ok ⟨⟩ t := rfl

theorem run_throw (e : ε) (s : σ) : (throw e : EStateM ε σ α) s = .error e s := rfl

theorem run_tryCatch (program : EStateM ε σ α) (handler : ε → EStateM ε σ α) (s : σ) :
    (tryCatch program handler : EStateM ε σ α) s =
      match program s with
      | .ok a t => .ok a t
      | .error e t => handler e t := by
  change EStateM.tryCatch program handler s = _
  delta EStateM.tryCatch
  cases program s <;> rfl

theorem leaves_iff {program : EStateM ε σ α} {post : σ → Prop} :
    Leaves program post s ↔ post (after program s) := by
  unfold Leaves Ends after
  cases program s <;> exact Iff.rfl

theorem Ends.mono {program : EStateM ε σ α} {post' : α → σ → Prop} {raised' : σ → Prop}
    (ends : Ends program post raised s) (returns : ∀ a t, post a t → post' a t)
    (throws : ∀ t, raised t → raised' t) : Ends program post' raised' s := by
  unfold Ends at *
  split at ends
  · exact returns _ _ ends
  · exact throws _ ends

theorem Ends.returns {program : EStateM ε σ α} {post : σ → Prop}
    (ends : Ends program (fun _ => post) (fun _ => False) s) : post (after program s) :=
  leaves_iff.mp (ends.mono (fun _ _ => id) fun _ => False.elim)

/-- A program that ends well ends in some state, and every other fact about how
    it ends is about the same state. -/
theorem Ends.and {program : EStateM ε σ α} {post' : α → σ → Prop} {raised' : σ → Prop}
    (one : Ends program post raised s) (two : Ends program post' raised' s) :
    Ends program (fun a t => post a t ∧ post' a t) (fun t => raised t ∧ raised' t) s := by
  unfold Ends at *
  split
  · rename_i same
    simp only [same] at one two
    exact ⟨one, two⟩
  · rename_i same
    simp only [same] at one two
    exact ⟨one, two⟩

@[simp] theorem ends_pure {a : α} : Ends (pure a : EStateM ε σ α) post raised s ↔ post a s := Iff.rfl

@[simp] theorem ends_bind {program : EStateM ε σ α} {next : α → EStateM ε σ β}
    {post : β → σ → Prop} : Ends (program >>= next) post raised s ↔
      Ends program (fun a t => Ends (next a) post raised t) raised s := by
  simp only [Ends, bind, EStateM.bind]
  cases program s <;> exact Iff.rfl

@[simp] theorem ends_get {post : σ → σ → Prop} :
    Ends (get : EStateM ε σ σ) post raised s ↔ post s s := Iff.rfl

@[simp] theorem ends_modify {change : σ → σ} {post : PUnit → σ → Prop} :
    Ends (modify change : EStateM ε σ PUnit) post raised s ↔ post ⟨⟩ (change s) := Iff.rfl

@[simp] theorem ends_throw {e : ε} : Ends (throw e : EStateM ε σ α) post raised s ↔ raised s :=
  Iff.rfl

@[simp] theorem ends_ite {c : Prop} [Decidable c] {one two : EStateM ε σ α} :
    Ends (if c then one else two) post raised s ↔
      if c then Ends one post raised s else Ends two post raised s := by
  split <;> exact Iff.rfl

theorem ends_tryCatch {program : EStateM ε σ α} {handler : ε → EStateM ε σ α} :
    Ends (tryCatch program handler) post raised s ↔
      match program s with
      | .ok a t => post a t
      | .error e t => Ends (handler e) post raised t := by
  simp only [Ends, run_tryCatch]
  cases program s <;> exact Iff.rfl

@[simp] theorem ends_zoom {get : σ → τ} {set : τ → σ → σ} {program : EStateM ε τ α} :
    Ends (zoom get set program) post raised s ↔
      Ends program (fun a t => post a (set t s)) (fun t => raised (set t s)) (get s) := by
  simp only [Ends, zoom]
  cases program (get s) <;> exact Iff.rfl

/-- A program that never leaves a relation, whatever it starts from and however
    it ends. -/
def Within (related : σ → σ → Prop) (program : EStateM ε σ α) : Prop :=
  ∀ s, Leaves program (related s) s

namespace Within
variable {related : σ → σ → Prop}

theorem pure (refl : ∀ s, related s s) (a : α) : Within related (Pure.pure a : EStateM ε σ α) := refl

theorem bind {program : EStateM ε σ α} {next : α → EStateM ε σ β}
    (trans : ∀ s t u, related s t → related t u → related s u) (first : Within related program)
    (rest : ∀ a, Within related (next a)) : Within related (program >>= next) := by
  intro s
  refine ends_bind.mpr ((first s).mono (fun a t one => ?_) fun _ => id)
  exact (rest a t).mono (fun _ u => trans s t u one) (trans s t · one)

theorem modify {change : σ → σ} (changed : ∀ s, related s (change s)) :
    Within related (modify change : EStateM ε σ PUnit) := changed

theorem leaves {program : EStateM ε σ α} (within : Within related program) (s : σ) :
    related s (after program s) := leaves_iff.mp (within s)

end Within

end Effects
