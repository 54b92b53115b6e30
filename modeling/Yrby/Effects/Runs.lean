import Mathlib.Data.List.Basic

/- Runs of a system that takes inputs one after another, each with the history of
   what came when. -/
namespace Effects
variable {σ ι ν : Type} {step : ι → σ → σ} {start s : σ} {history : List (σ × ι)}

/-- The history holds each input with the state it came to, the earliest first. -/
inductive Ran (step : ι → σ → σ) (start : σ) : List (σ × ι) → σ → Prop where
  | start : Ran step start [] start
  | next {history : List (σ × ι)} {s : σ} (run : Ran step start history s) (input : ι) :
      Ran step start (history ++ [(s, input)]) (step input s)

/-- What every input keeps that meets the condition holds at the end of a run whose
    inputs all meet it. -/
theorem Ran.keeps {invariant : List (σ × ι) → σ → Prop} {met : σ → ι → Prop}
    (initial : invariant [] start)
    (kept : ∀ history s input, invariant history s → met s input →
      invariant (history ++ [(s, input)]) (step input s))
    (run : Ran step start history s) (all : ∀ moment ∈ history, met moment.1 moment.2) :
    invariant history s := by
  induction run with
  | start => exact initial
  | next run input ih =>
    have before := ih fun moment mem => all moment (List.mem_append_left _ mem)
    exact kept _ _ input before (all (_, input) (by simp))

/-- What holds at the start, and is kept by inputs that meet the condition, holds whenever
    an input comes. -/
theorem Ran.throughout {holds : σ → Prop} {met : σ → ι → Prop} (initial : holds start)
    (kept : ∀ s input, holds s → met s input → holds (step input s))
    (run : Ran step start history s) (all : ∀ moment ∈ history, met moment.1 moment.2) :
    holds s ∧ ∀ moment ∈ history, holds moment.1 := by
  induction run with
  | start => exact ⟨initial, by simp⟩
  | @next history s run input ih =>
    obtain ⟨now, before⟩ := ih fun moment mem => all moment (List.mem_append_left _ mem)
    refine ⟨kept s input now (all (s, input) (by simp)), fun moment mem => ?_⟩
    rcases List.mem_append.mp mem with old | new
    · exact before moment old
    · obtain rfl := List.mem_singleton.mp new
      exact now

def shown (hidden : ι → Bool) (history : List (σ × ι)) : List ι :=
  (history.map Prod.snd).filter fun input => !hidden input

theorem shown_append (hidden : ι → Bool) (history : List (σ × ι)) (s : σ) (input : ι) :
    shown hidden (history ++ [(s, input)]) =
      shown hidden history ++ if hidden input then [] else [input] := by
  simp only [shown, List.map_append, List.filter_append]
  congr 1
  cases here : hidden input <;> simp [here]

/-- Where the view goes the way effect says, and hidden inputs leave it as it is, it
    is what the inputs shown make of it. -/
theorem Ran.view_eq {view : σ → ν} {effect : ι → ν → ν} {hidden : ι → Bool}
    (visible : ∀ s input, hidden input = false → view (step input s) = effect input (view s))
    (run : Ran step start history s)
    (unseen : ∀ moment ∈ history, hidden moment.2 = true →
      view (step moment.2 moment.1) = view moment.1) :
    view s = (shown hidden history).foldl (fun v input => effect input v) (view start) := by
  induction run with
  | start => rfl
  | @next history s run input ih =>
    have before := ih fun moment mem => unseen moment (List.mem_append_left _ mem)
    rw [shown_append, List.foldl_append, ← before]
    cases here : hidden input with
    | true => exact unseen (s, input) (by simp) here
    | false => exact visible s input here

theorem Ran.views_agree {view : σ → ν} {effect : ι → ν → ν} {hidden : ι → Bool}
    (visible : ∀ s input, hidden input = false → view (step input s) = effect input (view s))
    {history' : List (σ × ι)} {s' : σ} (run : Ran step start history s)
    (run' : Ran step start history' s')
    (unseen : ∀ moment ∈ history ++ history', hidden moment.2 = true →
      view (step moment.2 moment.1) = view moment.1)
    (same : shown hidden history = shown hidden history') : view s = view s' := by
  rw [run.view_eq visible fun moment mem => unseen moment (List.mem_append_left _ mem),
    run'.view_eq visible fun moment mem => unseen moment (List.mem_append_right _ mem), same]

end Effects
