import Yrby.Effects.Pool

/- One host seen as another: where whatever the one does to its world the other could have
   done to what is seen of it, every run of the one is a run of the other. -/
namespace Effects

variable {Action : Type} {Reply : Action → Type} {E α ι σ τ : Type}

/-- A host refines another, as long as its world fits: the invariant holds on, and what is
    seen of the world is served by the other host. A world that fits did so before. -/
structure Refines (host : Host Action Reply E α ι σ) (other : Host Action Reply E α ι τ)
    (seen : σ → τ) (invariant fits : σ → Prop) : Prop where
  serve : ∀ c s action reply s', invariant s → fits s' → host.serve c s action reply s' →
    invariant s' ∧ other.serve c (seen s) action reply (seen s')
  start : ∀ c s p s', invariant s → fits s' → host.start c s p s' →
    invariant s' ∧ other.start c (seen s) p (seen s')
  serve_fits : ∀ c s action reply s', host.serve c s action reply s' → fits s' → fits s
  start_fits : ∀ c s p s', host.start c s p s' → fits s' → fits s

variable [DecidableEq ι] {host : Host Action Reply E α ι σ} {other : Host Action Reply E α ι τ}
  {seen : σ → τ} {invariant fits : σ → Prop}

theorem Refines.fits_before (refines : Refines host other seen invariant fits)
    {pool pool' : Pool Action Reply E α ι σ} (step : Step host pool pool')
    (fit : fits pool'.world) : fits pool.world := by
  cases step with
  | spawn absent started => exact refines.start_fits _ _ _ _ started fit
  | act next_is served => exact refines.serve_fits _ _ _ _ _ served fit
  | die c => exact fit

theorem Refines.step (refines : Refines host other seen invariant fits)
    {pool pool' : Pool Action Reply E α ι σ} (step : Step host pool pool')
    (kept : invariant pool.world) (fit : fits pool'.world) : invariant pool'.world ∧
      Step other ⟨seen pool.world, pool.tasks⟩ ⟨seen pool'.world, pool'.tasks⟩ := by
  cases step with
  | @spawn s s' tasks c p absent started =>
    obtain ⟨kept', started'⟩ := refines.start c s p s' kept fit started
    exact ⟨kept', .spawn absent started'⟩
  | @act s s' tasks c action next reply next_is served =>
    obtain ⟨kept', served'⟩ := refines.serve c s action reply s' kept fit served
    exact ⟨kept', .act next_is served'⟩
  | die c => exact ⟨kept, .die c⟩

theorem Refines.run (refines : Refines host other seen invariant fits)
    {pool pool' : Pool Action Reply E α ι σ} (run : Run host pool pool')
    (kept : invariant pool.world) (fit : fits pool'.world) : invariant pool'.world ∧
      Run other ⟨seen pool.world, pool.tasks⟩ ⟨seen pool'.world, pool'.tasks⟩ := by
  induction run with
  | refl => exact ⟨kept, Relation.ReflTransGen.refl⟩
  | tail _ step ih =>
    obtain ⟨there, run'⟩ := ih (refines.fits_before step fit)
    obtain ⟨after, step'⟩ := refines.step step there fit
    exact ⟨after, run'.tail step'⟩

end Effects
