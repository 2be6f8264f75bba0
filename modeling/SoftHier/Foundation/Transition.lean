/-
  Foundation/Transition.lean --- runs of a transition relation.

  A run is the list of the states it went through, the latest first.  An
  invariant is proved of every reachable state by one induction, and a state
  that a run went through is itself reachable.
-/
import Mathlib.Data.List.Basic

set_option autoImplicit false

namespace SoftHier.Foundation

variable {σ : Type} {init : σ → Prop} {step : σ → σ → Prop}

/-- The states of a run, the latest first. -/
inductive Trace (init : σ → Prop) (step : σ → σ → Prop) : List σ → Prop
  | start {s : σ} : init s → Trace init step [s]
  | next {s s' : σ} {past : List σ} :
      Trace init step (s :: past) → step s s' → Trace init step (s' :: s :: past)

/-- A state some run ends in. -/
def Reachable (init : σ → Prop) (step : σ → σ → Prop) (s : σ) : Prop :=
  ∃ past, Trace init step (s :: past)

theorem Reachable.start {s : σ} (h : init s) : Reachable init step s := ⟨[], .start h⟩

theorem Reachable.next {s s' : σ} (h : Reachable init step s) (hs : step s s') :
    Reachable init step s' := by
  rcases h with ⟨past, htrace⟩
  exact ⟨s :: past, htrace.next hs⟩

/-- Every state a run went through is reachable. -/
theorem Trace.reachable {states : List σ} (h : Trace init step states) :
    ∀ s ∈ states, Reachable init step s := by
  induction h with
  | @start s₀ h0 =>
    intro s hs
    rw [List.mem_singleton] at hs
    rw [hs]
    exact .start h0
  | @next s₁ s₂ past hpast hstep ih =>
    intro s hs
    rcases List.mem_cons.mp hs with rfl | hs
    · exact ⟨_, hpast.next hstep⟩
    · exact ih s hs

/-- What holds at the start and survives a step from a reachable state holds in
every reachable state. -/
theorem Reachable.invariant {I : σ → Prop} (h0 : ∀ s, init s → I s)
    (hstep : ∀ s s', Reachable init step s → I s → step s s' → I s') {s : σ}
    (h : Reachable init step s) : I s := by
  rcases h with ⟨past, htrace⟩
  generalize hstates : s :: past = states at htrace
  induction htrace generalizing s past with
  | start hinit =>
    cases hstates
    exact h0 _ hinit
  | @next s₁ s₂ past' hpast hs ih =>
    cases hstates
    exact hstep s₁ _ ⟨past', hpast⟩ (ih past' rfl) hs

/-! ## Runs of a given length -/

/-- That many steps lead from one state to the other. -/
inductive Steps (step : σ → σ → Prop) : Nat → σ → σ → Prop
  | refl (s : σ) : Steps step 0 s s
  | next {n : Nat} {s s' s'' : σ} : Steps step n s s' → step s' s'' → Steps step (n + 1) s s''

namespace Steps

variable {n : Nat} {s s' : σ}

theorem reachable {step' : σ → σ → Prop} (hsub : ∀ s s', step s s' → step' s s')
    (h : Steps step n s s') (hs : Reachable init step' s) : Reachable init step' s' := by
  induction h with
  | refl => exact hs
  | next _ hstep ih => exact (ih hs).next (hsub _ _ hstep)

/-- If every step does one unit of work, a run of `n` steps does `n` units. -/
theorem spent {I : σ → Prop} {work : σ → Nat}
    (hstep : ∀ s s', I s → step s s' → I s' ∧ work s = work s' + 1)
    (h : Steps step n s s') (hs : I s) : I s' ∧ work s = work s' + n := by
  induction h with
  | refl => exact ⟨hs, rfl⟩
  | next _ hlast ih =>
    obtain ⟨hmid, hwork⟩ := ih hs
    obtain ⟨hend, hone⟩ := hstep _ _ hmid hlast
    refine ⟨hend, ?_⟩
    rw [hwork, hone]
    omega

end Steps

end SoftHier.Foundation
