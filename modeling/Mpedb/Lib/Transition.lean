import Mathlib.Data.List.Basic
import Mathlib.Data.Option.Basic
import Mathlib.Tactic.SplitIfs

/-!
# Labelled transition systems

A system is a partial step function `step : σ → ι → Option σ`: a label that is not enabled in a
state gives `none`. `Reaches` collects the states of the runs in which every step meets a guard on
the state before the step, and `run` executes such a run from its list of labels.
-/

namespace Transition

variable {σ ι : Type*}

/-- `s` is a state of a run from `s₀` whose steps all meet `guard`. -/
inductive Reaches (step : σ → ι → Option σ) (guard : σ → ι → Prop) (s₀ : σ) : σ → Prop
  | refl : Reaches step guard s₀ s₀
  | tail {s s' : σ} {a : ι} : Reaches step guard s₀ s → guard s a → step s a = some s' →
      Reaches step guard s₀ s'

variable {step : σ → ι → Option σ} {guard : σ → ι → Prop} {s₀ s : σ}

/-- A property of the first state that every guarded step keeps holds along the whole run. -/
theorem Reaches.invariant {P : σ → Prop} (h₀ : P s₀)
    (hstep : ∀ s a s', P s → guard s a → step s a = some s' → P s')
    (h : Reaches step guard s₀ s) : P s := by
  induction h with
  | refl => exact h₀
  | tail _ hg hs ih => exact hstep _ _ _ ih hg hs

/-- The run over a list of actions; it stops where the guard or the step refuses. -/
def run (step : σ → ι → Option σ) (guard : σ → ι → Prop) [∀ s a, Decidable (guard s a)] :
    σ → List ι → Option σ
  | s, [] => some s
  | s, a :: as => if guard s a then (step s a).bind fun s' => run step guard s' as else none

theorem Reaches.head {s' : σ} {a : ι} (hg : guard s₀ a) (hs : step s₀ a = some s)
    (h : Reaches step guard s s') : Reaches step guard s₀ s' := by
  induction h with
  | refl => exact .tail .refl hg hs
  | tail _ hg' hs' ih => exact .tail ih hg' hs'

theorem Reaches.trans {s' : σ} (h : Reaches step guard s₀ s) (h' : Reaches step guard s s') :
    Reaches step guard s₀ s' := by
  induction h' with
  | refl => exact h
  | tail _ hg hs ih => exact .tail ih hg hs

theorem Reaches.imp {guard' : σ → ι → Prop} (hg : ∀ s a, guard s a → guard' s a)
    (h : Reaches step guard s₀ s) : Reaches step guard' s₀ s := by
  induction h with
  | refl => exact .refl
  | tail _ hga hs ih => exact .tail ih (hg _ _ hga) hs

theorem Reaches.of_run [∀ s a, Decidable (guard s a)] :
    ∀ (as : List ι) {s₀ : σ}, run step guard s₀ as = some s → Reaches step guard s₀ s
  | [], s₀, h => by
    cases h
    exact .refl
  | a :: as, s₀, h => by
    simp only [run] at h
    split_ifs at h with hg
    obtain ⟨s', hs', hrun⟩ := Option.bind_eq_some_iff.1 h
    exact .head hg hs' (.of_run as hrun)

theorem Reaches.of_foldlM : ∀ {as : List ι} {s₀ : σ}, as.foldlM step s₀ = some s →
    (∀ a ∈ as, ∀ s, guard s a) → Reaches step guard s₀ s
  | [], s₀, h, _ => by
    cases h
    exact .refl
  | a :: as, s₀, h, hg => by
    obtain ⟨s', hs', hrun⟩ := Option.bind_eq_some_iff.1 h
    exact .head (hg a (List.mem_cons_self ..) s₀) hs'
      (.of_foldlM hrun fun a' ha => hg a' (List.mem_cons_of_mem _ ha))

/-- A computed fact about the state a run ends in, as a fact about a reachable state. -/
theorem exists_reaches (step : σ → ι → Option σ) (guard : σ → ι → Prop)
    [∀ s a, Decidable (guard s a)] (s₀ : σ) (as : List ι) (P : σ → Prop) [DecidablePred P]
    (h : (run step guard s₀ as).any (fun s => decide (P s)) = true) :
    ∃ s, Reaches step guard s₀ s ∧ P s := by
  rcases hr : run step guard s₀ as with _ | s
  · simp [hr] at h
  · exact ⟨s, .of_run as hr, by simpa [hr] using h⟩

end Transition
