import Mathlib.Logic.Function.Basic
import Mathlib.Order.Defs.Unbundled

/-!
# Processes that share a state

Each process has a state of its own, and all share one. A step of a process changes its own state and the shared one, and
a run takes steps of the processes in any order (`Processes.run`).

A proof outline gives the shared state an invariant and each process an assertion about what it has reached
(`Outline`). If every step keeps the invariant, the assertion of the process that takes it, and the assertions of all
others, they hold in every run (`Outline.holds_run`); and what every step does to the shared state then, a run does
(`Outline.along_run`).
-/

namespace Lib

/-- Processes named by `ι`. What a step does may also depend on an outcome, which the process does not choose. -/
structure Processes (ι ω π σ : Type) where
  step : ι → ω → π × σ → π × σ

namespace Processes

variable {ι ω π σ : Type}

structure State (ι π σ : Type) where
  own : ι → π
  shared : σ

variable [DecidableEq ι] (P : Processes ι ω π σ)

/-- The process `i` takes a step. -/
def next (s : State ι π σ) (i : ι) (outcome : ω) : State ι π σ :=
  let after := P.step i outcome (s.own i, s.shared)
  ⟨Function.update s.own i after.1, after.2⟩

def run (events : List (ι × ω)) (s : State ι π σ) : State ι π σ :=
  events.foldl (fun s event => P.next s event.1 event.2) s

end Processes

/-- An invariant of the shared state, and what each process may assert of it, kept by every step of every process. -/
structure Outline {ι ω π σ : Type} (P : Processes ι ω π σ) where
  inv : σ → Prop
  asserts : ι → π → σ → Prop
  keeps : ∀ i outcome p s, inv s → asserts i p s →
    inv (P.step i outcome (p, s)).2 ∧ asserts i (P.step i outcome (p, s)).1 (P.step i outcome (p, s)).2
  interferes : ∀ i outcome p s, inv s → asserts i p s → ∀ j q, j ≠ i → asserts j q s →
    asserts j q (P.step i outcome (p, s)).2

namespace Outline

variable {ι ω π σ : Type} [DecidableEq ι] {P : Processes ι ω π σ} (O : Outline P) {s : Processes.State ι π σ}

structure Holds (s : Processes.State ι π σ) : Prop where
  inv : O.inv s.shared
  asserts : ∀ i, O.asserts i (s.own i) s.shared

variable {O}

theorem Holds.next (h : O.Holds s) (i : ι) (outcome : ω) : O.Holds (P.next s i outcome) := by
  obtain ⟨hinv, hown⟩ := O.keeps i outcome (s.own i) s.shared h.inv (h.asserts i)
  refine ⟨hinv, fun j => ?_⟩
  by_cases hj : j = i
  · subst hj
    simp only [Processes.next, Function.update_self]
    exact hown
  · simp only [Processes.next, Function.update_of_ne hj]
    exact O.interferes i outcome _ _ h.inv (h.asserts i) j _ hj (h.asserts j)

/-- The invariant and all assertions hold whatever order the steps are taken in. -/
theorem holds_run (events : List (ι × ω)) (h : O.Holds s) : O.Holds (P.run events s) := by
  induction events generalizing s with
  | nil => exact h
  | cons event events ih => exact ih (h.next event.1 event.2)

/-- A run relates the shared states before and after as every step does. -/
theorem along_run {R : σ → σ → Prop} [IsPreorder σ R]
    (hR : ∀ i outcome p s, O.inv s → O.asserts i p s → R s (P.step i outcome (p, s)).2) (events : List (ι × ω))
    (h : O.Holds s) : R s.shared (P.run events s).shared := by
  induction events generalizing s with
  | nil => exact refl_of R s.shared
  | cons event events ih =>
    exact trans_of R (hR event.1 event.2 _ _ h.inv (h.asserts event.1)) (ih (h.next event.1 event.2))

end Outline

end Lib
