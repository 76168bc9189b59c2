import Mathlib.Order.Lattice
import Mathlib.Order.MinMax
import Mathlib.Logic.Function.Basic

/-!
# Timelines

Resources that are booked for spans of time. A booking discipline that starts every span when its resource is free, and
keeps the resource until the span ends, never books a resource twice for one time (`Books.apart`). Stages of spans follow
each other when none of a stage starts before the one before it has ended (`Staged`).
-/

namespace Lib

variable {ρ κ : Type}

/-- A resource in use from `start` to `finish`. -/
structure Span (ρ κ : Type) where
  resource : ρ
  start : κ
  finish : κ

section Books

variable [DecidableEq ρ] [Preorder κ] {free free' free'' : ρ → κ} {spans spans' : List (Span ρ κ)} {s : Span ρ κ}

/-- The spans are booked one after the other: each starts when its resource is free, which is then free when it ends. -/
inductive Books : (ρ → κ) → List (Span ρ κ) → (ρ → κ) → Prop
  | nil {free : ρ → κ} : Books free [] free
  | cons {free free' : ρ → κ} {s : Span ρ κ} {spans : List (Span ρ κ)} (hstart : free s.resource ≤ s.start)
      (hspans : Books (Function.update free s.resource s.finish) spans free') : Books free (s :: spans) free'

theorem Books.append (h : Books free spans free') (h' : Books free' spans' free'') :
    Books free (spans ++ spans') free'' := by
  induction h with
  | nil => exact h'
  | cons hstart _ ih => exact .cons hstart (ih h')

/-- A booked span starts after its resource was free at first, if no span ends before it starts. -/
theorem Books.free_le_start (h : Books free spans free') (hforward : ∀ s ∈ spans, s.start ≤ s.finish) (hs : s ∈ spans) :
    free s.resource ≤ s.start := by
  induction h with
  | nil => cases hs
  | @cons free _ first rest hstart _ ih =>
    obtain ⟨hfirst, hforward⟩ := List.forall_mem_cons.mp hforward
    rcases List.mem_cons.mp hs with rfl | hs
    · exact hstart
    · have hle := ih hforward hs
      by_cases heq : s.resource = first.resource
      · rw [heq, Function.update_self] at hle
        rw [heq]
        exact (hstart.trans hfirst).trans hle
      · rwa [Function.update_of_ne heq] at hle

/-- Of two spans on a resource, the one booked first ends before the other starts. -/
theorem Books.apart (h : Books free spans free') (hforward : ∀ s ∈ spans, s.start ≤ s.finish) :
    spans.Pairwise fun a b => a.resource = b.resource → a.finish ≤ b.start := by
  induction h with
  | nil => exact .nil
  | @cons free _ first rest _ hrest ih =>
    obtain ⟨-, hforward⟩ := List.forall_mem_cons.mp hforward
    refine List.pairwise_cons.mpr ⟨fun s hs heq => ?_, ih hforward⟩
    have hle := hrest.free_le_start hforward hs
    rwa [← heq, Function.update_self] at hle

end Books

/-! ## The latest of some times -/

section Latest

variable [LinearOrder κ] {times : List κ} {ready t : κ}

theorem le_foldl_max : ready ≤ times.foldl max ready := by
  induction times generalizing ready with
  | nil => exact le_refl _
  | cons t times ih => exact (le_max_left _ _).trans ih

theorem mem_le_foldl_max (ht : t ∈ times) : t ≤ times.foldl max ready := by
  induction times generalizing ready with
  | nil => cases ht
  | cons first times ih =>
    rcases List.mem_cons.mp ht with rfl | ht
    · exact (le_max_right _ _).trans le_foldl_max
    · exact ih ht

theorem foldl_max_cases : times.foldl max ready = ready ∨ times.foldl max ready ∈ times := by
  induction times generalizing ready with
  | nil => exact .inl rfl
  | cons first times ih =>
    rw [List.foldl_cons]
    rcases @ih (max ready first) with heq | hmem
    · rw [heq]
      rcases max_choice ready first with hmax | hmax
      · exact .inl hmax
      · rw [hmax]
        exact .inr (List.mem_cons_self ..)
    · exact .inr (List.mem_cons_of_mem _ hmem)

end Latest

section Staged

variable [LinearOrder κ] {ready finish : κ} {stage : List (Span ρ κ)} {stages : List (List (Span ρ κ))} {s : Span ρ κ}

/-- When the last of the spans ends, `ready` if there are none. -/
def latest (ready : κ) (stage : List (Span ρ κ)) : κ := (stage.map (·.finish)).foldl max ready

theorem le_latest : ready ≤ latest ready stage := le_foldl_max

theorem finish_le_latest (hs : s ∈ stage) : s.finish ≤ latest ready stage := mem_le_foldl_max (List.mem_map_of_mem hs)

/-- Stages from `ready` to `finish`: no span starts before the stage before it has ended. -/
inductive Staged : κ → List (List (Span ρ κ)) → κ → Prop
  | nil {ready : κ} : Staged ready [] ready
  | cons {ready finish : κ} {stage : List (Span ρ κ)} {stages : List (List (Span ρ κ))}
      (hstage : ∀ s ∈ stage, ready ≤ s.start) (hstages : Staged (latest ready stage) stages finish) :
      Staged ready (stage :: stages) finish

theorem Staged.ready_le_finish (h : Staged ready stages finish) : ready ≤ finish := by
  induction h with
  | nil => exact le_refl _
  | cons _ _ ih => exact le_latest.trans ih

theorem Staged.ready_le_start (h : Staged ready stages finish) (hs : s ∈ stages.flatten) : ready ≤ s.start := by
  induction h with
  | nil => cases hs
  | cons hstage _ ih =>
    rw [List.flatten_cons] at hs
    rcases List.mem_append.mp hs with hs | hs
    · exact hstage s hs
    · exact le_latest.trans (ih hs)

theorem Staged.finish_le (h : Staged ready stages finish) (hs : s ∈ stages.flatten) : s.finish ≤ finish := by
  induction h with
  | nil => cases hs
  | cons _ hstages ih =>
    rw [List.flatten_cons] at hs
    rcases List.mem_append.mp hs with hs | hs
    · exact (finish_le_latest hs).trans hstages.ready_le_finish
    · exact ih hs

/-- The stages end when one of their spans does, unless they end at once. -/
theorem Staged.attained (h : Staged ready stages finish) : finish = ready ∨ ∃ s ∈ stages.flatten, s.finish = finish := by
  induction h with
  | nil => exact .inl rfl
  | @cons ready finish stage stages _ _ ih =>
    rw [List.flatten_cons]
    rcases ih with rfl | ⟨s, hs, heq⟩
    · have hlatest : latest ready stage = ready ∨ latest ready stage ∈ stage.map (·.finish) := foldl_max_cases
      rcases hlatest with heq | hmem
      · exact .inl heq
      · obtain ⟨s, hs, heq⟩ := List.mem_map.mp hmem
        exact .inr ⟨s, List.mem_append_left _ hs, heq⟩
    · exact .inr ⟨s, List.mem_append_right _ hs, heq⟩

/-- A span of a stage ends before any span of the next stage starts. -/
theorem Staged.finish_le_start (h : Staged ready stages finish) {i : Nat} {before after : List (Span ρ κ)}
    (hbefore : stages[i]? = some before) (hafter : stages[i + 1]? = some after) {s t : Span ρ κ} (hs : s ∈ before)
    (ht : t ∈ after) : s.finish ≤ t.start := by
  induction h generalizing i with
  | nil => cases hbefore
  | @cons ready finish stage stages _ hstages ih =>
    cases i with
    | zero =>
      obtain rfl : stage = before := Option.some.inj hbefore
      have hmem : t ∈ stages.flatten := List.mem_flatten.mpr ⟨after, List.mem_of_getElem? hafter, ht⟩
      exact (finish_le_latest hs).trans (hstages.ready_le_start hmem)
    | succ i => exact ih hbefore hafter

end Staged

end Lib
