import Mathlib.Algebra.BigOperators.Group.List.Basic
import Mathlib.Data.List.Forall2

/-!
# Dataflow

The nodes of a graph hold values, and a node makes its value from those of the nodes that it depends on. It may have
several ways to do so, and then several values (`Flow`), of which a `Valuation` picks one; where no node has a choice, no
node has two values (`Flow.agree`).

A list of values may be combined in groups of neighbours, the results again in groups, and so on (`Combines`). Whatever
the groups are, what replacing a group by its result does not change is the same at the end (`Combines.invariant`), so
what is added up in every group is added up over all (`Combines.sum`).
-/

namespace Lib

variable {ν α β M : Type}

/-! ## Values of nodes -/

/-- The values that a node can have. `step n deps inputs out`: node `n` can make `out` of `inputs`, the values of the
nodes `deps`. -/
inductive Flow (step : ν → List ν → List α → α → Prop) : ν → α → Prop
  | node {n : ν} {deps : List ν} {value : ν → α} {out : α} : (∀ d ∈ deps, Flow step d (value d)) →
      step n deps (deps.map value) out → Flow step n out

variable {step step' : ν → List ν → List α → α → Prop}

/-- One value for each of the nodes, which it makes of the values of the nodes that it depends on. -/
def Valuation (step : ν → List ν → List α → α → Prop) (nodes : Set ν) (value : ν → α) : Prop :=
  ∀ n ∈ nodes, ∃ deps, (∀ d ∈ deps, d ∈ nodes) ∧ step n deps (deps.map value) (value n)

/-- A valuation gives nodes values that they can have, where dependencies come to an end. -/
theorem Valuation.flow {before : ν → ν → Prop}
    (hbefore : ∀ n deps inputs out, step n deps inputs out → ∀ d ∈ deps, before d n)
    {nodes : Set ν} {value : ν → α} (h : Valuation step nodes value) {n : ν} (hacc : Acc before n) (hn : n ∈ nodes) :
    Flow step n (value n) := by
  induction hacc with
  | intro n _ ih =>
    obtain ⟨deps, hdeps, hstep⟩ := h n hn
    exact .node (fun d hd => ih d (hbefore n deps _ _ hstep d hd) (hdeps d hd)) hstep

/-- **No choice, one value.** Nodes that depend on the same nodes in both graphs, and make the same of the same, have
the same value in both. -/
theorem Flow.agree (hstep : ∀ n deps deps' inputs inputs' out out', step n deps inputs out →
    step' n deps' inputs' out' → deps = deps' ∧ (inputs = inputs' → out = out')) {n : ν} {a b : α}
    (h : Flow step n a) (h' : Flow step' n b) : a = b := by
  induction h generalizing b with
  | @node n deps value out _ hnode ih =>
    cases h' with
    | @node _ deps' value' _ hdeps' hnode' =>
      obtain ⟨rfl, hsame⟩ := hstep _ _ _ _ _ _ _ hnode hnode'
      exact hsame (List.map_congr_left fun d hd => ih d hd (hdeps' d hd))

/-! ## Combining neighbours -/

/-- The first list can be combined into the second: some of its values are kept, others reduced in groups of neighbours
that may have been combined before. -/
inductive Combines (reduce : List α → α → Prop) : List α → List α → Prop
  | nil : Combines reduce [] []
  | keep {a : α} {values results : List α} : Combines reduce values results → Combines reduce (a :: values) (a :: results)
  | reduce {group values rest results : List α} {a : α} : Combines reduce values group → reduce group a →
      Combines reduce rest results → Combines reduce (values ++ rest) (a :: results)

variable {reduce : List α → α → Prop} {values results : List α}

/-- What holds of the values and of what is reduced holds of the results. -/
theorem Combines.all {p : α → Prop} (hreduce : ∀ group a, reduce group a → p a) (h : Combines reduce values results)
    (hvalues : ∀ a ∈ values, p a) : ∀ a ∈ results, p a := by
  induction h with
  | nil => exact hvalues
  | keep _ ih =>
    obtain ⟨hfirst, hrest⟩ := List.forall_mem_cons.mp hvalues
    exact List.forall_mem_cons.mpr ⟨hfirst, ih hrest⟩
  | reduce _ hgroup _ _ ih =>
    exact List.forall_mem_cons.mpr ⟨hreduce _ _ hgroup, ih fun a ha => hvalues a (List.mem_append_right _ ha)⟩

/-- **Groups do not matter** for what a reduction of neighbours does not change. -/
theorem Combines.invariant (total : List α → β) (htotal : ∀ before group a after, reduce group a →
    total (before ++ a :: after) = total (before ++ (group ++ after))) (h : Combines reduce values results) :
    ∀ before after, total (before ++ (results ++ after)) = total (before ++ (values ++ after)) := by
  induction h with
  | nil => exact fun _ _ => rfl
  | @keep a values results _ ih =>
    intro before after
    have h := ih (before ++ [a]) after
    simpa only [List.append_assoc, List.cons_append, List.nil_append] using h
  | @reduce group values rest results a _ hreduce _ ih ih' =>
    intro before after
    calc total (before ++ (a :: results ++ after))
        = total (before ++ (group ++ (results ++ after))) := htotal _ _ _ _ hreduce
      _ = total (before ++ (values ++ (results ++ after))) := ih _ _
      _ = total (before ++ values ++ (results ++ after)) := by rw [List.append_assoc]
      _ = total (before ++ values ++ (rest ++ after)) := ih' _ _
      _ = total (before ++ (values ++ rest ++ after)) := by simp only [List.append_assoc]

/-- What is added up in every group is added up over all. -/
theorem Combines.sum [AddMonoid M] (size : α → M) (hsize : ∀ group a, reduce group a → size a = (group.map size).sum)
    (h : Combines reduce values results) : (results.map size).sum = (values.map size).sum := by
  have hinvariant := h.invariant (fun l => (l.map size).sum) (fun before group a after hreduce => by
    simp only [List.map_append, List.map_cons, List.sum_append, List.sum_cons, hsize group a hreduce]) [] []
  simpa only [List.nil_append, List.append_nil] using hinvariant

end Lib
