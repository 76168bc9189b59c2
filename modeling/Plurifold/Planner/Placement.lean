import Plurifold.Planner.Shards

/-!
# What a placement costs

`placementCost` is the cost of one task on one resource, `choose` the cheapest of these (`choose_ok`, `choose_le`).
The cost of a task depends on the sizes and locations of its inputs, not on their names (`placementCost_related`); so
the name of an object that is still to be made plays no part in it.
-/

namespace Plurifold

open Lib

variable {F : Type} [F64 F] {scheduler : TopologyAwareScheduler F} {task task' : TaskSpec F}
  {resource : ResourceDescriptor F} {resources : List (ResourceDescriptor F)} {objects objects' : Objects}
  {topology : TopologySnapshot F}

/-! ## The cheapest placement -/

theorem minBy_none {α : Type} {cmp : α → α → Ordering} {l : List α} : minBy cmp l = none ↔ l = [] := by
  cases l with
  | nil => simp [minBy]
  | cons a l => simp [minBy]

/-- A task can be placed on a resource that supports it and reaches its inputs, which are all published. -/
theorem placementCost_eq : placementCost scheduler task resource objects topology =
    if (task.inputs.all fun input => (objects.lookup input).isSome) && resource.supports task.requirements then
      scheduler.scoreCandidate task resource objects topology
    else none := by
  unfold placementCost TopologyAwareScheduler.choose
  cases hmissing : task.inputs.find? fun input => (objects.lookup input).isNone with
  | some input =>
    have hinput := List.find?_some hmissing
    have hmem := List.mem_of_find?_eq_some hmissing
    rw [if_neg]
    rw [Bool.and_eq_true, List.all_eq_true]
    rintro ⟨hall, -⟩
    have := hall input hmem
    rw [Option.isNone_iff_eq_none.mp hinput] at this
    cases this
  | none =>
    have hall : (task.inputs.all fun input => (objects.lookup input).isSome) = true := by
      rw [List.all_eq_true]
      intro input hmem
      have := List.find?_eq_none.mp hmissing input hmem
      simpa [Option.isSome_iff_ne_none] using this
    rw [hall, Bool.true_and]
    by_cases hsupports : resource.supports task.requirements = true
    · rw [if_pos hsupports]
      cases hcost : scheduler.scoreCandidate task resource objects topology with
      | none => simp [hsupports, hcost, minBy]
      | some cost => simp [hsupports, hcost, minBy]
    · rw [if_neg hsupports]
      simp [hsupports, minBy]

/-- The placements among which the scheduler chooses are those that have a cost. -/
theorem mem_candidates_iff (hall : (task.inputs.all fun input => (objects.lookup input).isSome) = true)
    (decision : PlacementDecision F) :
    decision ∈ (resources.filter fun resource => resource.supports task.requirements).filterMap (fun resource =>
      (scheduler.scoreCandidate task resource objects topology).map fun cost => ⟨resource.id, cost⟩) ↔
    ∃ resource ∈ resources, resource.id = decision.resourceId ∧
      placementCost scheduler task resource objects topology = some decision.cost := by
  simp only [List.mem_filterMap, List.mem_filter, Option.map_eq_some_iff, placementCost_eq, hall, Bool.true_and]
  constructor
  · rintro ⟨resource, ⟨hmem, hsupports⟩, cost, hcost, rfl⟩
    exact ⟨resource, hmem, rfl, by rw [if_pos hsupports, hcost]⟩
  · rintro ⟨resource, hmem, hid, hcost⟩
    by_cases hsupports : resource.supports task.requirements = true
    · rw [if_pos hsupports] at hcost
      exact ⟨resource, ⟨hmem, hsupports⟩, decision.cost, hcost, by rw [hid]⟩
    · rw [if_neg hsupports] at hcost
      cases hcost

/-- A placement has a cost only if all inputs are published. -/
theorem published_of_cost {cost : PlacementBreakdown F}
    (h : placementCost scheduler task resource objects topology = some cost) :
    (task.inputs.all fun input => (objects.lookup input).isSome) = true := by
  rw [placementCost_eq] at h
  split at h
  · rename_i hok
    rw [Bool.and_eq_true] at hok
    exact hok.1
  · cases h

/-- The scheduler chooses among the placements by their total cost. -/
theorem choose_eq (hall : (task.inputs.all fun input => (objects.lookup input).isSome) = true) :
    scheduler.choose task resources objects topology =
      match minBy (fun a b => F64.totalCmp a.cost.totalMs b.cost.totalMs)
        ((resources.filter fun resource => resource.supports task.requirements).filterMap fun resource =>
          (scheduler.scoreCandidate task resource objects topology).map fun cost => ⟨resource.id, cost⟩) with
      | some decision => .ok decision
      | none => .error .noCandidate := by
  have hmissing : (task.inputs.find? fun input => (objects.lookup input).isNone) = none := by
    rw [List.find?_eq_none]
    intro input hmem
    have := List.all_eq_true.mp hall input hmem
    simpa [Option.isSome_iff_ne_none] using this
  unfold TopologyAwareScheduler.choose
  split
  · rename_i hinput
    rw [hmissing] at hinput
    cases hinput
  · rfl

/-- What the scheduler chooses is a placement. -/
theorem choose_ok {decision : PlacementDecision F} (h : scheduler.choose task resources objects topology = .ok decision) :
    ∃ resource ∈ resources, resource.id = decision.resourceId ∧
      placementCost scheduler task resource objects topology = some decision.cost := by
  by_cases hall : (task.inputs.all fun input => (objects.lookup input).isSome) = true
  · rw [choose_eq hall] at h
    split at h
    · rename_i best hbest
      cases h
      exact (mem_candidates_iff hall _).mp (minBy_mem hbest)
    · cases h
  · exfalso
    unfold TopologyAwareScheduler.choose at h
    split at h
    · cases h
    · rename_i hmissing
      refine hall (List.all_eq_true.mpr fun input hmem => ?_)
      have := List.find?_eq_none.mp hmissing input hmem
      simpa [Option.isSome_iff_ne_none] using this

/-- The scheduler chooses unless no placement has a cost. -/
theorem exists_choose {cost : PlacementBreakdown F} (hmem : resource ∈ resources)
    (h : placementCost scheduler task resource objects topology = some cost) :
    ∃ decision, scheduler.choose task resources objects topology = .ok decision := by
  have hall := published_of_cost h
  rw [choose_eq hall]
  split
  · exact ⟨_, rfl⟩
  · rename_i hnone
    have hcandidate := (mem_candidates_iff hall ⟨resource.id, cost⟩).mpr ⟨resource, hmem, rfl, h⟩
    rw [minBy_none.mp hnone] at hcandidate
    cases hcandidate

/-- On rationals, no placement is cheaper than the one the scheduler chooses. -/
theorem choose_le {scheduler : TopologyAwareScheduler ℚ} {task : TaskSpec ℚ} {resource : ResourceDescriptor ℚ}
    {resources : List (ResourceDescriptor ℚ)} {topology : TopologySnapshot ℚ} {decision : PlacementDecision ℚ}
    (h : scheduler.choose task resources objects topology = .ok decision) (hmem : resource ∈ resources)
    {cost : PlacementBreakdown ℚ} (hcost : placementCost scheduler task resource objects topology = some cost) :
    decision.cost.totalMs ≤ cost.totalMs := by
  have hall := published_of_cost hcost
  rw [choose_eq hall] at h
  split at h
  · rename_i best hbest
    cases h
    exact minBy_le hbest ⟨resource.id, cost⟩
      ((mem_candidates_iff hall _).mpr ⟨resource, hmem, rfl, hcost⟩)
  · cases h

/-! ## Where inputs are -/

/-- The object is published, and it is on the resource, empty, or on a resource with a link to it. -/
def Reachable (objects : Objects) (topology : TopologySnapshot F) (resource : ResourceId) (o : ObjectId) : Prop :=
  ∃ object, objects.lookup o = some object ∧ (object.isLocalTo resource = true ∨ object.sizeBytes = 0 ∨
    (bestTransfer topology resource object object.sizeBytes).isSome = true)

theorem inputTransfer_isSome (hrange : ∀ i, task.inputByteRange i = none) (r : ResourceId) (inputs : List ObjectId)
    (i : Nat) (total : F) : (inputTransfer task r objects topology i inputs total).isSome = true ↔
      ∀ o ∈ inputs, Reachable objects topology r o := by
  induction inputs generalizing i total with
  | nil => simp [inputTransfer]
  | cons o rest ih =>
    rw [List.forall_mem_cons, inputTransfer]
    cases hobject : objects.lookup o with
    | none => simp [Reachable, hobject]
    | some object =>
      simp only [Reachable, hobject, Option.some.injEq, exists_eq_left', hrange]
      by_cases hlocal : object.isLocalTo r = true
      · rw [if_pos hlocal, ih]
        simp [hlocal, Reachable]
      · rw [if_neg hlocal]
        by_cases hempty : object.sizeBytes = 0
        · rw [if_pos hempty, ih]
          simp [hempty, Reachable]
        · rw [if_neg hempty]
          cases hbest : bestTransfer (F := F) topology r object object.sizeBytes with
          | none => simp [hlocal, hempty]
          | some ms => simp [ih, Reachable]

/-- A task that reads whole objects can be placed where its requirements are met and its inputs can be got. -/
theorem placementCost_isSome (hrange : ∀ i, task.inputByteRange i = none) :
    (placementCost scheduler task resource objects topology).isSome = true ↔
      resource.supports task.requirements = true ∧ ∀ o ∈ task.inputs, Reachable objects topology resource.id o := by
  rw [placementCost_eq, ← inputTransfer_isSome hrange resource.id task.inputs 0 (F64.ofNat 0)]
  by_cases hall : (task.inputs.all fun input => (objects.lookup input).isSome) = true
  · rw [hall, Bool.true_and]
    by_cases hsupports : resource.supports task.requirements = true
    · simp [hsupports, TopologyAwareScheduler.scoreCandidate]
    · simp [hsupports]
  · rw [if_neg (fun h => hall (Bool.and_eq_true _ _ ▸ h).1)]
    refine iff_of_false (by simp) ?_
    rintro ⟨-, hsome⟩
    refine hall (List.all_eq_true.mpr fun o ho => ?_)
    obtain ⟨object, hobject, -⟩ := (inputTransfer_isSome hrange _ _ _ _).mp hsome o ho
    rw [hobject]
    rfl

/-! ## Names of inputs -/

/-- What the scheduler reads of an object: its size and where it is. -/
def placed (objects : Objects) (o : ObjectId) : Option (UInt64 × List ResourceId) :=
  (objects.lookup o).map fun object => (object.sizeBytes, object.locations)

theorem inputTransfer_related (hrange : ∀ i, task'.inputByteRange i = task.inputByteRange i) {r : ResourceId}
    {inputs inputs' : List ObjectId} (h : List.Forall₂ (fun o o' => placed objects' o' = placed objects o) inputs inputs') :
    ∀ (i : Nat) (total : F),
      inputTransfer task' r objects' topology i inputs' total = inputTransfer task r objects topology i inputs total := by
  induction h with
  | nil => exact fun i total => rfl
  | @cons o o' rest rest' ho _ ih =>
    intro i total
    unfold inputTransfer
    unfold placed at ho
    cases hobject : objects.lookup o with
    | none =>
      rw [hobject, Option.map_none, Option.map_eq_none_iff] at ho
      rw [ho]
    | some object =>
      rw [hobject, Option.map_some, Option.map_eq_some_iff] at ho
      obtain ⟨object', hobject', hsame⟩ := ho
      obtain ⟨hsize, hlocations⟩ := Prod.mk.inj hsame
      have hlocal : object'.isLocalTo r = object.isLocalTo r := by
        rw [ObjectMetadata.isLocalTo, hlocations]
        rfl
      have hbest : ∀ bytes, bestTransfer topology r object' bytes = bestTransfer topology r object bytes := by
        intro bytes
        rw [bestTransfer, hlocations]
        rfl
      rw [hobject']
      simp only [hlocal, hrange, hsize, hbest, ih]

/-- Tasks alike but for the names of their inputs cost the same. -/
theorem placementCost_related (hrequirements : task'.requirements = task.requirements) (hcost : task'.cost = task.cost)
    (hrange : ∀ i, task'.inputByteRange i = task.inputByteRange i)
    (hinputs : List.Forall₂ (fun o o' => placed objects' o' = placed objects o) task.inputs task'.inputs) :
    placementCost scheduler task' resource objects' topology = placementCost scheduler task resource objects topology := by
  have hall : ∀ {inputs inputs' : List ObjectId},
      List.Forall₂ (fun o o' => placed objects' o' = placed objects o) inputs inputs' →
      (inputs'.all fun input => (objects'.lookup input).isSome) =
        (inputs.all fun input => (objects.lookup input).isSome) := by
    intro inputs inputs' h
    induction h with
    | nil => rfl
    | @cons o o' _ _ ho _ ih =>
      have hsome := congrArg Option.isSome ho
      rw [placed, placed, Option.isSome_map, Option.isSome_map] at hsome
      rw [List.all_cons, List.all_cons, ih, hsome]
  rw [placementCost_eq, placementCost_eq, hall hinputs, hrequirements]
  simp only [TopologyAwareScheduler.scoreCandidate, hcost, inputTransfer_related hrange hinputs]

/-! ## Objects to come -/

/-- The output of a role that has not run yet. -/
def predictedOutput (o : ObjectId) (bytes : UInt64) (resource : ResourceId) : ObjectMetadata :=
  { id := o, sizeBytes := bytes, digest := none, encoding := none, locations := [resource], producer := none }

/-! ## Samples -/

def sampleRole (name : String) (outputBytes : UInt64) : LogicalRoleSpec ℚ where
  name := name
  implementations := [⟨"plain", ⟨"builtin:identity", "run", [], [], {}, .pure, ⟨1, outputBytes⟩⟩⟩]
  dependsOn := []
  shards := .fixed 1
  reduction := none

def sampleResource (uuid : Nat) : ResourceDescriptor ℚ where
  id := ⟨uuid⟩
  epoch := 1
  architecture := .x86_64
  memoryBytes := 0
  accelerators := []
  features := ∅
  performanceScore := 1
  queueDelayMs := 0
  startupDelayMs := 0
  failureProbability := 0

def sampleNames : Env := .numbered fun _ => 0

end Plurifold
