import Plurifold.Planner.Greedy

/-!
# The preview and the live selection of an unsharded role

The planner's preview places an unsharded role as its only shard (`chooseShards`), the runtime places it as a task
(`selectReadyRole`). Both choose the first of the cheapest placements, implementations first and resources within each
(`placements`): the preview scans all of them, the runtime scans the best of each implementation.
-/

namespace Plurifold

open Lib

variable {role : LogicalRoleSpec ℚ} {dependencyInputs : List ObjectId} {context : ShardPlanningContext ℚ} {e e' : Env}
  {task task' : TaskSpec ℚ} {resources : List (ResourceDescriptor ℚ)} {scheduler : TopologyAwareScheduler ℚ}
  {objects : Objects} {topology : TopologySnapshot ℚ}

/-- An implementation and where it is placed. -/
abbrev PlacedImplementation := String × PlacementDecision ℚ

def PlacedImplementation.totalMs (placement : PlacedImplementation) : ℚ := placement.2.cost.totalMs

def ReadyRoleSelection.placement (selection : ReadyRoleSelection ℚ) : PlacedImplementation :=
  (selection.implementation, ⟨selection.resourceId, selection.cost⟩)

def ReadyShardSelection.placement (selection : ReadyShardSelection ℚ) : PlacedImplementation :=
  (selection.implementation, ⟨selection.resourceId, selection.cost⟩)

/-! ## One implementation -/

/-- Where a task can be placed, in the order of the resources. -/
def decisions (scheduler : TopologyAwareScheduler ℚ) (task : TaskSpec ℚ) (resources : List (ResourceDescriptor ℚ))
    (objects : Objects) (topology : TopologySnapshot ℚ) : List (PlacementDecision ℚ) :=
  resources.filterMap fun resource =>
    (placementCost scheduler task resource objects topology).map fun cost => ⟨resource.id, cost⟩

/-- The scheduler chooses the first of the cheapest placements of a task. -/
theorem choose_toOption : (scheduler.choose task resources objects topology).toOption =
    (decisions scheduler task resources objects topology).argmin fun decision => decision.cost.totalMs := by
  by_cases hall : (task.inputs.all fun input => (objects.lookup input).isSome) = true
  · have hcandidates : (resources.filter fun resource => resource.supports task.requirements).filterMap (fun resource =>
        (scheduler.scoreCandidate task resource objects topology).map fun cost => ⟨resource.id, cost⟩) =
        decisions scheduler task resources objects topology := by
      rw [List.filterMap_filter]
      refine List.filterMap_congr fun resource _ => ?_
      rw [placementCost_eq, hall, Bool.true_and]
      split <;> rfl
    rw [choose_eq hall, minBy_eq_argmin, hcandidates]
    split <;> rename_i hmin <;> rw [hmin] <;> rfl
  · have hnone : decisions scheduler task resources objects topology = [] := by
      rw [decisions, List.filterMap_eq_nil_iff]
      intro resource _
      rw [placementCost_eq, if_neg (by simp [hall]), Option.map_none]
    rw [hnone, List.argmin_nil]
    cases hchoose : scheduler.choose task resources objects topology with
    | error _ => rfl
    | ok decision =>
      obtain ⟨resource, _, _, hcost⟩ := choose_ok hchoose
      exact absurd (published_of_cost hcost) hall

/-- The placements of one implementation of a role. -/
def placements (e : Env) (dependencyInputs : List ObjectId) (context : ShardPlanningContext ℚ)
    (implementation : RoleImplementation ℚ) : List PlacedImplementation :=
  (decisions context.scheduler (implementation.task.instantiate e dependencyInputs) context.resources context.objects
    context.topology).map fun decision => (implementation.name, decision)

/-- The names of its inputs and of the role that asks do not change where a task can be placed. -/
theorem decisions_related (hrequirements : task'.requirements = task.requirements) (hcost : task'.cost = task.cost)
    (hrange : ∀ i, task'.inputByteRange i = task.inputByteRange i) (hinputs : task'.inputs = task.inputs) :
    decisions scheduler task' resources objects topology = decisions scheduler task resources objects topology := by
  unfold decisions
  refine List.filterMap_congr fun resource _ => ?_
  rw [placementCost_related hrequirements hcost hrange (by rw [hinputs]; exact List.forall₂_same.mpr fun _ _ => rfl)]

/-! ## The live selection -/

/-- The runtime chooses among the best placements of the implementations. -/
theorem selectReadyRole_argmin (e e' : Env) :
    (selectReadyRole e role dependencyInputs context.scheduler context.resources context.objects context.topology).map
        ReadyRoleSelection.placement =
      (role.implementations.filterMap fun implementation =>
        (placements e' dependencyInputs context implementation).argmin PlacedImplementation.totalMs).argmin
          PlacedImplementation.totalMs := by
  have hbest : ∀ (implementation : RoleImplementation ℚ) (e : Env),
      (placements e' dependencyInputs context implementation).argmin PlacedImplementation.totalMs =
        (context.scheduler.choose (implementation.task.instantiate e dependencyInputs) context.resources context.objects
          context.topology).toOption.map fun decision => (implementation.name, decision) := by
    intro implementation e
    rw [placements, argmin_map (fun _ => rfl), choose_toOption]
    exact congrArg (Option.map _) (congrArg (List.argmin _) (decisions_related rfl rfl (fun _ => rfl) rfl))
  unfold selectReadyRole
  rw [argmin_eq_foldl, List.foldl_filterMap, ← List.zipIdx_map_fst 0 role.implementations, List.foldl_map,
    List.zipIdx_map_fst]
  change _ = List.foldl _ (Option.map ReadyRoleSelection.placement none) _
  refine (List.foldl_hom (Option.map ReadyRoleSelection.placement) fun best entry => ?_).symm
  obtain ⟨implementation, i⟩ := entry
  dsimp only
  rw [hbest implementation (e.sub i)]
  cases context.scheduler.choose (implementation.task.instantiate (e.sub i) dependencyInputs) context.resources
      context.objects context.topology with
  | error _ => rfl
  | ok decision =>
    cases best with
    | none => rfl
    | some current =>
      change (if decision.cost.totalMs < current.cost.totalMs then _ else _) =
        Option.map _ (if decide (decision.cost.totalMs < current.cost.totalMs) = true then _ else _)
      simp only [decide_eq_true_eq]
      split <;> rfl

/-! ## The preview -/

/-- On free resources, what costs less finishes first. -/
theorem finishesBefore_zero {a b : ℚ} : finishesBefore 0 a 0 b = decide (a < b) := by
  unfold finishesBefore
  rw [zero_add, zero_add]
  rcases totalCmp_cases a b with ⟨hcmp, hlt⟩ | ⟨hcmp, rfl⟩ | ⟨hcmp, hgt⟩
  · simp [hcmp, hlt]
  · simp [hcmp, F64.lt]
  · simp [hcmp, hgt.le]

theorem startMs_empty (resource : ResourceId) : startMs (0 : ℚ) ∅ resource = 0 := by
  rw [startMs, AList.lookup_empty]
  simp [F64.max, F64.ofNat]

/-- The scan of the resources for one implementation, from a choice that starts at once. -/
theorem bestShardOnResources_argmin (implementation : String) (task : TaskSpec ℚ) (index : UInt32)
    (context : ShardPlanningContext ℚ) {best : Option (ReadyShardSelection ℚ)}
    (h : ∀ current ∈ best, current.startMs = 0) :
    (∀ current ∈ bestShardOnResources implementation task index 0 ∅ context best, current.startMs = 0) ∧
    (bestShardOnResources implementation task index 0 ∅ context best).map ReadyShardSelection.placement =
      ((decisions context.scheduler task context.resources context.objects context.topology).map fun decision =>
        (implementation, decision)).foldl (offer PlacedImplementation.totalMs) (best.map ReadyShardSelection.placement) := by
  unfold bestShardOnResources decisions
  generalize context.resources = resources
  induction resources generalizing best with
  | nil => exact ⟨h, rfl⟩
  | cons resource resources ih =>
    rw [List.foldl_cons, List.filterMap_cons]
    cases placementCost context.scheduler task resource context.objects context.topology with
    | none => exact ih h
    | some cost =>
      rw [Option.map_some, List.map_cons, List.foldl_cons]
      cases best with
      | none =>
        refine ih fun current hcurrent => ?_
        cases hcurrent
        exact startMs_empty _
      | some current =>
        have hoffer : offer PlacedImplementation.totalMs (some current.placement) (implementation, ⟨resource.id, cost⟩) =
            if cost.totalMs < current.cost.totalMs then some (implementation, ⟨resource.id, cost⟩)
            else some current.placement := rfl
        dsimp only
        rw [startMs_empty, h current rfl, finishesBefore_zero, Option.map_some, hoffer]
        by_cases hlt : cost.totalMs < current.cost.totalMs
        · rw [if_pos (decide_eq_true hlt), if_pos hlt]
          refine ih fun current hcurrent => ?_
          cases hcurrent
          rfl
        · rw [if_neg (by simpa using hlt), if_neg hlt]
          exact ih h

/-- The preview chooses among all placements of all implementations. -/
theorem bestShard_argmin (e e' : Env) (role : LogicalRoleSpec ℚ) (dependencyInputs : List ObjectId)
    (context : ShardPlanningContext ℚ) (index count : UInt32) : ∃ best,
    bestShard e role dependencyInputs index count none 0 ∅ context = some best ∧
      best.map ReadyShardSelection.placement =
        (role.implementations.flatMap (placements e' dependencyInputs context)).argmin PlacedImplementation.totalMs := by
  unfold bestShard
  rw [argmin_eq_foldl]
  nth_rewrite 2 [← List.zipIdx_map_fst 0 role.implementations]
  rw [List.flatMap_map]
  generalize role.implementations.zipIdx = entries
  suffices hfrom : ∀ current : Option (ReadyShardSelection ℚ), (∀ selection ∈ current, selection.startMs = 0) →
      ∃ best, (entries.foldlM (fun best (entry : RoleImplementation ℚ × Nat) =>
        (instantiateShardTask (e.sub entry.2) entry.1.task dependencyInputs index count none context.objects).bind
          fun task => some (bestShardOnResources entry.1.name task index 0 ∅ context best)) current) = some best ∧
        best.map ReadyShardSelection.placement =
          (entries.flatMap fun entry => placements e' dependencyInputs context entry.1).foldl
            (offer PlacedImplementation.totalMs) (current.map ReadyShardSelection.placement) from
    hfrom none fun _ h => by cases h
  induction entries with
  | nil => exact fun current _ => ⟨current, rfl, rfl⟩
  | cons entry entries ih =>
    intro current hcurrent
    obtain ⟨hstart, hplaced⟩ := bestShardOnResources_argmin entry.1.name
      (shardTask (e.sub entry.2) entry.1.task dependencyInputs index count) index context hcurrent
    obtain ⟨best, hbest, hmin⟩ := ih _ hstart
    have hsame : decisions context.scheduler (shardTask (e.sub entry.2) entry.1.task dependencyInputs index count)
        context.resources context.objects context.topology =
      decisions context.scheduler (entry.1.task.instantiate e' dependencyInputs) context.resources context.objects
        context.topology := decisions_related rfl rfl (fun _ => rfl) rfl
    refine ⟨best, hbest, ?_⟩
    rw [hmin, hplaced, List.flatMap_cons, List.foldl_append, placements, hsame]

/-- Preview and live selection of an unsharded role find a placement for the same roles, and the same one: the same
implementation, resource and cost. -/
theorem preview_selects_live (e e' : Env) (role : LogicalRoleSpec ℚ) (dependencyInputs : List ObjectId)
    (context : ShardPlanningContext ℚ) :
    let preview := (chooseShards e role dependencyInputs 1 none 0 ∅ context).1
    let live := selectReadyRole e' role dependencyInputs context.scheduler context.resources context.objects
      context.topology
    (preview.isSome = live.isSome) ∧
      preview.map (fun selections => selections.map ReadyShardSelection.placement) =
        live.map fun selected => [selected.placement] := by
  intro preview live
  have hlive : live.map ReadyRoleSelection.placement =
      (role.implementations.flatMap (placements e dependencyInputs context)).argmin PlacedImplementation.totalMs := by
    rw [argmin_flatMap]
    exact selectReadyRole_argmin e' e
  obtain ⟨best, hbest, hmin⟩ := bestShard_argmin (e.sub 0) e role dependencyInputs context (UInt32.ofNat 0) 1
  rw [← hlive] at hmin
  suffices hsame : preview.map (fun selections => selections.map ReadyShardSelection.placement) =
      live.map fun selected => [selected.placement] by
    refine ⟨?_, hsame⟩
    rw [← Option.isSome_map (f := fun selections : List (ReadyShardSelection ℚ) => selections.map _), hsame,
      Option.isSome_map]
  have hpreview : preview = best.map fun selected => [selected] := by
    change (chooseShardsLoop e role dependencyInputs 1 none 0 context [0] ∅).1 = _
    rw [chooseShardsLoop, hbest]
    cases best with
    | none => rfl
    | some selected => rfl
  rw [hpreview, Option.map_map]
  cases best with
  | none =>
    cases hselected : live with
    | none => rfl
    | some selected => rw [hselected] at hmin; cases hmin
  | some shard =>
    cases hselected : live with
    | none => rw [hselected] at hmin; cases hmin
    | some selected =>
      rw [hselected, Option.map_some, Option.map_some, Option.some.injEq] at hmin
      simp [hmin]

end Plurifold
