import Plurifold.Planner.Reduction
import Plurifold.Planner.ShardSearch

/-!
# The plan of a job (`planner.rs`)

A plan is a preview of a whole job. Roles are selected one after the other, among those whose dependencies are selected
one with the fewest feasible placements. Its shards are placed, and while it has a reduction and more than one output,
another level of reducers. Every output is entered as an object that the later roles read; the availability of the
resources is carried along.

The two `while` loops get fuel, and running out of it is an outcome of its own, as is an index expression that finds no
entry. Neither happens in a job that passed validation (`plan_total`).
-/

namespace Plurifold

open Lib

variable {F : Type}

variable [F64 F]

structure PlannedPlacement (F : Type) where
  resourceId : ResourceId
  startMs : F
  finishMs : F
  computeMs : F
  inputTransferMs : F
  queueMs : F
  startupMs : F
  riskPenaltyMs : F
  totalMs : F

structure PlannedShard (F : Type) where
  index : UInt32
  implementation : String
  partition : Option TaskShardPartition
  placement : PlannedPlacement F

structure PlannedReduction (F : Type) where
  inputCount : Nat
  placement : PlannedPlacement F

structure PlannedReductionLevel (F : Type) where
  level : UInt32
  reducer : String
  reductions : List (PlannedReduction F)

structure PlannedRole (F : Type) where
  name : String
  shards : List (PlannedShard F)
  reductions : List (PlannedReductionLevel F)

structure CooperativePlan (F : Type) where
  roles : List (PlannedRole F)
  estimatedMakespanMs : F

structure SelectedRole (F : Type) where
  outputs : List ObjectId
  finishMs : F

/-- How planning can end without a plan. -/
inductive PlanFailure
  | error (err : PlanError)
  /-- An index expression found no entry. -/
  | panicked
  /-- The fuel of a loop ran out; the source's loops have none. -/
  | outOfFuel

/-- An index expression `map[key]`. -/
def index {α : Type} (m : Map String α) (key : String) : Except PlanFailure α :=
  match m.lookup key with
  | some a => .ok a
  | none => .error .panicked

/-! ## Placements of a role -/

def plannedPlacement (resourceId : ResourceId) (startMs : F) (cost : PlacementBreakdown F) : PlannedPlacement F where
  resourceId := resourceId
  startMs := startMs
  finishMs := startMs + cost.totalMs
  computeMs := cost.computeMs
  inputTransferMs := cost.inputTransferMs
  queueMs := cost.queueMs
  startupMs := cost.startupMs
  riskPenaltyMs := cost.riskPenaltyMs
  totalMs := cost.totalMs

def plannedShard (shard : ReadyShardSelection F) : PlannedShard F where
  index := shard.index
  implementation := shard.implementation
  partition := shard.task.shard.bind (·.partition)
  placement := plannedPlacement shard.resourceId shard.startMs shard.cost

def plannedReduction (selection : ReadyReductionSelection F) : PlannedReduction F where
  inputCount := selection.inputCount
  placement := plannedPlacement selection.resourceId selection.startMs selection.cost

/-- What the loops over the shards and over the reducers of a role collect. -/
structure Recorded (F β : Type) where
  outputs : List ObjectId
  planned : List β
  finishMs : F
  predictedObjects : Objects

/-- The loop over the selected shards, from number `i` on. -/
def recordShards (e : Env) : Nat → List (ReadyShardSelection F) → F → Objects → Recorded F (PlannedShard F)
  | _, [], finishMs, predictedObjects => ⟨[], [], finishMs, predictedObjects⟩
  | i, shard :: rest, finishMs, predictedObjects =>
    let output := ObjectId.new (e.sub i)
    let later := recordShards e (i + 1) rest (F64.max finishMs (shard.startMs + shard.cost.totalMs))
      (predictedObjects.insert output (predictedOutput output shard.task.cost.outputBytes shard.resourceId))
    { later with outputs := output :: later.outputs, planned := plannedShard shard :: later.planned }

/-- The loop over the items of a level, from number `i` on. -/
def recordItems (e : Env) : Nat → List (ReadyReductionItem F) → F → Objects → Recorded F (PlannedReduction F)
  | _, [], finishMs, predictedObjects => ⟨[], [], finishMs, predictedObjects⟩
  | i, .carry object :: rest, finishMs, predictedObjects =>
    let later := recordItems e (i + 1) rest finishMs predictedObjects
    { later with outputs := object :: later.outputs }
  | i, .reduce selection :: rest, finishMs, predictedObjects =>
    let output := ObjectId.new (e.sub i)
    let later := recordItems e (i + 1) rest (F64.max finishMs (selection.startMs + selection.cost.totalMs))
      (predictedObjects.insert output (predictedOutput output selection.task.cost.outputBytes selection.resourceId))
    { later with outputs := output :: later.outputs, planned := plannedReduction selection :: later.planned }

/-! ## Levels of reducers -/

/-- The variables of `plan` while it goes through the levels of a role. -/
structure RoleProgress (F : Type) where
  outputs : List ObjectId
  finishMs : F
  predictedObjects : Objects
  resourceAvailableMs : Availability F
  plannedReductions : List (PlannedReductionLevel F)

/-- The body of the loop over the levels. -/
def planLevel (e : Env) (role : LogicalRoleSpec F) (reduction : RoleReductionSpec F) (context : ShardPlanningContext F)
    (level : UInt32) (s : RoleProgress F) : Except PlanFailure (RoleProgress F) :=
  match selectReductionLevel (e.sub 0) reduction s.outputs s.finishMs s.resourceAvailableMs
      { context with objects := s.predictedObjects } with
  | (none, _) => .error (.error (.noFeasibleImplementation role.name))
  | (some items, resourceAvailableMs) =>
    let recorded := recordItems (e.sub 1) 0 items s.finishMs s.predictedObjects
    if s.outputs.length ≤ recorded.outputs.length then
      .error (.error (.invalidLogicalJob s!"role {role.name} reduction made no progress"))
    else
      .ok
        { outputs := recorded.outputs
          finishMs := recorded.finishMs
          predictedObjects := recorded.predictedObjects
          resourceAvailableMs
          plannedReductions := s.plannedReductions ++ [⟨level, reduction.name, recorded.planned⟩] }

/-- The loop over the levels. -/
def planLevels (role : LogicalRoleSpec F) (reduction : RoleReductionSpec F) (context : ShardPlanningContext F) :
    Nat → Env → UInt32 → RoleProgress F → Except PlanFailure (RoleProgress F)
  | 0, _, _, s => if s.outputs.length ≤ 1 then .ok s else .error .outOfFuel
  | fuel + 1, e, level, s =>
    if s.outputs.length ≤ 1 then .ok s
    else
      match planLevel (e.sub 0) role reduction context level s with
      | .error err => .error err
      | .ok s => planLevels role reduction context fuel (e.sub 1) (level + 1) s

/-! ## Roles -/

/-- The variables of `plan` between two roles. -/
structure PlanState (F : Type) where
  predictedObjects : Objects
  selected : Map String (SelectedRole F)
  resourceAvailableMs : Availability F
  plannedRoles : Map String (PlannedRole F)

def feasibleCandidateCount (e : Env) (role : LogicalRoleSpec F) (context : ShardPlanningContext F)
    (selected : Map String (SelectedRole F)) : Nat :=
  let dependencyInputs := role.dependsOn.flatMap fun dependency =>
    ((selected.lookup dependency).map (·.outputs)).getD []
  (role.implementations.zipIdx.map fun (implementation, i) =>
    let task := implementation.task.instantiate (e.sub i) dependencyInputs
    (context.resources.filter fun resource =>
      (placementCost context.scheduler task resource context.objects context.topology).isSome).length).sum

/-- The roles that are not selected and whose dependencies are. -/
def readyToPlan (spec : LogicalJobSpec F) (selected : Map String (SelectedRole F)) : List (LogicalRoleSpec F) :=
  (spec.roles.filter fun role => (selected.lookup role.name).isNone).filter fun role =>
    role.dependsOn.all fun dependency => (selected.lookup dependency).isSome

/-- `Iterator::min_by_key` over the ready roles. -/
def nextRole (e : Env) (spec : LogicalJobSpec F) (context : ShardPlanningContext F)
    (selected : Map String (SelectedRole F)) : Option (LogicalRoleSpec F) :=
  let key := fun (entry : LogicalRoleSpec F × Nat) => feasibleCandidateCount (e.sub entry.2) entry.1 context selected
  (minBy (fun a b => compare (key a) (key b)) (readyToPlan spec selected).zipIdx).map (·.1)

/-- When the dependencies have ended. -/
def dependencyReadyMs (dependencies : List (SelectedRole F)) : F :=
  (dependencies.map (·.finishMs)).foldl F64.max (F64.ofNat 0)

/-- The levels of a role whose shards are placed; none if it has no reduction. -/
def planReduction (fuel : Nat) (e : Env) (role : LogicalRoleSpec F) (context : ShardPlanningContext F)
    (placed : RoleProgress F) : Except PlanFailure (RoleProgress F) :=
  match role.reduction with
  | some reduction => planLevels role reduction context fuel e 0 placed
  | none => .ok placed

/-- The body of the loop over the roles, for the role that is selected. -/
def planRole (fuel : Nat) (e : Env) (role : LogicalRoleSpec F) (context : ShardPlanningContext F) (s : PlanState F) :
    Except PlanFailure (PlanState F) := do
  let dependencies ← role.dependsOn.mapM (index s.selected)
  let dependencyInputs := dependencies.flatMap (·.outputs)
  match chooseRoleShards (e.sub 0) role dependencyInputs (dependencyReadyMs dependencies) s.resourceAvailableMs
      { context with objects := s.predictedObjects } with
  | (none, _) => .error (.error (.noFeasibleImplementation role.name))
  | (some shards, resourceAvailableMs) =>
    let recorded := recordShards (e.sub 1) 0 shards (dependencyReadyMs dependencies) s.predictedObjects
    let reduced ← planReduction fuel (e.sub 2) role context
      { outputs := recorded.outputs
        finishMs := recorded.finishMs
        predictedObjects := recorded.predictedObjects
        resourceAvailableMs
        plannedReductions := [] }
    .ok
      { predictedObjects := reduced.predictedObjects
        selected := s.selected.insert role.name ⟨reduced.outputs, reduced.finishMs⟩
        resourceAvailableMs := reduced.resourceAvailableMs
        plannedRoles := s.plannedRoles.insert role.name ⟨role.name, recorded.planned, reduced.plannedReductions⟩ }

/-- The loop over the roles; the loops over the levels get the fuel `levels`. -/
def planLoop (spec : LogicalJobSpec F) (context : ShardPlanningContext F) (levels : Nat) :
    Nat → Env → PlanState F → Except PlanFailure (PlanState F)
  | 0, _, s => if spec.roles.length ≤ s.selected.keys.length then .ok s else .error .outOfFuel
  | fuel + 1, e, s =>
    if spec.roles.length ≤ s.selected.keys.length then .ok s
    else
      match nextRole (e.sub 0) spec { context with objects := s.predictedObjects } s.selected with
      | none => .error (.error (.invalidLogicalJob "role dependency graph contains a cycle"))
      | some role =>
        match planRole levels (e.sub 1) role context s with
        | .error err => .error err
        | .ok s => planLoop spec context levels fuel (e.sub 2) s

def plan (fuel : Nat) (e : Env) (spec : LogicalJobSpec F) (scheduler : TopologyAwareScheduler F)
    (resources : List (ResourceDescriptor F)) (objects : Objects) (topology : TopologySnapshot F) :
    Except PlanFailure (CooperativePlan F) := do
  (validateLogicalJob spec).mapError .error
  (validateLogicalJobObjects spec objects).mapError .error
  let s ← planLoop spec ⟨scheduler, resources, objects, topology⟩ fuel fuel e ⟨objects, ∅, ∅, ∅⟩
  let outputs ← spec.outputs.mapM (index s.selected)
  let roles ← spec.roles.mapM fun role => index s.plannedRoles role.name
  .ok
    { roles
      estimatedMakespanMs := (outputs.map (·.finishMs)).foldl F64.max (F64.ofNat 0) }

/-! ## What the loops do -/

/-- When the last of the placements ends, `readyMs` if there are none. -/
def latestPlaced (readyMs : F) (placements : List (PlannedPlacement F)) : F :=
  (placements.map (·.finishMs)).foldl F64.max readyMs

/-- Placements made one after the other: each starts when the inputs are there and its resource is free, and occupies
its resource until it ends. -/
inductive InSequence (readyMs : F) : Availability F → List (PlannedPlacement F) → Availability F → Prop
  | nil {available : Availability F} : InSequence readyMs available [] available
  | cons {available available' : Availability F} {placement : PlannedPlacement F} {rest : List (PlannedPlacement F)}
      (hstart : placement.startMs = startMs readyMs available placement.resourceId)
      (hfinish : placement.finishMs = placement.startMs + placement.totalMs)
      (hrest : InSequence readyMs (available.insert placement.resourceId placement.finishMs) rest available') :
      InSequence readyMs available (placement :: rest) available'

theorem recordShards_spec (e : Env) (shards : List (ReadyShardSelection F)) : ∀ (i : Nat) (finishMs : F)
    (objects : Objects), (recordShards e i shards finishMs objects).planned = shards.map plannedShard ∧
      (recordShards e i shards finishMs objects).outputs.length = shards.length ∧
      (recordShards e i shards finishMs objects).finishMs =
        latestPlaced finishMs ((shards.map plannedShard).map (·.placement)) := by
  induction shards with
  | nil => exact fun _ _ _ => ⟨rfl, rfl, rfl⟩
  | cons shard rest ih =>
    intro i finishMs objects
    obtain ⟨hplanned, houtputs, hfinish⟩ := ih (i + 1)
      (F64.max finishMs (shard.startMs + shard.cost.totalMs)) (objects.insert (ObjectId.new (e.sub i))
        (predictedOutput (ObjectId.new (e.sub i)) shard.task.cost.outputBytes shard.resourceId))
    exact ⟨congrArg (plannedShard shard :: ·) hplanned, congrArg (· + 1) houtputs, hfinish⟩

/-- The reducers among the items of a level. -/
def reducers (items : List (ReadyReductionItem F)) : List (ReadyReductionSelection F) :=
  items.filterMap fun
    | .carry _ => none
    | .reduce selection => some selection

theorem recordItems_spec (e : Env) (items : List (ReadyReductionItem F)) : ∀ (i : Nat) (finishMs : F)
    (objects : Objects), (recordItems e i items finishMs objects).planned = (reducers items).map plannedReduction ∧
      (recordItems e i items finishMs objects).outputs.length = items.length ∧
      (recordItems e i items finishMs objects).finishMs =
        latestPlaced finishMs (((reducers items).map plannedReduction).map (·.placement)) := by
  induction items with
  | nil => exact fun _ _ _ => ⟨rfl, rfl, rfl⟩
  | cons item rest ih =>
    intro i finishMs objects
    cases item with
    | carry object =>
      obtain ⟨hplanned, houtputs, hfinish⟩ := ih (i + 1) finishMs objects
      exact ⟨hplanned, congrArg (· + 1) houtputs, hfinish⟩
    | reduce selection =>
      obtain ⟨hplanned, houtputs, hfinish⟩ := ih (i + 1)
        (F64.max finishMs (selection.startMs + selection.cost.totalMs)) (objects.insert (ObjectId.new (e.sub i))
          (predictedOutput (ObjectId.new (e.sub i)) selection.task.cost.outputBytes selection.resourceId))
      exact ⟨congrArg (plannedReduction selection :: ·) hplanned, congrArg (· + 1) houtputs, hfinish⟩

theorem chooseShardsLoop_placed {e : Env} {role : LogicalRoleSpec F} {dependencyInputs : List ObjectId} {count : UInt32}
    {policy : Option (AutoShardPolicy F)} {readyMs : F} {context : ShardPlanningContext F} {indexes : List Nat}
    {available available' : Availability F} {shards : List (ReadyShardSelection F)}
    (h : chooseShardsLoop e role dependencyInputs count policy readyMs context indexes available =
      (some shards, available')) :
    InSequence readyMs available ((shards.map plannedShard).map (·.placement)) available' := by
  induction indexes generalizing available shards with
  | nil =>
    cases h
    exact .nil
  | cons i indexes ih =>
    obtain ⟨first, rest, hfirst, hrest, rfl⟩ := chooseShardsLoop_cons.mp h
    exact .cons (bestShard_spec hfirst).2 rfl (ih hrest)

/-- The shards of a role are placed one after the other. -/
theorem chooseRoleShards_placed {e : Env} {role : LogicalRoleSpec F} {dependencyInputs : List ObjectId} {readyMs : F}
    {context : ShardPlanningContext F} {available available' : Availability F} {shards : List (ReadyShardSelection F)}
    (h : chooseRoleShards e role dependencyInputs readyMs available context = (some shards, available')) :
    InSequence readyMs available ((shards.map plannedShard).map (·.placement)) available' ∧ shards.length < 2 ^ 32 ∧
      (role.shards.fixedCount ≠ some 0 → shards ≠ []) := by
  unfold chooseRoleShards at h
  split at h
  · rename_i count hcount
    have hlength := chooseShards_length h
    refine ⟨chooseShardsLoop_placed h, by rw [hlength]; exact count.toNat_lt, fun hfixed hnil => hfixed ?_⟩
    rw [hnil] at hlength
    rw [hcount]
    exact congrArg some (UInt32.toNat_inj.mp hlength.symm)
  · obtain ⟨units, n, -, hpos, hmax, hchosen⟩ := chooseAutoShards_chosen h
    rename_i policy _
    have hn := Nat.lt_of_le_of_lt hmax (maxAutoShards policy units).toNat_lt
    have hlength := chooseShards_length hchosen
    rw [UInt32.toNat_ofNat_of_lt' (by rw [UInt32.size]; omega)] at hlength
    refine ⟨chooseShardsLoop_placed hchosen, by omega, fun _ hnil => ?_⟩
    rw [hnil, List.length_nil] at hlength
    omega

/-- How many objects a list of reductions reads. -/
def inputTotal (reductions : List (PlannedReduction F)) : Nat := (reductions.map (·.inputCount)).sum

theorem reduceGroups_placed {e : Env} {reduction : RoleReductionSpec F} {readyMs : F} {context : ShardPlanningContext F}
    {groups : List (List ObjectId)} {i : Nat} {available available' : Availability F}
    {items : List (ReadyReductionItem F)} (hgroups : ∀ group ∈ groups, group ≠ [])
    (h : reduceGroups e reduction readyMs context i groups available = (some items, available')) :
    InSequence readyMs available (((reducers items).map plannedReduction).map (·.placement)) available' ∧
      items.length = groups.length ∧ (∀ r ∈ (reducers items).map plannedReduction, 2 ≤ r.inputCount) ∧
      items.length + inputTotal ((reducers items).map plannedReduction) =
        groups.flatten.length + (reducers items).length := by
  induction groups generalizing i available items with
  | nil =>
    cases h
    exact ⟨.nil, rfl, by simp [reducers], rfl⟩
  | cons group groups ih =>
    obtain ⟨hgroup, hothers⟩ := List.forall_mem_cons.mp hgroups
    rcases reduceGroups_cons h with ⟨object, rest, rfl, hrest, rfl⟩ | ⟨selected, rest, hone, hselected, hrest, rfl⟩
    · obtain ⟨hplaced, hlength, htwo, htotal⟩ := ih hothers hrest
      refine ⟨hplaced, congrArg (· + 1) hlength, htwo, ?_⟩
      rw [List.flatten_cons, List.length_append, List.length_cons]
      show rest.length + 1 + inputTotal ((reducers rest).map plannedReduction) = _ + (reducers rest).length
      simp only [List.length_singleton]
      omega
    · obtain ⟨hplaced, hlength, htwo, htotal⟩ := ih hothers hrest
      obtain ⟨-, hcount, hstart⟩ := bestReduction_spec hselected
      have hpos := List.length_pos_iff.mpr hgroup
      refine ⟨.cons hstart rfl hplaced, congrArg (· + 1) hlength, List.forall_mem_cons.mpr ⟨?_, htwo⟩, ?_⟩
      · show 2 ≤ selected.inputCount
        omega
      · rw [List.flatten_cons, List.length_append, List.length_cons]
        show rest.length + 1 + (selected.inputCount + inputTotal ((reducers rest).map plannedReduction)) =
          _ + ((reducers rest).length + 1)
        omega

/-! ## Levels -/

section

omit [F64 F]

/-- A level takes `n` outputs to `m`: each of its reductions makes one of at least two. -/
structure PlannedReductionLevel.Narrows (level : PlannedReductionLevel F) (n m : Nat) : Prop where
  pairs : ∀ r ∈ level.reductions, 2 ≤ r.inputCount
  total : m + inputTotal level.reductions = n + level.reductions.length
  pos : 1 ≤ m
  shrinks : m < n

/-- A hierarchy of levels takes `n` outputs to `m`. -/
inductive Narrows : Nat → List (PlannedReductionLevel F) → Nat → Prop
  | nil {n : Nat} : Narrows n [] n
  | cons {n k m : Nat} {level : PlannedReductionLevel F} {levels : List (PlannedReductionLevel F)}
      (hlevel : level.Narrows n k) (hlevels : Narrows k levels m) : Narrows n (level :: levels) m

theorem Narrows.snoc {n k m : Nat} {level : PlannedReductionLevel F} {levels : List (PlannedReductionLevel F)}
    (h : Narrows n levels k) (hlevel : level.Narrows k m) : Narrows n (levels ++ [level]) m := by
  induction h with
  | nil => exact .cons hlevel .nil
  | cons hfirst _ ih => exact .cons hfirst (ih hlevel)

/-- Each level takes at least one output away. -/
theorem Narrows.length_le {n m : Nat} {levels : List (PlannedReductionLevel F)} (h : Narrows n levels m) :
    levels.length + m ≤ n := by
  induction h with
  | nil => simp
  | cons hlevel _ ih =>
    have := hlevel.shrinks
    rw [List.length_cons]
    omega

theorem Narrows.pos {n m : Nat} {levels : List (PlannedReductionLevel F)} (h : Narrows n levels m) (hn : 1 ≤ n) :
    1 ≤ m := by
  induction h with
  | nil => exact hn
  | cons hlevel _ ih => exact ih hlevel.pos

end

/-- Stages of placements one after the other, each ready when the one before it has ended. -/
inductive Stages : F → Availability F → List (List (PlannedPlacement F)) → F → Availability F → Prop
  | nil {readyMs : F} {available : Availability F} : Stages readyMs available [] readyMs available
  | cons {readyMs finishMs : F} {available available₁ available' : Availability F} {stage : List (PlannedPlacement F)}
      {stages : List (List (PlannedPlacement F))} (hstage : InSequence readyMs available stage available₁)
      (hstages : Stages (latestPlaced readyMs stage) available₁ stages finishMs available') :
      Stages readyMs available (stage :: stages) finishMs available'

theorem Stages.snoc {readyMs middleMs finishMs : F} {available available₁ available' : Availability F}
    {stage : List (PlannedPlacement F)} {stages : List (List (PlannedPlacement F))}
    (h : Stages readyMs available stages middleMs available₁) (hstage : InSequence middleMs available₁ stage available')
    (hfinish : finishMs = latestPlaced middleMs stage) :
    Stages readyMs available (stages ++ [stage]) finishMs available' := by
  induction h with
  | nil => exact .cons hstage (hfinish ▸ .nil)
  | cons hfirst _ ih => exact .cons hfirst (ih hstage hfinish)

/-- What a round of the loop over the levels does. -/
structure LevelStep (level : UInt32) (s s' : RoleProgress F) (planned : PlannedReductionLevel F) : Prop where
  levels : s'.plannedReductions = s.plannedReductions ++ [planned]
  number : planned.level = level
  placed : InSequence s.finishMs s.resourceAvailableMs (planned.reductions.map (·.placement)) s'.resourceAvailableMs
  finish : s'.finishMs = latestPlaced s.finishMs (planned.reductions.map (·.placement))
  narrows : planned.Narrows s.outputs.length s'.outputs.length

section Levels

variable (role : LogicalRoleSpec F) (reduction : RoleReductionSpec F) (context : ShardPlanningContext F)

/-- A level of at least two outputs makes progress, unless some group cannot be placed. -/
theorem planLevel_cases (e : Env) (level : UInt32) {s : RoleProgress F} (h2 : 2 ≤ s.outputs.length) :
    planLevel e role reduction context level s = .error (.error (.noFeasibleImplementation role.name)) ∨
      ∃ s' planned, planLevel e role reduction context level s = .ok s' ∧ LevelStep level s s' planned := by
  unfold planLevel
  rcases hselect : selectReductionLevel (e.sub 0) reduction s.outputs s.finishMs s.resourceAvailableMs
    { context with objects := s.predictedObjects } with ⟨_ | items, available'⟩
  · exact .inl rfl
  · obtain ⟨groups, hgroups, hrun⟩ := selectReductionLevel_groups h2 hselect
    obtain ⟨hplaced, hlength, htwo, htotal⟩ := reduceGroups_placed hgroups.nonempty hrun
    obtain ⟨hplanned, houtputs, hfinish⟩ := recordItems_spec (e.sub 1) items 0 s.finishMs s.predictedObjects
    have hshrinks := hgroups.length_lt
    have hnonempty : groups ≠ [] := fun h => by
      obtain ⟨group, hgroup, -⟩ := hgroups.progress
      rw [h] at hgroup
      cases hgroup
    have hpos := List.length_pos_iff.mpr hnonempty
    rw [hgroups.flatten] at htotal
    dsimp only
    rw [if_neg (by omega)]
    refine .inr ⟨_, _, rfl, rfl, rfl, ?_, ?_, ?_⟩
    · rw [hplanned]
      exact hplaced
    · rw [hplanned]
      exact hfinish
    · refine ⟨?_, ?_, ?_, ?_⟩
      · rw [hplanned]
        exact htwo
      · rw [hplanned, houtputs, List.length_map]
        exact htotal
      · rw [houtputs]
        omega
      · rw [houtputs]
        omega

/-- The loop over the levels keeps what every round keeps, and ends with at most one output; enough fuel is one less
than there are outputs. -/
theorem planLevels_cases {I : UInt32 → RoleProgress F → Prop}
    (hstep : ∀ level s s' planned, I level s → LevelStep level s s' planned → I (level + 1) s') :
    ∀ (fuel : Nat) (e : Env) (level : UInt32) {s : RoleProgress F}, I level s →
      planLevels role reduction context fuel e level s = .error (.error (.noFeasibleImplementation role.name)) ∨
      (∃ level' s', planLevels role reduction context fuel e level s = .ok s' ∧ I level' s' ∧ s'.outputs.length ≤ 1) ∨
      planLevels role reduction context fuel e level s = .error .outOfFuel ∧ fuel + 1 < s.outputs.length := by
  intro fuel
  induction fuel with
  | zero =>
    intro e level s h
    rw [planLevels]
    split
    · rename_i hone
      exact .inr (.inl ⟨level, s, rfl, h, hone⟩)
    · rename_i hmore
      exact .inr (.inr ⟨rfl, by omega⟩)
  | succ fuel ih =>
    intro e level s h
    rw [planLevels]
    split
    · rename_i hone
      exact .inr (.inl ⟨level, s, rfl, h, hone⟩)
    · rename_i hmore
      rcases planLevel_cases role reduction context (e.sub 0) level (s := s) (by omega) with
        hfail | ⟨s₁, planned, hok, hlevel⟩
      · rw [hfail]
        exact .inl rfl
      · rw [hok]
        have hshrinks := hlevel.narrows.shrinks
        rcases ih (e.sub 1) (level + 1) (hstep level s s₁ planned h hlevel) with
          hfail | hdone | ⟨hfuel, hshort⟩
        · exact .inl hfail
        · exact .inr (.inl hdone)
        · exact .inr (.inr ⟨hfuel, by omega⟩)

/-- Any fuel that is enough gives the same result. -/
theorem planLevels_fuel : ∀ (fuel fuel' : Nat) (e : Env) (level : UInt32) {s : RoleProgress F},
    s.outputs.length ≤ fuel + 1 → s.outputs.length ≤ fuel' + 1 →
    planLevels role reduction context fuel e level s = planLevels role reduction context fuel' e level s
  | 0, 0, _, _, _, _, _ => rfl
  | 0, fuel' + 1, _, _, s, h, _ => by rw [planLevels, planLevels, if_pos h, if_pos h]
  | fuel + 1, 0, _, _, s, _, h => by rw [planLevels, planLevels, if_pos h, if_pos h]
  | fuel + 1, fuel' + 1, e, level, s, h, h' => by
    rw [planLevels, planLevels]
    split
    · rfl
    · rename_i hmore
      rcases planLevel_cases role reduction context (e.sub 0) level (s := s) (by omega) with
        hfail | ⟨s₁, planned, hok, hlevel⟩
      · rw [hfail]
      · have hshrinks := hlevel.narrows.shrinks
        rw [hok]
        exact planLevels_fuel fuel fuel' (e.sub 1) (level + 1) (by omega) (by omega)

end Levels

/-! ## Roles -/

/-- The stages of a planned role: its shards, then level after level of its reductions. -/
def PlannedRole.stages (planned : PlannedRole F) : List (List (PlannedPlacement F)) :=
  planned.shards.map (·.placement) :: planned.reductions.map fun level => level.reductions.map (·.placement)

/-- What `plan` makes of a role: levels that are numbered and narrow the shards to one output, or no levels. -/
structure PlannedRole.Planned (planned : PlannedRole F) (role : LogicalRoleSpec F) : Prop where
  name : planned.name = role.name
  shards : role.shards.fixedCount ≠ some 0 → planned.shards ≠ []
  few : planned.shards.length < 2 ^ 32
  unreduced : role.reduction = none → planned.reductions = []
  narrows : ∃ m, Narrows planned.shards.length planned.reductions m ∧ (role.reduction ≠ none → m ≤ 1)
  numbered : ∀ i level, planned.reductions[i]? = some level → level.level = UInt32.ofNat i

/-- What planning a role does. -/
structure RoleStep (role : LogicalRoleSpec F) (s s' : PlanState F) (dependencies : List (SelectedRole F))
    (selected : SelectedRole F) (planned : PlannedRole F) : Prop where
  lookups : List.Forall₂ (fun name dependency => s.selected.lookup name = some dependency) role.dependsOn dependencies
  selected_eq : s'.selected = s.selected.insert role.name selected
  planned_eq : s'.plannedRoles = s.plannedRoles.insert role.name planned
  stages : Stages (dependencyReadyMs dependencies) s.resourceAvailableMs planned.stages selected.finishMs
    s'.resourceAvailableMs
  planned : planned.Planned role

/-- What the loop over the levels of a role keeps. -/
structure LevelsSoFar (readyMs : F) (available : Availability F) (shards : List (PlannedShard F)) (level : UInt32)
    (s : RoleProgress F) : Prop where
  stages : Stages readyMs available
    (shards.map (·.placement) :: s.plannedReductions.map fun level => level.reductions.map (·.placement)) s.finishMs
    s.resourceAvailableMs
  narrows : Narrows shards.length s.plannedReductions s.outputs.length
  number : level = UInt32.ofNat s.plannedReductions.length
  numbered : ∀ i level, s.plannedReductions[i]? = some level → level.level = UInt32.ofNat i

theorem LevelsSoFar.next {readyMs : F} {available : Availability F} {shards : List (PlannedShard F)} (level : UInt32)
    (s s' : RoleProgress F) (planned : PlannedReductionLevel F) (h : LevelsSoFar readyMs available shards level s)
    (hlevel : LevelStep level s s' planned) : LevelsSoFar readyMs available shards (level + 1) s' where
  stages := by
    rw [hlevel.levels, List.map_append, ← List.cons_append]
    exact h.stages.snoc hlevel.placed hlevel.finish
  narrows := by
    rw [hlevel.levels]
    exact h.narrows.snoc hlevel.narrows
  number := by
    rw [hlevel.levels, List.length_append, List.length_singleton, UInt32.ofNat_add, ← h.number]
    rfl
  numbered i level' hi := by
    rw [hlevel.levels] at hi
    rcases Nat.lt_trichotomy i s.plannedReductions.length with hlt | rfl | hgt
    · rw [List.getElem?_append_left hlt] at hi
      exact h.numbered i level' hi
    · rw [List.getElem?_concat_length] at hi
      rw [← Option.some.inj hi, hlevel.number, h.number]
    · rw [List.getElem?_eq_none (by rw [List.length_append, List.length_singleton]; omega)] at hi
      cases hi

theorem index_ok {α : Type} {m : Map String α} {key : String} {a : α} : index m key = .ok a ↔ m.lookup key = some a := by
  unfold index
  cases m.lookup key <;> simp

/-- Index expressions that all find an entry. -/
theorem exists_index {α : Type} {m : Map String α} {keys : List String}
    (h : ∀ key ∈ keys, (m.lookup key).isSome = true) : ∃ entries, keys.mapM (index m) = .ok entries := by
  obtain ⟨entries, hentries⟩ := exists_forall₂ fun key hkey => Option.isSome_iff_exists.mp (h key hkey)
  exact ⟨entries, mapM_ok_iff.mpr (hentries.imp fun key a ha => index_ok.mpr ha)⟩

section Roles

variable (role : LogicalRoleSpec F) (context : ShardPlanningContext F)

/-- The levels of a role narrow its shards to one output. -/
theorem planReduction_cases {readyMs : F} {available : Availability F} {shards : List (PlannedShard F)} (fuel : Nat)
    (e : Env) {s : RoleProgress F} (h : LevelsSoFar readyMs available shards 0 s) (hnone : s.plannedReductions = []) :
    planReduction fuel e role context s = .error (.error (.noFeasibleImplementation role.name)) ∨
      (∃ level s', planReduction fuel e role context s = .ok s' ∧ LevelsSoFar readyMs available shards level s' ∧
        (role.reduction = none → s'.plannedReductions = []) ∧ (role.reduction ≠ none → s'.outputs.length ≤ 1)) ∨
      planReduction fuel e role context s = .error .outOfFuel ∧ fuel + 1 < s.outputs.length := by
  unfold planReduction
  split
  · rename_i reduction hreduction
    rcases planLevels_cases role reduction context LevelsSoFar.next fuel e 0 h with
      hfail | ⟨level, s', hok, hs', hone⟩ | hfuel
    · exact .inl hfail
    · exact .inr (.inl ⟨level, s', hok, hs', fun h => by simp [hreduction] at h, fun _ => hone⟩)
    · exact .inr (.inr hfuel)
  · rename_i hreduction
    exact .inr (.inl ⟨0, s, rfl, h, fun _ => hnone, fun h => absurd hreduction h⟩)

theorem planReduction_fuel {fuel fuel' : Nat} {e : Env} {s : RoleProgress F} (h : s.outputs.length ≤ fuel + 1)
    (h' : s.outputs.length ≤ fuel' + 1) :
    planReduction fuel e role context s = planReduction fuel' e role context s := by
  unfold planReduction
  split
  · exact planLevels_fuel role _ context fuel fuel' e 0 h h'
  · rfl

/-- A role whose dependencies are selected is planned, unless some shard or group cannot be placed. -/
theorem planRole_cases (fuel : Nat) (e : Env) {s : PlanState F}
    (hdependencies : ∀ dependency ∈ role.dependsOn, (s.selected.lookup dependency).isSome = true) :
    planRole fuel e role context s = .error (.error (.noFeasibleImplementation role.name)) ∨
      (∃ s' dependencies selected planned, planRole fuel e role context s = .ok s' ∧
        RoleStep role s s' dependencies selected planned) ∨
      planRole fuel e role context s = .error .outOfFuel ∧ fuel + 1 < 2 ^ 32 := by
  obtain ⟨dependencies, hindex⟩ := exists_index hdependencies
  have hlookups := (mapM_ok_iff.mp hindex).imp fun _ _ h => index_ok.mp h
  unfold planRole
  rw [hindex]
  simp only [bind, Except.bind]
  rcases hchoose : chooseRoleShards (e.sub 0) role (dependencies.flatMap (·.outputs)) (dependencyReadyMs dependencies)
    s.resourceAvailableMs { context with objects := s.predictedObjects } with ⟨_ | shards, available'⟩
  · rw [hchoose]
    exact .inl rfl
  · rw [hchoose]
    obtain ⟨hplaced, hfew, hsome⟩ := chooseRoleShards_placed hchoose
    obtain ⟨hplanned, houtputs, hfinish⟩ := recordShards_spec (e.sub 1) shards 0 (dependencyReadyMs dependencies)
      s.predictedObjects
    dsimp only
    generalize hrecorded : recordShards (e.sub 1) 0 shards (dependencyReadyMs dependencies) s.predictedObjects = recorded
    rw [hrecorded] at hplanned houtputs hfinish
    have hstart : LevelsSoFar (dependencyReadyMs dependencies) s.resourceAvailableMs (shards.map plannedShard) 0
        ⟨recorded.outputs, recorded.finishMs, recorded.predictedObjects, available', []⟩ := by
      refine ⟨?_, ?_, rfl, fun i level h => by cases h⟩
      · dsimp only
        rw [hfinish]
        exact .cons hplaced .nil
      · dsimp only
        rw [houtputs, List.length_map]
        exact .nil
    rcases planReduction_cases role context fuel (e.sub 2) hstart rfl with
      hfail | ⟨level, reduced, hok, hlevels, hunreduced, hone⟩ | ⟨hfuel, hshort⟩
    · rw [hfail]
      exact .inl rfl
    · rw [hok]
      refine .inr (.inl ⟨_, dependencies, _, _, rfl, hlookups, rfl, rfl, ?_, ?_⟩)
      · rw [hplanned]
        exact hlevels.stages
      · rw [hplanned]
        refine ⟨rfl, fun hfixed => ?_, ?_, hunreduced, ⟨_, hlevels.narrows, hone⟩, hlevels.numbered⟩
        · rw [Ne, List.map_eq_nil_iff]
          exact hsome hfixed
        · rw [List.length_map]
          exact hfew
    · rw [hfuel]
      refine .inr (.inr ⟨rfl, ?_⟩)
      dsimp only at hshort
      omega

/-- Any fuel that is enough gives the same result. -/
theorem planRole_fuel {fuel fuel' : Nat} (h : 2 ^ 32 ≤ fuel + 1) (h' : 2 ^ 32 ≤ fuel' + 1) (e : Env) (s : PlanState F) :
    planRole fuel e role context s = planRole fuel' e role context s := by
  unfold planRole
  cases role.dependsOn.mapM (index s.selected) with
  | error err => rfl
  | ok dependencies =>
    simp only [bind, Except.bind]
    rcases hchoose : chooseRoleShards (e.sub 0) role (dependencies.flatMap (·.outputs)) (dependencyReadyMs dependencies)
      s.resourceAvailableMs { context with objects := s.predictedObjects } with ⟨_ | shards, available'⟩
    · rw [hchoose]
    · rw [hchoose]
      obtain ⟨-, hfew, -⟩ := chooseRoleShards_placed hchoose
      obtain ⟨-, houtputs, -⟩ := recordShards_spec (e.sub 1) shards 0 (dependencyReadyMs dependencies) s.predictedObjects
      dsimp only
      have hshort : ∀ n, 2 ^ 32 ≤ n + 1 → (recordShards (e.sub 1) 0 shards (dependencyReadyMs dependencies)
          s.predictedObjects).outputs.length ≤ n + 1 := fun n hn => by omega
      rw [planReduction_fuel role context (hshort fuel h) (hshort fuel' h')]

end Roles

/-! ## The loop over the roles -/

omit [F64 F] in
/-- Some role is not selected yet: in a graph without cycles there is one whose dependencies are. -/
theorem exists_ready {spec : LogicalJobSpec F} {outputs : List String}
    (hgraph : GraphValid (spec.roles.map fun role => (role.name, role.dependsOn)) outputs)
    {selected : Map String (SelectedRole F)} (hmore : selected.keys.length < spec.roles.length) :
    readyToPlan spec selected ≠ [] := by
  have hready : ∀ name, Resolvable (spec.roles.map fun role => (role.name, role.dependsOn)) name →
      (selected.lookup name).isSome = true ∨ ∃ role, role ∈ readyToPlan spec selected := by
    intro name h
    induction h with
    | @intro name dependencies hmem _ ih =>
      obtain ⟨role, hrole, heq⟩ := List.mem_map.mp hmem
      obtain ⟨rfl, rfl⟩ := Prod.mk.inj heq
      by_cases hall : ∀ dependency ∈ role.dependsOn, (selected.lookup dependency).isSome = true
      · by_cases hsome : (selected.lookup role.name).isSome = true
        · exact .inl hsome
        · refine .inr ⟨role, List.mem_filter.mpr ⟨List.mem_filter.mpr ⟨hrole, ?_⟩, List.all_eq_true.mpr hall⟩⟩
          simpa using hsome
      · push Not at hall
        obtain ⟨dependency, hdependency, hnot⟩ := hall
        exact .inr ((ih dependency hdependency).resolve_left hnot)
  intro hnil
  have hall : ∀ name ∈ spec.roles.map (·.name), name ∈ selected.keys := by
    intro name hname
    obtain ⟨role, hrole, rfl⟩ := List.mem_map.mp hname
    rcases hready role.name (hgraph.acyclic (role.name, role.dependsOn) (List.mem_map_of_mem hrole)) with
      hsome | ⟨other, hother⟩
    · exact Map.mem_keys.mpr (Option.isSome_iff_exists.mp hsome)
    · rw [hnil] at hother
      cases hother
  have hnodup : (spec.roles.map (·.name)).Nodup := by simpa [Function.comp_def] using hgraph.names
  have hle := (hnodup.subperm hall).length_le
  rw [List.length_map] at hle
  omega

theorem nextRole_some {e : Env} {spec : LogicalJobSpec F} {context : ShardPlanningContext F}
    {selected : Map String (SelectedRole F)} {role : LogicalRoleSpec F}
    (h : nextRole e spec context selected = some role) : role ∈ spec.roles ∧ selected.lookup role.name = none ∧
      ∀ dependency ∈ role.dependsOn, (selected.lookup dependency).isSome = true := by
  obtain ⟨entry, hentry, rfl⟩ := Option.map_eq_some_iff.mp h
  have hmem := List.fst_mem_of_mem_zipIdx (minBy_mem hentry)
  obtain ⟨hmem, hall⟩ := List.mem_filter.mp hmem
  obtain ⟨hmem, hnone⟩ := List.mem_filter.mp hmem
  exact ⟨hmem, Option.isNone_iff_eq_none.mp hnone, List.all_eq_true.mp hall⟩

theorem nextRole_none {e : Env} {spec : LogicalJobSpec F} {context : ShardPlanningContext F}
    {selected : Map String (SelectedRole F)} (h : nextRole e spec context selected = none) :
    readyToPlan spec selected = [] := by
  rw [nextRole, Option.map_eq_none_iff, minBy_none, List.zipIdx_eq_nil_iff] at h
  exact h

/-- A role that was not selected adds one to those that are. -/
theorem RoleStep.keys_length {role : LogicalRoleSpec F} {s s' : PlanState F} {dependencies : List (SelectedRole F)}
    {selected : SelectedRole F} {planned : PlannedRole F} (h : RoleStep role s s' dependencies selected planned)
    (hnew : s.selected.lookup role.name = none) : s'.selected.keys.length = s.selected.keys.length + 1 := by
  have hnotin : role.name ∉ s.selected.keys := by
    intro hmem
    obtain ⟨_, hsome⟩ := Map.mem_keys.mp hmem
    rw [hnew] at hsome
    cases hsome
  rw [h.selected_eq, AList.keys_insert, List.length_cons, List.erase_of_not_mem hnotin]

section Loop

variable {spec : LogicalJobSpec F} (context : ShardPlanningContext F) (levels : Nat)

/-- The loop over the roles of a valid graph keeps what every role keeps, and ends with all roles selected. Enough fuel is
the number of roles. -/
theorem planLoop_cases {outputs : List String}
    (hgraph : GraphValid (spec.roles.map fun role => (role.name, role.dependsOn)) outputs) {I : PlanState F → Prop}
    (hstep : ∀ role ∈ spec.roles, ∀ s s' dependencies selected planned, I s → s.selected.lookup role.name = none →
      RoleStep role s s' dependencies selected planned → I s') :
    ∀ (fuel : Nat) (e : Env) {s : PlanState F}, I s →
      (∃ role ∈ spec.roles,
        planLoop spec context levels fuel e s = .error (.error (.noFeasibleImplementation role.name))) ∨
      (∃ s', planLoop spec context levels fuel e s = .ok s' ∧ I s' ∧ spec.roles.length ≤ s'.selected.keys.length) ∨
      planLoop spec context levels fuel e s = .error .outOfFuel ∧
        (levels + 1 < 2 ^ 32 ∨ s.selected.keys.length + fuel < spec.roles.length) := by
  intro fuel
  induction fuel with
  | zero =>
    intro e s h
    rw [planLoop]
    split
    · rename_i hall
      exact .inr (.inl ⟨s, rfl, h, hall⟩)
    · rename_i hmore
      exact .inr (.inr ⟨rfl, .inr (by omega)⟩)
  | succ fuel ih =>
    intro e s h
    rw [planLoop]
    split
    · rename_i hall
      exact .inr (.inl ⟨s, rfl, h, hall⟩)
    · rename_i hmore
      cases hnext : nextRole (e.sub 0) spec { context with objects := s.predictedObjects } s.selected with
      | none => exact absurd (nextRole_none hnext) (exists_ready hgraph (by omega))
      | some role =>
        obtain ⟨hrole, hnew, hdependencies⟩ := nextRole_some hnext
        dsimp only
        rcases planRole_cases role context levels (e.sub 1) hdependencies with
          hfail | ⟨s₁, dependencies, selected, planned, hok, hrun⟩ | ⟨hfuel, hlevels⟩
        · rw [hfail]
          exact .inl ⟨role, hrole, rfl⟩
        · rw [hok]
          have hkeys := hrun.keys_length hnew
          rcases ih (e.sub 2)
            (hstep role hrole s s₁ dependencies selected planned h hnew hrun) with hfail | hdone | ⟨hfuel, hshort⟩
          · exact .inl hfail
          · exact .inr (.inl hdone)
          · refine .inr (.inr ⟨hfuel, hshort.imp id fun hshort => ?_⟩)
            omega
        · rw [hfuel]
          exact .inr (.inr ⟨rfl, .inl hlevels⟩)

/-- Any fuel that is enough gives the same result. -/
theorem planLoop_fuel (levels' : Nat) (hlevels : 2 ^ 32 ≤ levels + 1) (hlevels' : 2 ^ 32 ≤ levels' + 1) :
    ∀ (fuel fuel' : Nat) (e : Env) {s : PlanState F}, spec.roles.length ≤ s.selected.keys.length + fuel →
    spec.roles.length ≤ s.selected.keys.length + fuel' →
    planLoop spec context levels fuel e s = planLoop spec context levels' fuel' e s
  | 0, 0, _, _, _, _ => rfl
  | 0, fuel' + 1, _, s, h, _ => by
    rw [Nat.add_zero] at h
    rw [planLoop, planLoop, if_pos h, if_pos h]
  | fuel + 1, 0, _, s, _, h => by
    rw [Nat.add_zero] at h
    rw [planLoop, planLoop, if_pos h, if_pos h]
  | fuel + 1, fuel' + 1, e, s, h, h' => by
    rw [planLoop, planLoop]
    split
    · rfl
    · cases hnext : nextRole (e.sub 0) spec { context with objects := s.predictedObjects } s.selected with
      | none => rfl
      | some role =>
        obtain ⟨-, hnew, hdependencies⟩ := nextRole_some hnext
        dsimp only
        rw [planRole_fuel role context hlevels hlevels']
        rcases planRole_cases role context levels' (e.sub 1) hdependencies with
          hfail | ⟨s₁, dependencies, selected, planned, hok, hrun⟩ | ⟨hfuel, -⟩
        · rw [hfail]
        · have hkeys := hrun.keys_length hnew
          rw [hok]
          exact planLoop_fuel levels' hlevels hlevels' fuel fuel' (e.sub 2) (by omega) (by omega)
        · rw [hfuel]

end Loop

/-! ## Planning is total -/

/-- What holds between two roles: only roles of the job are selected, and those that are have been planned. -/
structure PlanSound (spec : LogicalJobSpec F) (s : PlanState F) : Prop where
  known : ∀ name ∈ s.selected.keys, name ∈ spec.roles.map (·.name)
  planned : ∀ role ∈ spec.roles, (s.selected.lookup role.name).isSome = true →
    ∃ planned, s.plannedRoles.lookup role.name = some planned ∧ planned.Planned role

section Total

variable {spec : LogicalJobSpec F}

omit [F64 F] in
theorem planSound_start (objects : Objects) : PlanSound spec (⟨objects, ∅, ∅, ∅⟩ : PlanState F) where
  known name h := by cases h
  planned role _ h := by cases h

theorem PlanSound.next (hnames : (spec.roles.map (·.name)).Nodup) {role : LogicalRoleSpec F} (hrole : role ∈ spec.roles)
    {s s' : PlanState F} {dependencies : List (SelectedRole F)} {selected : SelectedRole F} {planned : PlannedRole F}
    (h : PlanSound spec s) (hstep : RoleStep role s s' dependencies selected planned) : PlanSound spec s' where
  known name hname := by
    rw [hstep.selected_eq, AList.keys_insert] at hname
    rcases List.mem_cons.mp hname with rfl | hname
    · exact List.mem_map_of_mem hrole
    · exact h.known name (List.mem_of_mem_erase hname)
  planned other hother hsome := by
    rw [hstep.selected_eq, Map.lookup_insert_eq] at hsome
    rw [hstep.planned_eq]
    by_cases hname : other.name = role.name
    · obtain rfl := eq_of_name hnames hother hrole hname
      exact ⟨planned, AList.lookup_insert _, hstep.planned⟩
    · rw [if_neg hname] at hsome
      obtain ⟨planned', hlookup, hplanned⟩ := h.planned other hother hsome
      exact ⟨planned', by rw [AList.lookup_insert_ne hname, hlookup], hplanned⟩

omit [F64 F] in
/-- As many selected roles as there are roles are all of them. -/
theorem PlanSound.all {s : PlanState F} (h : PlanSound spec s)
    (hall : spec.roles.length ≤ s.selected.keys.length) :
    ∀ name ∈ spec.roles.map (·.name), (s.selected.lookup name).isSome = true := by
  intro name hname
  have hsub : s.selected.keys.Subperm (spec.roles.map (·.name)) := s.selected.nodupKeys.subperm h.known
  have hperm := hsub.perm_of_length_le (by rwa [List.length_map])
  exact Option.isSome_iff_exists.mpr (Map.mem_keys.mp (hperm.mem_iff.mpr hname))

/-- The end of `plan`: what the loop over the roles leaves is read off by name. -/
structure PlanRead (spec : LogicalJobSpec F) (s : PlanState F) (result : CooperativePlan F) : Prop where
  selected : ∀ role ∈ spec.roles, (s.selected.lookup role.name).isSome = true
  roles : List.Forall₂ (fun role planned => s.plannedRoles.lookup role.name = some planned) spec.roles result.roles
  makespan : ∃ outputs, List.Forall₂ (fun name selected => s.selected.lookup name = some selected) spec.outputs outputs ∧
    result.estimatedMakespanMs = dependencyReadyMs outputs

theorem PlanRead.planned {s : PlanState F} {result : CooperativePlan F} (h : PlanRead spec s result)
    (hsound : PlanSound spec s) {role : LogicalRoleSpec F} (hrole : role ∈ spec.roles) {planned : PlannedRole F}
    (hlookup : s.plannedRoles.lookup role.name = some planned) : planned.Planned role := by
  obtain ⟨planned', hlookup', hplanned⟩ := hsound.planned role hrole (h.selected role hrole)
  obtain rfl := Option.some.inj (hlookup'.symm.trans hlookup)
  exact hplanned

variable {objects : Objects} (hjob : validateLogicalJob spec = .ok ())
  (hobjects : validateLogicalJobObjects spec objects = .ok ()) (scheduler : TopologyAwareScheduler F)
  (resources : List (ResourceDescriptor F)) (topology : TopologySnapshot F)

include hjob hobjects

theorem plan_eq (fuel : Nat) (e : Env) : plan fuel e spec scheduler resources objects topology =
    (planLoop spec ⟨scheduler, resources, objects, topology⟩ fuel fuel e ⟨objects, ∅, ∅, ∅⟩ >>= fun s =>
      spec.outputs.mapM (index s.selected) >>= fun outputs =>
        (spec.roles.mapM fun role => index s.plannedRoles role.name) >>= fun roles =>
          .ok ⟨roles, dependencyReadyMs outputs⟩) := by
  unfold plan
  rw [hjob, hobjects]
  rfl

/-- Planning a job that passed validation yields a plan, in which everything holds that every role keeps, unless some
role cannot be placed. -/
theorem plan_cases {I : PlanState F → Prop} (hstart : I ⟨objects, ∅, ∅, ∅⟩)
    (hstep : ∀ role ∈ spec.roles, ∀ s s' dependencies selected planned, I s → s.selected.lookup role.name = none →
      RoleStep role s s' dependencies selected planned → I s') (fuel : Nat) (e : Env) :
    (∃ role ∈ spec.roles,
      plan fuel e spec scheduler resources objects topology = .error (.error (.noFeasibleImplementation role.name))) ∨
    (∃ result s, plan fuel e spec scheduler resources objects topology = .ok result ∧ I s ∧ PlanSound spec s ∧
      PlanRead spec s result) ∨
    plan fuel e spec scheduler resources objects topology = .error .outOfFuel ∧
      (fuel + 1 < 2 ^ 32 ∨ fuel < spec.roles.length) := by
  have hnames := (validateLogicalJob_ok hjob).1
  have hgraph := validateLogicalJob_graph hjob
  rw [plan_eq hjob hobjects]
  rcases planLoop_cases ⟨scheduler, resources, objects, topology⟩ fuel hgraph
    (I := fun s => I s ∧ PlanSound spec s) (fun role hrole s s' _ _ _ hs hnew hrun =>
      ⟨hstep role hrole s s' _ _ _ hs.1 hnew hrun, hs.2.next hnames hrole hrun⟩) fuel e
    ⟨hstart, planSound_start objects⟩ with ⟨role, hrole, hfail⟩ | ⟨s, hok, ⟨hI, hsound⟩, hall⟩ | ⟨hfuel, hshort⟩
  · rw [hfail]
    exact .inl ⟨role, hrole, rfl⟩
  · have hselected := hsound.all hall
    obtain ⟨outputs, houtputs⟩ := exists_index fun name hname => hselected name (by
      simpa [Function.comp_def] using hgraph.outputs name hname)
    obtain ⟨roles, hroles⟩ := exists_forall₂ fun role hrole =>
      (hsound.planned role hrole (hselected _ (List.mem_map_of_mem hrole))).imp fun _ h => h.1
    have hmap : (spec.roles.mapM fun role => index s.plannedRoles role.name) = .ok roles :=
      mapM_ok_iff.mpr (hroles.imp fun role planned h => index_ok.mpr h)
    refine .inr (.inl ⟨⟨roles, dependencyReadyMs outputs⟩, s, ?_, hI, hsound,
      fun role hrole => hselected _ (List.mem_map_of_mem hrole), hroles, outputs, ?_, rfl⟩)
    · rw [hok]
      simp only [bind, Except.bind, houtputs, hmap]
    · exact (mapM_ok_iff.mp houtputs).imp fun _ _ h => index_ok.mp h
  · rw [hfuel]
    refine .inr (.inr ⟨rfl, hshort.imp id fun hshort => ?_⟩)
    simpa using hshort

end Total

theorem plan_rejected {spec : LogicalJobSpec F} {err : PlanError} (hjob : validateLogicalJob spec = .error err)
    (fuel : Nat) (e : Env) (scheduler : TopologyAwareScheduler F) (resources : List (ResourceDescriptor F))
    (objects : Objects) (topology : TopologySnapshot F) :
    plan fuel e spec scheduler resources objects topology = .error (.error err) := by
  rw [plan, hjob]
  rfl

theorem plan_rejected_objects {spec : LogicalJobSpec F} {objects : Objects} {err : PlanError}
    (hjob : validateLogicalJob spec = .ok ()) (hobjects : validateLogicalJobObjects spec objects = .error err)
    (fuel : Nat) (e : Env) (scheduler : TopologyAwareScheduler F) (resources : List (ResourceDescriptor F))
    (topology : TopologySnapshot F) :
    plan fuel e spec scheduler resources objects topology = .error (.error err) := by
  rw [plan, hjob, hobjects]
  rfl

/-- A plan is a plan of a job that passed validation. -/
theorem plan_valid {fuel : Nat} {e : Env} {spec : LogicalJobSpec F} {scheduler : TopologyAwareScheduler F}
    {resources : List (ResourceDescriptor F)} {objects : Objects} {topology : TopologySnapshot F}
    {result : CooperativePlan F} (h : plan fuel e spec scheduler resources objects topology = .ok result) :
    validateLogicalJob spec = .ok () ∧ validateLogicalJobObjects spec objects = .ok () := by
  cases hjob : validateLogicalJob spec with
  | error err =>
    rw [plan_rejected hjob] at h
    cases h
  | ok u =>
    cases hobjects : validateLogicalJobObjects spec objects with
    | error err =>
      rw [plan_rejected_objects hjob hobjects] at h
      cases h
    | ok u' => exact ⟨rfl, rfl⟩

omit [F64 F] in
/-- The levels of a planned role narrow its shards to one output. -/
theorem PlannedRole.Planned.hierarchy {planned : PlannedRole F} {role : LogicalRoleSpec F} (h : planned.Planned role)
    (hfixed : role.shards.fixedCount ≠ some 0) (hreduction : role.reduction ≠ none) :
    Narrows planned.shards.length planned.reductions 1 := by
  obtain ⟨m, hnarrows, hone⟩ := h.narrows
  have hpos := hnarrows.pos (List.length_pos_iff.mpr (h.shards hfixed))
  have hm : m = 1 := by
    have := hone hreduction
    omega
  exact hm ▸ hnarrows

/-- **Planning is total after validation.** The loops end: beyond some number of rounds the fuel makes no difference, and
the passes of the cycle check end too. A spec that validation rejects gets the error of the validation. One that it
accepts gets a plan, in which every hierarchy of reducers narrows the shards of its role to one output, or the error that
a role of the spec cannot be placed. -/
theorem plan_total (e : Env) (spec : LogicalJobSpec F) (scheduler : TopologyAwareScheduler F)
    (resources : List (ResourceDescriptor F)) (objects : Objects) (topology : TopologySnapshot F) :
    ∃ steps outcome, (∀ fuel ≥ steps, plan fuel e spec scheduler resources objects topology = outcome) ∧
      (∀ passes > spec.roles.length, resolveLoop (spec.roles.map fun role => (role.name, role.dependsOn)) passes [] =
        resolveLoop (spec.roles.map fun role => (role.name, role.dependsOn)) (spec.roles.length + 1) []) ∧
      (∀ err, validateLogicalJob spec = .error err → outcome = .error (.error err)) ∧
      (∀ err, validateLogicalJob spec = .ok () → validateLogicalJobObjects spec objects = .error err →
        outcome = .error (.error err)) ∧
      (validateLogicalJob spec = .ok () → validateLogicalJobObjects spec objects = .ok () →
        (∃ result, outcome = .ok result ∧ List.Forall₂ (fun role planned => planned.name = role.name ∧
          planned.shards ≠ [] ∧ (role.reduction = none → planned.reductions = []) ∧
          (role.reduction ≠ none → Narrows planned.shards.length planned.reductions 1)) spec.roles result.roles) ∨
        ∃ role ∈ spec.roles, outcome = .error (.error (.noFeasibleImplementation role.name))) := by
  let steps := spec.roles.length + 2 ^ 32
  refine ⟨steps, plan steps e spec scheduler resources objects topology, fun fuel hfuel => ?_, fun passes hmore => ?_,
    fun err hjob => plan_rejected hjob .., fun err hjob hobjects => plan_rejected_objects hjob hobjects ..,
    fun hjob hobjects => ?_⟩
  · cases hjob : validateLogicalJob spec with
    | error err => rw [plan_rejected hjob, plan_rejected hjob]
    | ok u =>
      cases hobjects : validateLogicalJobObjects spec objects with
      | error err => rw [plan_rejected_objects hjob hobjects, plan_rejected_objects hjob hobjects]
      | ok u' =>
        have hsteps : spec.roles.length + 2 ^ 32 ≤ fuel := hfuel
        rw [plan_eq hjob hobjects, plan_eq hjob hobjects,
          planLoop_fuel _ fuel steps (by omega) (by omega) fuel steps e (by omega) (by omega)]
  · refine resolveLoop_passes ⟨List.nodup_nil, fun name hname => (List.not_mem_nil hname).elim⟩ ?_ ?_
    · simpa using hmore
    · simp
  · rcases plan_cases hjob hobjects scheduler resources topology (I := fun _ => True) trivial
      (fun _ _ _ _ _ _ _ _ _ _ => trivial) steps e with hfail | ⟨result, s, hok, -, hsound, hread⟩ | ⟨-, hshort⟩
    · exact .inr hfail
    · refine .inl ⟨result, hok, forall₂_imp_mem hread.roles fun role hrole planned _ hlookup => ?_⟩
      have hvalid := (validateLogicalJob_ok hjob).2 role hrole
      have hplanned := hread.planned hsound hrole hlookup
      exact ⟨hplanned.name, hplanned.shards hvalid.shards, hplanned.unreduced, hplanned.hierarchy hvalid.shards⟩
    · exact absurd hshort (by omega)

/-- Three shards whose outputs are reduced two at a time, and a role that reads what is left. -/
def treeJob : LogicalJobSpec ℚ where
  id := ⟨1⟩
  roles := [
    { sampleRole "last" 1 with dependsOn := ["map"] },
    { sampleRole "map" 8 with
      shards := .fixed 3
      reduction := some ⟨"sum", ⟨"builtin:sum-u64", "run", [], [], {}, .pure, ⟨1, 8⟩⟩, 2, 1⟩ }]
  outputs := ["last"]

/-- A plan of the job on two resources with a link between them. -/
def treePlan : Except PlanFailure (CooperativePlan ℚ) :=
  plan 3 sampleNames treeJob .default [sampleResource 1, sampleResource 2] ∅ ⟨[⟨⟨1⟩, ⟨2⟩, 0, 1000⟩]⟩

example : treePlan.toOption.map (fun result => result.roles.map fun planned =>
    (planned.name, planned.shards.length, planned.reductions.map fun level => level.reductions.map (·.inputCount))) =
    some [("last", 1, []), ("map", 3, [[2], [2]])] := by
  decide +kernel

end Plurifold
