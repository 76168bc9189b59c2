import Plurifold.Scheduler

/-!
# Choosing implementations and shards (`planner.rs`)

A ready role is placed as one task (`selectReadyRole`) or as shards (`selectReadyShards`): a fixed number of them, or
the number that an automatic policy finds best for one partitioned input. Shards are placed greedily, each where it
finishes first given what the earlier ones occupy. Every `TaskSpec` drawn up on the way takes a new `TaskId`, whether
it is kept or not.
-/

namespace Plurifold

open Lib

variable {F : Type} [F64 F]

structure ReadyRoleSelection (F : Type) where
  implementation : String
  task : TaskSpec F
  resourceId : ResourceId
  cost : PlacementBreakdown F

structure ReadyShardSelection (F : Type) where
  index : UInt32
  implementation : String
  task : TaskSpec F
  resourceId : ResourceId
  startMs : F
  cost : PlacementBreakdown F

structure ShardPlanningContext (F : Type) where
  scheduler : TopologyAwareScheduler F
  resources : List (ResourceDescriptor F)
  objects : Objects
  topology : TopologySnapshot F

/-- When each resource becomes free. -/
abbrev Availability (F : Type) := Map ResourceId F

def placementCost (scheduler : TopologyAwareScheduler F) (task : TaskSpec F) (resource : ResourceDescriptor F)
    (objects : Objects) (topology : TopologySnapshot F) : Option (PlacementBreakdown F) :=
  match scheduler.choose task [resource] objects topology with
  | .ok decision => some decision.cost
  | .error _ => none

/-! ## One task -/

def selectReadyRole (e : Env) (role : LogicalRoleSpec F) (dependencyInputs : List ObjectId)
    (scheduler : TopologyAwareScheduler F) (resources : List (ResourceDescriptor F)) (objects : Objects)
    (topology : TopologySnapshot F) : Option (ReadyRoleSelection F) :=
  role.implementations.zipIdx.foldl (fun best (implementation, i) =>
    let task := implementation.task.instantiate (e.sub i) dependencyInputs
    match scheduler.choose task resources objects topology with
    | .error _ => best
    | .ok decision =>
      let replace := match best with
        | some current => F64.lt decision.cost.totalMs current.cost.totalMs
        | none => true
      if replace then
        some { implementation := implementation.name, task, resourceId := decision.resourceId, cost := decision.cost }
      else best) none

/-! ## Partitions of an input -/

/-- `slice::windows(2)`, as pairs. -/
def windows2 (l : List UInt64) : List (UInt64 × UInt64) := l.zip l.tail

def validRecordOffsets (offsets : List UInt64) (totalBytes : UInt64) : Bool :=
  decide (2 ≤ offsets.length) && decide (offsets.head? = some 0) && decide (offsets.getLast? = some totalBytes) &&
    (windows2 offsets).all fun pair => decide (pair.1 < pair.2)

/-- Part `index` of `count` of a whole of `total` units: where it starts and how long it is. Products are 128-bit. -/
def partitionBounds (total : UInt64) (index count : UInt32) : UInt64 × UInt64 :=
  let start := UInt64.ofNat (total.toNat * index.toNat / count.toNat)
  let stop := UInt64.ofNat (total.toNat * (index + 1).toNat / count.toNat)
  (start, stop - start)

def partitionUnits (role : LogicalRoleSpec F) (partition : ShardPartitionSpec) (objects : Objects) : Option UInt64 := do
  let template ← role.implementations.head?.map (·.task)
  let objectId ← template.inputs[partition.input]?
  let object ← objects.lookup objectId
  match partition with
  | .byteRange _ => some object.sizeBytes
  | .records _ offsets =>
    if validRecordOffsets offsets object.sizeBytes then some (UInt64.ofNat (offsets.length - 1)) else none

def concretePartition (template : TaskTemplate F) (partition : ShardPartitionSpec) (index count : UInt32)
    (objects : Objects) : Option TaskShardPartition :=
  match partition with
  | .byteRange input => do
    let objectId ← template.inputs[input]?
    let totalBytes := (← objects.lookup objectId).sizeBytes
    let (offset, length) := partitionBounds totalBytes index count
    some (.byteRange input offset length totalBytes)
  | .records input offsets => do
    let objectId ← template.inputs[input]?
    let totalBytes := (← objects.lookup objectId).sizeBytes
    if validRecordOffsets offsets totalBytes then
      let totalRecords := UInt64.ofNat (offsets.length - 1)
      let (recordStart, recordCount) := partitionBounds totalRecords index count
      -- `checked_add`
      let last ← if recordStart.toNat + recordCount.toNat < 2 ^ 64 then some (recordStart.toNat + recordCount.toNat)
        else none
      let offset ← offsets[recordStart.toNat]?
      let stop ← offsets[last]?
      -- `checked_sub`
      let length ← if offset ≤ stop then some (stop - offset) else none
      some (.records input recordStart recordCount totalRecords offset length totalBytes)
    else none

def scaleAutoShardCost (task : TaskSpec F) (partition : TaskShardPartition) (policy : AutoShardPolicy F) : TaskSpec F :=
  { task with
    cost := {
      computeMsOnReference := task.cost.computeMsOnReference * partition.workFraction + policy.perShardOverheadMs
      outputBytes := partition.scaledOutputBytes task.cost.outputBytes } }

def instantiateShardTask (e : Env) (template : TaskTemplate F) (dependencyInputs : List ObjectId)
    (index count : UInt32) (autoPolicy : Option (AutoShardPolicy F)) (objects : Objects) : Option (TaskSpec F) :=
  let task := template.instantiate e dependencyInputs
  match autoPolicy with
  | none => some { task with shard := some ⟨index, count, none⟩ }
  | some policy =>
    (concretePartition template policy.partition index count objects).map fun partition =>
      { scaleAutoShardCost task partition policy with shard := some ⟨index, count, some partition⟩ }

/-! ## Greedy placement -/

/-- Earlier finish first; at equal finish, lower cost. -/
def finishesBefore (startMs totalMs bestStartMs bestTotalMs : F) : Bool :=
  match F64.totalCmp (startMs + totalMs) (bestStartMs + bestTotalMs) with
  | .lt => true
  | .eq => F64.lt totalMs bestTotalMs
  | .gt => false

/-- When a task can start on a resource: its inputs are there and the resource is free. -/
def startMs (dependencyReadyMs : F) (resourceAvailableMs : Availability F) (resource : ResourceId) : F :=
  F64.max dependencyReadyMs ((resourceAvailableMs.lookup resource).getD (F64.ofNat 0))

/-- The loop of `choose_shards` over the resources, for one implementation of one shard. -/
def bestShardOnResources (implementation : String) (task : TaskSpec F) (index : UInt32) (dependencyReadyMs : F)
    (resourceAvailableMs : Availability F) (context : ShardPlanningContext F) (best : Option (ReadyShardSelection F)) :
    Option (ReadyShardSelection F) :=
  context.resources.foldl (fun best resource =>
    match placementCost context.scheduler task resource context.objects context.topology with
    | none => best
    | some cost =>
      let startMs := startMs dependencyReadyMs resourceAvailableMs resource.id
      let replace := match best with
        | some current => finishesBefore startMs cost.totalMs current.startMs current.cost.totalMs
        | none => true
      if replace then some { index, implementation, task, resourceId := resource.id, startMs, cost } else best) best

/-- The loop of `choose_shards` over the implementations, for one shard; `none` when a partition cannot be formed. -/
def bestShard (e : Env) (role : LogicalRoleSpec F) (dependencyInputs : List ObjectId) (index count : UInt32)
    (autoPolicy : Option (AutoShardPolicy F)) (dependencyReadyMs : F) (resourceAvailableMs : Availability F)
    (context : ShardPlanningContext F) : Option (Option (ReadyShardSelection F)) :=
  role.implementations.zipIdx.foldlM (fun best (implementation, i) => do
    let task ← instantiateShardTask (e.sub i) implementation.task dependencyInputs index count autoPolicy
      context.objects
    pure (bestShardOnResources implementation.name task index dependencyReadyMs resourceAvailableMs context best)) none

/-- The loop of `choose_shards` over the shard indexes. -/
def chooseShardsLoop (e : Env) (role : LogicalRoleSpec F) (dependencyInputs : List ObjectId) (shardCount : UInt32)
    (autoPolicy : Option (AutoShardPolicy F)) (dependencyReadyMs : F) (context : ShardPlanningContext F) :
    List Nat → Availability F → Option (List (ReadyShardSelection F)) × Availability F
  | [], available => (some [], available)
  | index :: rest, available =>
    match bestShard (e.sub index) role dependencyInputs (UInt32.ofNat index) shardCount autoPolicy dependencyReadyMs
        available context with
    | none | some none => (none, available)
    | some (some selected) =>
      let available := available.insert selected.resourceId (selected.startMs + selected.cost.totalMs)
      match chooseShardsLoop e role dependencyInputs shardCount autoPolicy dependencyReadyMs context rest available with
      | (some selections, available) => (some (selected :: selections), available)
      | (none, available) => (none, available)

def chooseShards (e : Env) (role : LogicalRoleSpec F) (dependencyInputs : List ObjectId) (shardCount : UInt32)
    (autoPolicy : Option (AutoShardPolicy F)) (dependencyReadyMs : F) (resourceAvailableMs : Availability F)
    (context : ShardPlanningContext F) : Option (List (ReadyShardSelection F)) × Availability F :=
  chooseShardsLoop e role dependencyInputs shardCount autoPolicy dependencyReadyMs context (List.range shardCount.toNat)
    resourceAvailableMs

/-- The latest finish of the selections, at least `dependencyReadyMs`. -/
def latestFinish (dependencyReadyMs : F) (selections : List (ReadyShardSelection F)) : F :=
  (selections.map fun selection => selection.startMs + selection.cost.totalMs).foldl F64.max dependencyReadyMs

/-- Whether a shard count with makespan `incrementalMs` replaces the best one so far. -/
def improvesOn (policy : AutoShardPolicy F) (incrementalMs : F) (length : Nat)
    (best : Option (List (ReadyShardSelection F) × Availability F × F)) : Bool :=
  match best with
  | none => true
  | some (current, _, currentIncremental) =>
    match F64.totalCmp incrementalMs currentIncremental with
    | .lt =>
      let gainRatio := if F64.le currentIncremental (F64.ofNat 0) then F64.ofNat 0
        else (currentIncremental - incrementalMs) / currentIncremental
      F64.le policy.minGainRatio gainRatio
    | .eq => decide (length < current.length)
    | .gt => false

def maxAutoShards (policy : AutoShardPolicy F) (units : UInt64) : UInt32 :=
  if units = 0 then 1
  -- the units, capped at `u32::MAX` before the cast
  else min policy.maxShards (UInt32.ofNat (min units.toNat (2 ^ 32 - 1)))

def chooseAutoShards (e : Env) (role : LogicalRoleSpec F) (dependencyInputs : List ObjectId)
    (policy : AutoShardPolicy F) (dependencyReadyMs : F) (resourceAvailableMs : Availability F)
    (context : ShardPlanningContext F) : Option (List (ReadyShardSelection F)) × Availability F :=
  match partitionUnits role policy.partition context.objects with
  | none => (none, resourceAvailableMs)
  | some units =>
    let best := (List.range' 1 (maxAutoShards policy units).toNat).foldl (fun best count =>
      match chooseShards (e.sub count) role dependencyInputs (UInt32.ofNat count) (some policy) dependencyReadyMs
          resourceAvailableMs context with
      | (none, _) => best
      | (some selections, candidateAvailability) =>
        let finishMs := latestFinish dependencyReadyMs selections
        let incrementalMs := F64.max (finishMs - dependencyReadyMs) (F64.ofNat 0)
        if improvesOn policy incrementalMs selections.length best then
          some (selections, candidateAvailability, incrementalMs)
        else best) none
    match best with
    | some (selections, availability, _) => (some selections, availability)
    | none => (none, resourceAvailableMs)

def chooseRoleShards (e : Env) (role : LogicalRoleSpec F) (dependencyInputs : List ObjectId) (dependencyReadyMs : F)
    (resourceAvailableMs : Availability F) (context : ShardPlanningContext F) :
    Option (List (ReadyShardSelection F)) × Availability F :=
  match role.shards with
  | .fixed count => chooseShards e role dependencyInputs count none dependencyReadyMs resourceAvailableMs context
  | .policy (.auto policy) =>
    chooseAutoShards e role dependencyInputs policy dependencyReadyMs resourceAvailableMs context

def selectReadyShards (e : Env) (role : LogicalRoleSpec F) (dependencyInputs : List ObjectId)
    (context : ShardPlanningContext F) : Option (List (ReadyShardSelection F)) :=
  (chooseRoleShards e role dependencyInputs (F64.ofNat 0) ∅ context).1

end Plurifold
