import Plurifold.Lib.Attempt
import Plurifold.Planner.Reduction
import Plurifold.Planner.Validate

/-!
# The state of the fabric (`plurifold-runtime`)

One `Fabric` holds the registered resources, the published objects, the tasks, the jobs, which role each task works
for, and the topology. Task status, role status, selections and running reductions are separate maps; what keeps them
consistent is proved in `Fabric.Sound`.
-/

namespace Plurifold

open Lib

variable {F : Type} [F64 F]

inductive TaskStatus
  | pending
  | running (lease : ExecutionLease)
  | completed (outputs : List ObjectId)
  /-- An Exclusive task lost its execution lease; replay requires reconciliation. -/
  | uncertain
  deriving DecidableEq

inductive CooperativeRoleStatus
  | waiting
  /-- Dependencies are complete, but no implementation is currently feasible. -/
  | ready
  | submitted (task : TaskId)
  | sharded (tasks : List TaskId) (completed : Nat)
  | reducing (tasks : List TaskId) (completed : Nat) (level : UInt32)
  | completed (outputs : List ObjectId)
  | uncertain
  deriving DecidableEq

inductive CooperativeJobStatus
  | running
  | completed (outputs : List ObjectId)
  | uncertain
  deriving DecidableEq

structure RoleFusionView (F : Type) where
  chainRoles : List String
  stageIndex : Nat
  estimatedAvoidedTransferMs : F
  estimatedVsSeparateMs : F

structure RoleShardView (F : Type) where
  index : UInt32
  taskId : TaskId
  implementation : String
  plannedResource : ResourceId
  estimatedTotalMs : F
  partition : Option TaskShardPartition
  status : TaskStatus

structure CooperativeRoleView (F : Type) where
  name : String
  dependsOn : List String
  status : CooperativeRoleStatus
  implementation : Option String
  plannedResource : Option ResourceId
  estimatedTotalMs : Option F
  fusion : Option (RoleFusionView F)
  shards : List (RoleShardView F)

structure RegisteredResource (F : Type) where
  descriptor : ResourceDescriptor F
  expiresAtUnixMs : UInt64

structure TaskRecord (F : Type) where
  spec : TaskSpec F
  status : TaskStatus

structure ShardSelection (F : Type) where
  index : UInt32
  taskId : TaskId
  implementation : String
  plannedResource : ResourceId
  estimatedTotalMs : F

inductive RoleSelection (F : Type)
  | single (implementation : String) (plannedResource : ResourceId) (estimatedTotalMs : F)
      (fusion : Option (RoleFusionView F))
  | sharded (selections : List (ShardSelection F))

inductive ReductionItem
  | carry (object : ObjectId)
  | task (id : TaskId)
  deriving DecidableEq

structure ActiveReduction where
  level : UInt32
  inputs : List ObjectId
  items : List ReductionItem

structure CooperativeJobRecord (F : Type) where
  definition : JobDefinition F
  roles : Map String CooperativeRoleStatus
  selections : Map String (RoleSelection F)
  reductions : Map String ActiveReduction

inductive TaskRoleBinding
  | single (job : JobId) (role : String)
  | fusedChain (job : JobId) (roles : List String)
  | shard (job : JobId) (role : String)
  | reduction (job : JobId) (role : String)
  deriving DecidableEq

namespace TaskRoleBinding

def job : TaskRoleBinding → JobId
  | .single j _ | .fusedChain j _ | .shard j _ | .reduction j _ => j

/-- The roles the task works for. -/
def roles : TaskRoleBinding → List String
  | .single _ r | .shard _ r | .reduction _ r => [r]
  | .fusedChain _ roles => roles

def isReduction : TaskRoleBinding → Bool
  | .reduction _ _ => true
  | _ => false

end TaskRoleBinding

inductive FabricError
  | resourceNotActive (id : ResourceId)
  | staleResourceEpoch (id : ResourceId)
  | unknownTask (id : TaskId)
  | unknownObject (id : ObjectId)
  | objectConflict (id : ObjectId)
  | duplicateTask (id : TaskId)
  | invalidTask (message : String)
  | unknownJob (id : JobId)
  | duplicateJob (id : JobId)
  | invalidCooperativeJob (message : String)
  | invalidLogicalJob (message : String)
  | taskNotPending (id : TaskId)
  | staleExecution
  | executionExpired
  | scheduling (error : ScheduleError)
  deriving DecidableEq

structure Fabric (F : Type) where
  resources : Map ResourceId (RegisteredResource F)
  objects : Objects
  tasks : Map TaskId (TaskRecord F)
  jobs : Map JobId (CooperativeJobRecord F)
  taskRoles : Map TaskId TaskRoleBinding
  topology : TopologySnapshot F
  scheduler : TopologyAwareScheduler F
  membershipTtlMs : UInt64
  executionTtlMs : UInt64

/-- An operation on the fabric that may fail. -/
abbrev FabricM (F α : Type) := Attempt (Fabric F) FabricError α

def Fabric.new (membershipTtlMs executionTtlMs : UInt64) : Fabric F where
  resources := ∅
  objects := ∅
  tasks := ∅
  jobs := ∅
  taskRoles := ∅
  topology := ⟨[]⟩
  scheduler := .default
  membershipTtlMs := membershipTtlMs
  executionTtlMs := executionTtlMs

/-! ## Job definitions -/

def logicalRoleReduction (definition : JobDefinition F) (roleName : String) : Option (RoleReductionSpec F) :=
  match definition with
  | .logical spec => (spec.roles.find? fun role => role.name = roleName).bind (·.reduction)
  | .cooperative _ => none

def jobOutputs : JobDefinition F → List String
  | .cooperative spec => spec.outputs
  | .logical spec => spec.outputs

def jobRoles : JobDefinition F → List (String × List String)
  | .cooperative spec => spec.roles.map fun role => (role.name, role.dependsOn)
  | .logical spec => spec.roles.map fun role => (role.name, role.dependsOn)

/-! ## Field updates -/

namespace Fabric

/-- The status of a task. -/
def taskStatus (s : Fabric F) (t : TaskId) : Option TaskStatus := (s.tasks.lookup t).map (·.status)

/-- The specification of a task. -/
def taskSpec (s : Fabric F) (t : TaskId) : Option (TaskSpec F) := (s.tasks.lookup t).map (·.spec)

/-- Write the status of a task. -/
def setStatus (t : TaskId) (status : TaskStatus) (s : Fabric F) : Fabric F :=
  { s with tasks := Map.modify t (fun record => { record with status := status }) s.tasks }

/-- Bind a task to the role it works for. -/
def bindTask (t : TaskId) (binding : TaskRoleBinding) (s : Fabric F) : Fabric F :=
  { s with taskRoles := s.taskRoles.insert t binding }

/-- Change the record of a job. -/
def modifyJob (j : JobId) (f : CooperativeJobRecord F → CooperativeJobRecord F) (s : Fabric F) : Fabric F :=
  { s with jobs := Map.modify j f s.jobs }

/-- Write the status of a role. -/
def setRole (j : JobId) (r : String) (status : CooperativeRoleStatus) : Fabric F → Fabric F :=
  modifyJob j fun job => { job with roles := job.roles.insert r status }

/-- Record how a role was placed. -/
def setSelection (j : JobId) (r : String) (selection : RoleSelection F) : Fabric F → Fabric F :=
  modifyJob j fun job => { job with selections := job.selections.insert r selection }

/-- Write the running reduction of a role. -/
def setReduction (j : JobId) (r : String) (reduction : ActiveReduction) : Fabric F → Fabric F :=
  modifyJob j fun job => { job with reductions := job.reductions.insert r reduction }

/-- The reduction of a role is over. -/
def removeReduction (j : JobId) (r : String) : Fabric F → Fabric F :=
  modifyJob j fun job => { job with reductions := job.reductions.erase r }

section Updates

variable (s : Fabric F) (t : TaskId) (j : JobId) (f : CooperativeJobRecord F → CooperativeJobRecord F)

omit [F64 F]

theorem setStatus_lookup (status : TaskStatus) (t' : TaskId) :
    (s.setStatus t status).tasks.lookup t' =
      if t' = t then (s.tasks.lookup t').map fun record => { record with status := status }
      else s.tasks.lookup t' := Map.lookup_modify _ _ _ _

theorem modifyJob_lookup (j' : JobId) :
    (s.modifyJob j f).jobs.lookup j' = if j' = j then (s.jobs.lookup j').map f else s.jobs.lookup j' :=
  Map.lookup_modify _ _ _ _

@[simp] theorem setStatus_objects (status : TaskStatus) : (s.setStatus t status).objects = s.objects := rfl

end Updates

end Fabric

/-! ## Small pieces -/

/-- `u64::saturating_add`. -/
def saturatingAdd (a b : UInt64) : UInt64 := UInt64.ofNat (min (a.toNat + b.toNat) (2 ^ 64 - 1))

def sameObjectIdentity (left right : ObjectMetadata) : Bool :=
  decide (left.id = right.id) && decide (left.sizeBytes = right.sizeBytes) && decide (left.digest = right.digest) &&
    decide (left.encoding = right.encoding) && decide (left.producer = right.producer)

def dependencyOutputs (statuses : Map String CooperativeRoleStatus) : List String → Option (List ObjectId)
  | [] => some []
  | dependency :: rest =>
    match statuses.lookup dependency with
    | some (.completed outputs) => (dependencyOutputs statuses rest).map (outputs ++ ·)
    | _ => none

/-- The loop of `fusion_chain` from `current` on. A chain that is ready has no repeated role (`chain_nodup`), so
as many rounds as there are roles suffice. -/
def growChain (spec : LogicalJobSpec F) (statuses : Map String CooperativeRoleStatus) :
    Nat → LogicalRoleSpec F → List (LogicalRoleSpec F)
  | 0, _ => []
  | rounds + 1, current =>
    if spec.outputs.contains current.name then []
    else
      match spec.roles.filter fun candidate => candidate.dependsOn.contains current.name with
      | [consumer] =>
        if consumer.shards.fixedCount = some 1 ∧ consumer.dependsOn = [current.name] ∧
            statuses.lookup consumer.name = some .waiting then consumer :: growChain spec statuses rounds consumer
        else []
      | _ => []

def fusionChain (spec : LogicalJobSpec F) (statuses : Map String CooperativeRoleStatus) (first : LogicalRoleSpec F) :
    List (LogicalRoleSpec F) :=
  first :: if first.shards.fixedCount = some 1 then growChain spec statuses spec.roles.length first else []

/-! ## Which tasks are accepted -/

/-- `checked_add` does not overflow and the sum stays within the total. -/
def rangeWithin (start length total : UInt64) : Bool :=
  decide (start.toNat + length.toNat < 2 ^ 64) && decide (saturatingAdd start length ≤ total)

def validateShard (task : TaskSpec F) : Except FabricError Unit :=
  match task.shard with
  | none => .ok ()
  | some shard =>
    if shard.count = 0 || decide (shard.count ≤ shard.index) then
      .error (.invalidTask s!"invalid shard context {shard.index}/{shard.count}")
    else
      match shard.partition with
      | none => .ok ()
      | some (.byteRange input offset length totalBytes) =>
        if decide (input < task.inputs.length) && rangeWithin offset length totalBytes then .ok ()
        else .error (.invalidTask "invalid shard byte-range partition")
      | some (.records input recordStart recordCount totalRecords offset length totalBytes) =>
        if decide (input < task.inputs.length) && rangeWithin recordStart recordCount totalRecords &&
            rangeWithin offset length totalBytes then .ok ()
        else .error (.invalidTask "invalid shard record partition")

/-- The first external index of a stage that is out of range. -/
def badExternalIndex (inputCount : Nat) (inputs : List PipelineInput) : Option Nat :=
  inputs.findSome? fun
    | .external index => if inputCount ≤ index then some index else none
    | .previousOutput => none

def validateStage (inputCount stageIndex : Nat) (stage : TaskPipelineStage) : Except FabricError Unit :=
  if !stage.artifact.startsWith "builtin:" then
    .error (.invalidTask s!"pipeline stage {stageIndex} uses unsupported artifact family {stage.artifact}")
  else if stage.entrypoint ≠ "run" then
    .error (.invalidTask s!"pipeline stage {stageIndex} requires entrypoint run")
  else
    let previousCount := stage.inputs.count .previousOutput
    if (stageIndex = 0 && previousCount ≠ 0) || (decide (0 < stageIndex) && previousCount ≠ 1) then
      .error (.invalidTask s!"pipeline stage {stageIndex} has invalid previous-output bindings")
    else
      match badExternalIndex inputCount stage.inputs with
      | some index => .error (.invalidTask
          s!"pipeline stage {stageIndex} references external input index {index}, but the task has {inputCount} inputs")
      | none => .ok ()

def validatePipeline (task : TaskSpec F) : Except FabricError Unit :=
  match task.pipeline with
  | none => .ok ()
  | some pipeline =>
    if task.artifact ≠ "plurifold:pipeline" ∨ task.entrypoint ≠ "run" then
      .error (.invalidTask "pipeline tasks require artifact plurifold:pipeline and entrypoint run")
    else if task.effects ≠ .pure then
      .error (.invalidTask "pipeline tasks currently require Pure effect semantics")
    else if pipeline.stages.length < 2 then
      .error (.invalidTask "pipeline tasks require at least two stages")
    else
      pipeline.stages.zipIdx.forM fun (stage, stageIndex) => validateStage task.inputs.length stageIndex stage

def validateTask (task : TaskSpec F) : Except FabricError Unit := do
  validateShard task
  validatePipeline task

def validateCooperativeJob (job : CooperativeJobSpec F) : Except FabricError Unit :=
  match validateRoleGraph (job.roles.map fun role => (role.name, role.dependsOn)) job.outputs with
  | .error message => .error (.invalidCooperativeJob message)
  | .ok () => .ok ()

end Plurifold
