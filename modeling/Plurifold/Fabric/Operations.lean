import Plurifold.Fabric.Roles

/-!
# The operations of the fabric (`plurifold-runtime`)

Membership, objects, submission, execution leases and their recovery, and the views of a job. An execution lease that a
client presents is only compared with the one stored in the task record: the stored deadline counts.
-/

namespace Plurifold

open Lib Attempt

variable {F : Type} [F64 F]

namespace Fabric

/-! ## Topology and membership -/

def setTopology (topology : TopologySnapshot F) (s : Fabric F) : Fabric F := { s with topology := topology }

def removeLink (a b : ResourceId) (s : Fabric F) : Fabric F :=
  { s with topology := ⟨s.topology.links.filter fun existing =>
      !((decide (existing.fromResource = a) && decide (existing.toResource = b)) ||
        (decide (existing.fromResource = b) && decide (existing.toResource = a)))⟩ }

def upsertLink (link : LinkProfile F) (s : Fabric F) : Fabric F :=
  let s := s.removeLink link.fromResource link.toResource
  { s with topology := ⟨s.topology.links ++ [link]⟩ }

/-- The epoch a registration gets. The increment of a stored epoch is `u64` arithmetic and wraps. -/
def nextEpoch (s : Fabric F) (descriptor : ResourceDescriptor F) : UInt64 :=
  match s.resources.lookup descriptor.id with
  | some existing => existing.descriptor.epoch + 1
  | none => max descriptor.epoch 1

def registerResource (e : Env) (descriptor : ResourceDescriptor F) (s : Fabric F) : MembershipLease × Fabric F :=
  let epoch := s.nextEpoch descriptor
  let expiresAtUnixMs := saturatingAdd e.clock s.membershipTtlMs
  let registered := { descriptor := { descriptor with epoch := epoch }, expiresAtUnixMs := expiresAtUnixMs }
  ({ resourceId := descriptor.id, epoch, expiresAtUnixMs },
    { s with resources := s.resources.insert descriptor.id registered })

def heartbeat (e : Env) (resourceId : ResourceId) (epoch : UInt64) : FabricM F MembershipLease := do
  let s ← state
  let registered ← okOr (s.resources.lookup resourceId) (.resourceNotActive resourceId)
  if registered.descriptor.epoch ≠ epoch then fail (.staleResourceEpoch resourceId)
  else do
    let expiresAtUnixMs := saturatingAdd e.clock s.membershipTtlMs
    update fun s => { s with
      resources := s.resources.insert resourceId { registered with expiresAtUnixMs := expiresAtUnixMs } }
    pure { resourceId, epoch, expiresAtUnixMs }

def removeResource (resourceId : ResourceId) (s : Fabric F) : Fabric F :=
  { s with
    resources := s.resources.erase resourceId
    objects := Map.mapVals (fun _ object =>
      { object with locations := object.locations.filter fun location => location ≠ resourceId }) s.objects
    topology := ⟨s.topology.links.filter fun link =>
      decide (link.fromResource ≠ resourceId) && decide (link.toResource ≠ resourceId)⟩ }

def unregisterResource (resourceId : ResourceId) : Fabric F → Fabric F := removeResource resourceId

def expireResourcesAt (e : Env) (unixMs : UInt64) (s : Fabric F) : List ResourceId × Fabric F :=
  let expired := ((e.iter s.resources.pairs).filter fun entry => decide (entry.2.expiresAtUnixMs ≤ unixMs)).map (·.1)
  (expired, expired.foldl (fun s id => s.removeResource id) s)

/-- A registered resource whose membership has not expired. -/
def activeResource (s : Fabric F) (now : UInt64) (resourceId : ResourceId) : Option (RegisteredResource F) :=
  (s.resources.lookup resourceId).filter fun resource => decide (now < resource.expiresAtUnixMs)

def resourceEpoch (e : Env) (s : Fabric F) (resourceId : ResourceId) : Option UInt64 :=
  (s.activeResource e.clock resourceId).map (·.descriptor.epoch)

/-! ## Objects -/

/-- `object.locations` with the locations of another replica list added. -/
def addLocations (existing : ObjectMetadata) (locations : List ResourceId) : ObjectMetadata :=
  { existing with locations := locations.foldl (fun known location =>
      if known.contains location then known else known ++ [location]) existing.locations }

def publishObject (object : ObjectMetadata) : FabricM F Unit := do
  let s ← state
  match s.objects.lookup object.id with
  | some existing =>
    if !sameObjectIdentity existing object then fail (.objectConflict object.id)
    else update fun s => { s with objects := s.objects.insert object.id (addLocations existing object.locations) }
  | none => update fun s => { s with objects := s.objects.insert object.id object }

def addObjectLocation (objectId : ObjectId) (resourceId : ResourceId) : FabricM F Unit := do
  let s ← state
  let object ← okOr (s.objects.lookup objectId) (.unknownObject objectId)
  update fun s => { s with objects := s.objects.insert objectId (addLocations object [resourceId]) }

/-! ## Jobs -/

/-- The record of a new job: every role waits. -/
def newJob (definition : JobDefinition F) : CooperativeJobRecord F where
  definition := definition
  roles := Map.collect ((jobRoles definition).map fun role => (role.1, .waiting))
  selections := ∅
  reductions := ∅

/-- Store an accepted job and materialize its first roles. -/
def acceptJob (e : Env) (j : JobId) (definition : JobDefinition F) : FabricM F JobId := do
  let s ← state
  if (s.jobs.lookup j).isSome then fail (.duplicateJob j)
  else do
    update fun s => { s with jobs := s.jobs.insert j (newJob definition) }
    materializeReadyRoles e j
    pure j

def submitCooperative (e : Env) (job : CooperativeJobSpec F) : FabricM F JobId := do
  lift (validateCooperativeJob job)
  acceptJob e job.id (.cooperative job)

/-- The error of a job that is not placed yet. -/
def planErrorToFabric : PlanError → FabricError
  | .invalidLogicalJob message => .invalidLogicalJob message
  -- `unreachable!`: validation does not place roles
  | .noFeasibleImplementation role => .invalidLogicalJob role

def submitLogical (e : Env) (job : LogicalJobSpec F) : FabricM F JobId := do
  lift ((validateLogicalJob job).mapError planErrorToFabric)
  let s ← state
  lift ((validateLogicalJobObjects job s.objects).mapError planErrorToFabric)
  acceptJob e job.id (.logical job)

def cooperativeJobStatus (s : Fabric F) (j : JobId) : Option CooperativeJobStatus :=
  (s.jobs.lookup j).map fun job =>
    if job.roles.values.any fun status => status = .uncertain then .uncertain
    else if !(job.roles.values.all fun | .completed _ => true | _ => false) then .running
    else .completed ((jobOutputs job.definition).flatMap fun role => match job.roles.lookup role with
      | some (.completed outputs) => outputs
      | _ => [])

/-- The view of one shard; `none`: the `expect` on its task panics. -/
def roleShardView (s : Fabric F) (selection : ShardSelection F) : Option (RoleShardView F) :=
  (s.tasks.lookup selection.taskId).map fun task =>
    { index := selection.index, taskId := selection.taskId, implementation := selection.implementation,
      plannedResource := selection.plannedResource, estimatedTotalMs := selection.estimatedTotalMs,
      partition := task.spec.shard.bind (·.partition), status := task.status }

/-- The view of one role; `none`: an `expect` panics. -/
def roleView (s : Fabric F) (job : CooperativeJobRecord F) (role : String × List String) :
    Option (CooperativeRoleView F) := do
  let status ← job.roles.lookup role.1
  match job.selections.lookup role.1 with
  | some (.single implementation plannedResource estimatedTotalMs fusion) =>
    some { name := role.1, dependsOn := role.2, status, implementation := some implementation,
           plannedResource := some plannedResource, estimatedTotalMs := some estimatedTotalMs, fusion, shards := [] }
  | some (.sharded selections) => do
    let shards ← selections.mapM s.roleShardView
    some { name := role.1, dependsOn := role.2, status, implementation := none, plannedResource := none,
           estimatedTotalMs := none, fusion := none, shards }
  | none =>
    some { name := role.1, dependsOn := role.2, status, implementation := none, plannedResource := none,
           estimatedTotalMs := none, fusion := none, shards := [] }

/-- The views of the roles of a job, `none` for an unknown job; the inner `none` is a panic. -/
def cooperativeRoleViews (s : Fabric F) (j : JobId) : Option (Option (List (CooperativeRoleView F))) :=
  (s.jobs.lookup j).map fun job => (jobRoles job.definition).mapM (s.roleView job)

/-! ## Execution leases -/

def pendingTaskIds (e : Env) (s : Fabric F) : List TaskId :=
  ((e.iter s.tasks.pairs).filter fun entry => decide (entry.2.status = .pending)).map (·.1)

def scheduleTask (e : Env) (s : Fabric F) (t : TaskId) : Except FabricError (PlacementDecision F) :=
  match s.tasks.lookup t with
  | none => .error (.unknownTask t)
  | some record =>
    if record.status ≠ .pending then .error (.taskNotPending t)
    else (s.scheduler.choose record.spec (s.schedulableResources e) s.objects s.topology).mapError .scheduling

def beginExecution (e : Env) (t : TaskId) (resourceId : ResourceId) : FabricM F ExecutionLease := do
  let s ← state
  let now := e.clock
  let resource ← okOr (s.activeResource now resourceId) (.resourceNotActive resourceId)
  let record ← okOr (s.tasks.lookup t) (.unknownTask t)
  if record.status ≠ .pending then fail (.taskNotPending t)
  else do
    let lease : ExecutionLease :=
      { taskId := t, executionId := ExecutionId.new e, resourceId, resourceEpoch := resource.descriptor.epoch,
        expiresAtUnixMs := saturatingAdd now s.executionTtlMs }
    update (setStatus t (.running lease))
    pure lease

/-- The stored lease of the attempt that a presented lease names, if it is current: the checks that `renew_execution`
and `complete_execution` make in this order. -/
def currentLease (s : Fabric F) (now : UInt64) (lease : ExecutionLease) : Except FabricError ExecutionLease :=
  match s.activeResource now lease.resourceId with
  | none => .error (.resourceNotActive lease.resourceId)
  | some resource =>
    if resource.descriptor.epoch ≠ lease.resourceEpoch then .error (.staleResourceEpoch lease.resourceId)
    else
      match s.tasks.lookup lease.taskId with
      | none => .error (.unknownTask lease.taskId)
      | some record =>
        match record.status with
        | .running current =>
          if current.executionId ≠ lease.executionId then .error .staleExecution
          else if current.expiresAtUnixMs ≤ now then .error .executionExpired
          else if current.resourceId ≠ lease.resourceId ∨ current.resourceEpoch ≠ lease.resourceEpoch then
            .error .staleExecution
          else .ok current
        | _ => .error .staleExecution

def renewExecution (e : Env) (lease : ExecutionLease) : FabricM F ExecutionLease := do
  let s ← state
  let now := e.clock
  let current ← lift (s.currentLease now lease)
  let renewed := { current with expiresAtUnixMs := saturatingAdd now s.executionTtlMs }
  update (setStatus lease.taskId (.running renewed))
  pure renewed

/-- The first output that conflicts with a stored object. -/
def conflictingOutput (s : Fabric F) (outputs : List ObjectMetadata) : Option ObjectMetadata :=
  outputs.find? fun output => match s.objects.lookup output.id with
    | some existing => !sameObjectIdentity existing output
    | none => false

/-- The task works for a reduction. -/
def isReduction : Option TaskRoleBinding → Bool
  | some (.reduction _ _) => true
  | _ => false

def completeExecution (e : Env) (lease : ExecutionLease) (outputs : List ObjectMetadata) : FabricM F Unit := do
  let s ← state
  let _ ← lift (s.currentLease e.clock lease)
  if isReduction (s.taskRoles.lookup lease.taskId) && decide (outputs.length ≠ 1) then
    fail (.invalidLogicalJob "reduction tasks must produce exactly one output")
  else
    match s.conflictingOutput outputs with
    | some output => fail (.objectConflict output.id)
    | none => do
      let outputIds := outputs.map (·.id)
      update (setStatus lease.taskId (.completed outputIds))
      each outputs fun _ object => publishObject object
      completeCooperativeRole (e.sub 0) lease.taskId outputIds

/-- The lease of a running task has expired. -/
def leaseExpired (unixMs : UInt64) (record : TaskRecord F) : Bool :=
  match record.status with
  | .running lease => decide (lease.expiresAtUnixMs ≤ unixMs)
  | _ => false

/-- What becomes of a task whose lease has expired. -/
def reapRecord (unixMs : UInt64) (record : TaskRecord F) : TaskRecord F :=
  if leaseExpired unixMs record then
    { record with status := if record.spec.effects.automaticallyRetryable then .pending else .uncertain }
  else record

def reapExpiredExecutionsAt (e : Env) (unixMs : UInt64) (s : Fabric F) : List TaskId × Fabric F :=
  let expired := (e.iter s.tasks.pairs).filter fun entry => leaseExpired unixMs entry.2
  let uncertain := (expired.filter fun entry => !entry.2.spec.effects.automaticallyRetryable).map (·.1)
  let s := { s with tasks := Map.mapVals (fun _ => reapRecord unixMs) s.tasks }
  (expired.map (·.1), uncertain.foldl (fun s t => s.markCooperativeRoleUncertain t) s)

end Fabric

end Plurifold
