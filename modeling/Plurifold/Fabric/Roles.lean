import Plurifold.Fabric.State

/-!
# Turning roles into tasks, and task results into role results (`plurifold-runtime`)

* `materializeReadyRoles` places every role of a job whose dependencies are complete: as one task, as shards, or fused
  with the roles that follow it.
* `completeCooperativeRole` records the outputs of a finished task with its role, starts or advances the reduction of a
  sharded role, and materializes what became ready.
* `markCooperativeRoleUncertain` records the loss of an Exclusive task.

Nothing is rolled back when a later step fails.
-/

namespace Plurifold

open Lib Attempt

variable {F : Type} [F64 F]

namespace Fabric

def submit (task : TaskSpec F) : FabricM F TaskId := do
  lift (validateTask task)
  let s ← state
  if (s.tasks.lookup task.id).isSome then fail (.duplicateTask task.id)
  else do
    update fun s => { s with tasks := s.tasks.insert task.id { spec := task, status := .pending } }
    pure task.id

/-- The resources that hold an unexpired execution lease. -/
def busyResources (s : Fabric F) (now : UInt64) : List ResourceId :=
  s.tasks.values.filterMap fun task => match task.status with
    | .running lease => if now < lease.expiresAtUnixMs then some lease.resourceId else none
    | _ => none

def schedulableResources (e : Env) (s : Fabric F) : List (ResourceDescriptor F) :=
  let now := e.clock
  let busy := s.busyResources now
  ((e.iter s.resources.values).filter fun resource =>
    decide (now < resource.expiresAtUnixMs) && !busy.contains resource.descriptor.id).map (·.descriptor)

/-! ## Materialization -/

/-- A role whose dependencies are complete. -/
inductive ReadyRole (F : Type)
  | cooperative (name : String) (task : TaskSpec F)
  | logical (name : String) (role : LogicalRoleSpec F) (dependencyInputs : List ObjectId)
      (fusionChain : List (LogicalRoleSpec F))

/-- A role of a cooperative job, if it waits and its dependencies are complete. -/
def readyCooperative (e : Env) (statuses : Map String CooperativeRoleStatus) (entry : CooperativeRoleSpec F × Nat) :
    Option (ReadyRole F) :=
  let (role, i) := entry
  if statuses.lookup role.name = some .waiting then
    (dependencyOutputs statuses role.dependsOn).map fun inputs =>
      .cooperative role.name (role.task.instantiate (e.sub i) inputs)
  else none

/-- A role of a logical job, if it has not been placed and its dependencies are complete. -/
def readyLogical (spec : LogicalJobSpec F) (statuses : Map String CooperativeRoleStatus) (role : LogicalRoleSpec F) :
    Option (ReadyRole F) :=
  if statuses.lookup role.name = some .waiting ∨ statuses.lookup role.name = some .ready then
    (dependencyOutputs statuses role.dependsOn).map fun inputs =>
      .logical role.name role inputs (fusionChain spec statuses role)
  else none

/-- The roles that can be materialized, read off one snapshot of the job. -/
def readyRoles (e : Env) (job : CooperativeJobRecord F) : List (ReadyRole F) :=
  match job.definition with
  | .cooperative spec => spec.roles.zipIdx.filterMap (readyCooperative e job.roles)
  | .logical spec => spec.roles.filterMap (readyLogical spec job.roles)

/-- One task for one role. -/
def submitSingle (j : JobId) (name : String) (task : TaskSpec F) (selection : Option (RoleSelection F)) :
    FabricM F Unit := do
  let _ ← submit task
  update (bindTask task.id (.single j name))
  update (setRole j name (.submitted task.id))
  match selection with
  | some selection => update (setSelection j name selection)
  | none => pure ()

/-- One task for every shard of a role. -/
def submitShards (j : JobId) (name : String) (selected : List (ReadyShardSelection F)) : FabricM F Unit := do
  each selected fun _ shard => do
    let _ ← submit shard.task
    update (bindTask shard.task.id (.shard j name))
  update (setRole j name (.sharded (selected.map (·.task.id)) 0))
  update (setSelection j name (.sharded (selected.map fun shard =>
    { index := shard.index, taskId := shard.task.id, implementation := shard.implementation,
      plannedResource := shard.resourceId, estimatedTotalMs := shard.cost.totalMs })))

/-- One pipeline task for a prefix of a chain of roles. -/
def submitFused (j : JobId) (chain : List (LogicalRoleSpec F)) (selected : ReadyFusionSelection F) :
    FabricM F Unit := do
  let roleNames := (chain.take selected.implementations.length).map (·.name)
  let _ ← submit selected.task
  update (bindTask selected.task.id (.fusedChain j roleNames))
  each (roleNames.zip selected.implementations) fun stageIndex (roleName, implementation) => do
    update (setRole j roleName (.submitted selected.task.id))
    update (setSelection j roleName (.single implementation selected.resourceId selected.cost.totalMs (some
      { chainRoles := roleNames, stageIndex, estimatedAvoidedTransferMs := selected.estimatedAvoidedTransferMs,
        estimatedVsSeparateMs := selected.estimatedVsSeparateMs })))

/-- The body of the loop of `materialize_ready_roles`. -/
def materializeRole (e : Env) (j : JobId) : ReadyRole F → FabricM F Unit
  | .cooperative name task => submitSingle j name task none
  | .logical name role dependencyInputs fusionChain => do
    let s ← state
    let resources := s.schedulableResources (e.sub 0)
    if role.shards.mayFanOut then
      match selectReadyShards (e.sub 1) role dependencyInputs
          { scheduler := s.scheduler, resources, objects := s.objects, topology := s.topology } with
      | none => update (setRole j name .ready)
      | some selected => submitShards j name selected
    else
      match selectReadyFusion (e.sub 2) fusionChain dependencyInputs
          { scheduler := s.scheduler, advisor := .default, resources, objects := s.objects, topology := s.topology } with
      | some selected => submitFused j fusionChain selected
      | none =>
        match selectReadyRole (e.sub 3) role dependencyInputs s.scheduler resources s.objects s.topology with
        | none => update (setRole j name .ready)
        | some selected =>
          submitSingle j name selected.task
            (some (.single selected.implementation selected.resourceId selected.cost.totalMs none))

def materializeReadyRoles (e : Env) (j : JobId) : FabricM F Unit := do
  let s ← state
  let job ← okOr (s.jobs.lookup j) (.unknownJob j)
  each (readyRoles (e.sub 0) job) fun i role => materializeRole ((e.sub 1).sub i) j role

/-! ## Reductions -/

/-- Submit the reducer tasks of a level. -/
def submitReducers (j : JobId) (role : String) (items : List (ReadyReductionItem F)) : FabricM F Unit :=
  each items fun _ item => match item with
    | .carry _ => pure ()
    | .reduce selected => do
      let _ ← submit selected.task
      update (bindTask selected.task.id (.reduction j role))

/-- What a level leaves in the running reduction. -/
def reductionItem : ReadyReductionItem F → ReductionItem
  | .carry object => .carry object
  | .reduce selected => .task selected.task.id

/-- The tasks among the items of a level. -/
def itemTasks (items : List ReductionItem) : List TaskId :=
  items.filterMap fun
    | .carry _ => none
    | .task t => some t

def materializeReductionLevel (e : Env) (j : JobId) (role : String) : FabricM F Unit := do
  let s ← state
  let job ← okOr (s.jobs.lookup j) (.unknownJob j)
  let reduction ← okOr (logicalRoleReduction job.definition role)
    (.invalidLogicalJob s!"runtime state is missing reduction spec for role {role}")
  let active ← okOr (job.reductions.lookup role)
    (.invalidLogicalJob s!"runtime state is missing reduction state for role {role}")
  if !active.items.isEmpty then pure ()
  else if active.inputs.length ≤ 1 then do
    update (removeReduction j role)
    update (setRole j role (.completed active.inputs))
    materializeReadyRoles (e.sub 0) j
  else
    match (selectReductionLevel (e.sub 1) reduction active.inputs (F64.ofNat 0) ∅
        { scheduler := s.scheduler, resources := s.schedulableResources (e.sub 2), objects := s.objects,
          topology := s.topology }).1 with
    | none => update (setRole j role (.reducing [] 0 active.level))
    | some selected => do
      submitReducers j role selected
      let items := selected.map reductionItem
      if (itemTasks items).isEmpty then
        fail (.invalidLogicalJob s!"reduction level for role {role} made no progress")
      else do
        update (setReduction j role { active with items := items })
        update (setRole j role (.reducing (itemTasks items) 0 active.level))

def startRoleReduction (e : Env) (j : JobId) (role : String) (inputs : List ObjectId) : FabricM F Unit := do
  let s ← state
  let _ ← okOr (s.jobs.lookup j) (.unknownJob j)
  update (setReduction j role { level := 0, inputs := inputs, items := [] })
  update (setRole j role (.reducing [] 0 0))
  materializeReductionLevel e j role

/-- What the items of a level have come to: the inputs of the next level so far, how many tasks are complete, and
whether all are. -/
structure LevelProgress where
  nextInputs : List ObjectId
  completed : Nat
  allComplete : Bool

/-- The loop of `advance_reduction_level` over the items. -/
def levelProgress (s : Fabric F) (role : String) : List ReductionItem → LevelProgress → Except FabricError LevelProgress
  | [], progress => .ok progress
  | .carry object :: rest, progress =>
    s.levelProgress role rest { progress with nextInputs := progress.nextInputs ++ [object] }
  | .task t :: rest, progress =>
    match s.taskStatus t with
    | some (.completed [output]) =>
      s.levelProgress role rest
        { progress with nextInputs := progress.nextInputs ++ [output], completed := progress.completed + 1 }
    | some (.completed _) => .error (.invalidLogicalJob
        s!"reduction task {t} for role {role} produced an invalid output count")
    | _ => s.levelProgress role rest { progress with allComplete := false }

def advanceReductionLevel (e : Env) (j : JobId) (role : String) : FabricM F Unit := do
  let s ← state
  let job ← okOr (s.jobs.lookup j) (.unknownJob j)
  let active ← okOr (job.reductions.lookup role)
    (.invalidLogicalJob s!"runtime state is missing reduction state for role {role}")
  let progress ← lift (s.levelProgress role active.items ⟨[], 0, true⟩)
  if !progress.allComplete then
    update (setRole j role (.reducing (itemTasks active.items) progress.completed active.level))
  else do
    update (setReduction j role { level := active.level + 1, inputs := progress.nextInputs, items := [] })
    materializeReductionLevel e j role

/-- The reductions whose next level could not be placed when it was due. -/
def pendingReductions (e : Env) (s : Fabric F) : List (JobId × String) :=
  (e.iter s.jobs.pairs).flatMap fun (j, job) =>
    ((e.sub j.uuid).iter job.reductions.pairs).filterMap fun (role, active) =>
      if 1 < active.inputs.length ∧ active.items.isEmpty then some (j, role) else none

def refreshReductions (e : Env) : FabricM F Unit := do
  let s ← state
  each (s.pendingReductions (e.sub 0)) fun i (j, role) => materializeReductionLevel ((e.sub 1).sub i) j role

def refreshReadyRoles (e : Env) : FabricM F Unit := do
  refreshReductions (e.sub 0)
  let s ← state
  each ((e.sub 1).iter s.jobs.keys) fun i j => materializeReadyRoles ((e.sub 2).sub i) j

/-! ## Completion -/

/-- The outputs of the completed tasks of a list, in list order. -/
def completedOutputs (s : Fabric F) (tasks : List TaskId) : List (List ObjectId) :=
  tasks.filterMap fun t => match s.taskStatus t with
    | some (.completed outputs) => some outputs
    | _ => none

/-- The role has a runtime state. -/
def requireRole (s : Fabric F) (j : JobId) (role : String) (error : FabricError) : FabricM F Unit := do
  let job ← okOr (s.jobs.lookup j) (.unknownJob j)
  let _ ← okOr (job.roles.lookup role) error

def completeSingle (e : Env) (j : JobId) (role : String) (outputs : List ObjectId) : FabricM F Unit := do
  let s ← state
  requireRole s j role (.invalidCooperativeJob s!"runtime state is missing role {role}")
  update (setRole j role (.completed outputs))
  materializeReadyRoles e j

/-- The interior roles of a fused chain complete without outputs, the last one with the outputs of the task. -/
def completeFusedChain (e : Env) (j : JobId) (roles : List String) (outputs : List ObjectId) : FabricM F Unit := do
  let s ← state
  let _ ← okOr (s.jobs.lookup j) (.unknownJob j)
  match roles.getLast? with
  | none => fail (.invalidLogicalJob "runtime state contains an empty fused chain")
  | some last => do
    each roles.dropLast fun _ role => do
      let s ← state
      requireRole s j role (.invalidLogicalJob s!"runtime state is missing fused role {role}")
      update (setRole j role (.completed []))
    let s ← state
    requireRole s j last (.invalidLogicalJob s!"runtime state is missing fused role {last}")
    update (setRole j last (.completed outputs))
    materializeReadyRoles e j

def completeShard (e : Env) (j : JobId) (role : String) : FabricM F Unit := do
  let s ← state
  match (s.jobs.lookup j).bind (·.roles.lookup role) with
  | some (.sharded tasks _) => do
    let done := s.completedOutputs tasks
    let job ← okOr (s.jobs.lookup j) (.unknownJob j)
    if done.length = tasks.length ∧ (logicalRoleReduction job.definition role).isSome ∧ 1 < done.flatten.length then
      startRoleReduction e j role done.flatten
    else do
      update (setRole j role
        (if done.length = tasks.length then .completed done.flatten else .sharded tasks done.length))
      materializeReadyRoles e j
  | some .uncertain => pure ()
  | _ => fail (.invalidLogicalJob s!"runtime state is missing sharded role {role}")

def completeCooperativeRole (e : Env) (t : TaskId) (outputs : List ObjectId) : FabricM F Unit := do
  let s ← state
  match s.taskRoles.lookup t with
  | none => pure ()
  | some (.single j role) => completeSingle e j role outputs
  | some (.fusedChain j roles) => completeFusedChain e j roles outputs
  | some (.shard j role) => completeShard e j role
  | some (.reduction j role) =>
    if outputs.length ≠ 1 then
      fail (.invalidLogicalJob s!"reduction task for role {role} must produce exactly one output")
    else advanceReductionLevel e j role

/-- Write a role's status if the job and the role exist. -/
def overwriteRole (j : JobId) (role : String) (status : CooperativeRoleStatus) : Fabric F → Fabric F :=
  modifyJob j fun job => { job with roles := Map.modify role (fun _ => status) job.roles }

def markCooperativeRoleUncertain (t : TaskId) (s : Fabric F) : Fabric F :=
  match s.taskRoles.lookup t with
  | none => s
  | some (.single j role) | some (.shard j role) | some (.reduction j role) => s.overwriteRole j role .uncertain
  | some (.fusedChain j roles) => roles.foldl (fun s role => s.overwriteRole j role .uncertain) s

end Fabric

end Plurifold
