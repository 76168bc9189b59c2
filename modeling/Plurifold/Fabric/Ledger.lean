import Mathlib.Logic.Relation
import Mathlib.Tactic.Simps.Basic
import Plurifold.Fabric.Graph
import Plurifold.Fabric.Roles

/-!
# The ledger: what the fabric records about tasks and roles

A `Ledger` is the fabric without resources, leases and clocks: which tasks exist and how far each has come, which roles
a task works for, what every role and every reduction stands at. A task is `working` until it is completed or lost;
leases come and go without a trace here.

A `Step` is one thing the fabric does to its ledger, with the condition under which it does it. The conditions say what
the code relies on, in terms of the ledger alone. Parameter `strict`: an output that the fabric refuses to publish
leaves a task `Completed` that its role has not heard of; a strict ledger has no such tasks.
-/

namespace Plurifold

open Lib

variable {F : Type}

/-! ## Ledgers -/

/-- How far a task has come. -/
inductive Progress
  | working
  | completed (outputs : List ObjectId)
  | uncertain
  deriving DecidableEq

/-- The outputs of a completed task. -/
def Progress.outputs : Progress → Option (List ObjectId)
  | .completed outputs => some outputs
  | _ => none

/-- The task is shard `i` of `n`. -/
def IsShard (spec : TaskSpec F) (i n : Nat) : Prop :=
  ∃ shard, spec.shard = some shard ∧ shard.index.toNat = i ∧ shard.count.toNat = n

@[ext] structure Ledger (F : Type) where
  spec : TaskId → Option (TaskSpec F)
  progress : TaskId → Progress
  binding : TaskId → Option TaskRoleBinding
  definition : JobId → Option (JobDefinition F)
  role : JobId → String → Option CooperativeRoleStatus
  reduction : JobId → String → Option ActiveReduction
  /-- The tasks that the selections of sharded roles name. -/
  planned : TaskId → Prop

namespace Ledger

variable (L : Ledger F)

/-! ## Updates -/

@[simps] def setProgress (t : TaskId) (p : Progress) : Ledger F :=
  { L with progress := fun t' => if t' = t then p else L.progress t' }

@[simps] def setRole (j : JobId) (r : String) (status : CooperativeRoleStatus) : Ledger F :=
  { L with role := fun j' r' => if j' = j ∧ r' = r then some status else L.role j' r' }

@[simps] def setRoles (j : JobId) (names : List String) (status : String → CooperativeRoleStatus) : Ledger F :=
  { L with role := fun j' r => if j' = j ∧ r ∈ names then some (status r) else L.role j' r }

@[simps] def setReduction (j : JobId) (r : String) (reduction : Option ActiveReduction) : Ledger F :=
  { L with reduction := fun j' r' => if j' = j ∧ r' = r then reduction else L.reduction j' r' }

/-- A new task. -/
@[simps] def add (spec : TaskSpec F) : Ledger F :=
  { L with spec := fun t => if t = spec.id then some spec else L.spec t }

/-- New tasks that work for the same roles. -/
@[simps] def addAll (specs : List (TaskSpec F)) (binding : TaskRoleBinding) : Ledger F :=
  { L with
    spec := fun t => (specs.find? fun spec => spec.id = t).or (L.spec t)
    binding := fun t => if t ∈ specs.map (·.id) then some binding else L.binding t }

@[simps] def setPlanned (planned : TaskId → Prop) : Ledger F := { L with planned := planned }

/-- A new job, all of whose roles wait. -/
@[simps] def accept (j : JobId) (definition : JobDefinition F) : Ledger F :=
  { L with
    definition := fun j' => if j' = j then some definition else L.definition j'
    role := fun j' r =>
      if j' = j ∧ r ∈ (jobRoles definition).map Prod.fst then some .waiting else L.role j' r }

/-- Task `t` works for role `r` of job `j`. -/
def Bound (t : TaskId) (j : JobId) (r : String) : Prop := ∃ b, L.binding t = some b ∧ b.job = j ∧ r ∈ b.roles

open Classical in
/-- The roles of a lost task become uncertain. -/
@[simps] noncomputable def mark (t : TaskId) : Ledger F :=
  { L with role := fun j r => if L.Bound t j r then (L.role j r).map fun _ => .uncertain else L.role j r }

/-! ## Reading -/

/-- `Bound`, and not as a reducer. -/
def Works (t : TaskId) (j : JobId) (r : String) : Prop :=
  ∃ b, L.binding t = some b ∧ b.job = j ∧ r ∈ b.roles ∧ b.isReduction = false

/-- Task `t` does all the work of the role. -/
def Serves (t : TaskId) (j : JobId) (r : String) : Prop :=
  L.binding t = some (.single j r) ∨ ∃ names, L.binding t = some (.fusedChain j names) ∧ r ∈ names

/-- The shard index of a task. -/
def shardIndex (t : TaskId) : Option Nat := ((L.spec t).bind (·.shard)).map (·.index.toNat)

/-- The tasks are shards of the role, in the order of their indexes. -/
def Shards (j : JobId) (r : String) (tasks : List TaskId) : Prop :=
  ∀ (i : Nat) (t : TaskId), tasks[i]? = some t → L.binding t = some (.shard j r) ∧
    ∃ spec, L.spec t = some spec ∧ IsShard spec i tasks.length

/-- The outputs of the completed tasks of a list, in list order. -/
def doneOutputs (tasks : List TaskId) : List (List ObjectId) := tasks.filterMap fun t => (L.progress t).outputs

/-- What an item of a reduction level came to. -/
def itemResult : ReductionItem → Option ObjectId
  | .carry o => some o
  | .task t => match L.progress t with
    | .completed [o] => some o
    | _ => none

/-- What a level came to, once all its tasks are complete: the inputs of the next. -/
def nextInputs (items : List ReductionItem) : Option (List ObjectId) := items.mapM L.itemResult

end Ledger

/-! ## Starting roles -/

/-- A role of a job: its name, its dependencies, and the templates its tasks are made from. -/
inductive RoleOf : JobDefinition F → String → List String → List (TaskTemplate F) → Prop
  | cooperative {spec : CooperativeJobSpec F} {role : CooperativeRoleSpec F} : role ∈ spec.roles →
      RoleOf (.cooperative spec) role.name role.dependsOn [role.task]
  | logical {spec : LogicalJobSpec F} {role : LogicalRoleSpec F} : role ∈ spec.roles →
      RoleOf (.logical spec) role.name role.dependsOn (role.implementations.map (·.task))

/-- The object that a stage input of a task refers to. -/
def externalInput (spec : TaskSpec F) : PipelineInput → Option ObjectId
  | .external i => spec.inputs[i]?
  | .previousOutput => none

/-- The inputs of a task; for a pipeline, those of its first stage. -/
def firstInputs (spec : TaskSpec F) : Option (List ObjectId) :=
  match spec.pipeline with
  | none => some spec.inputs
  | some pipeline => pipeline.stages.head?.bind fun stage => stage.inputs.mapM (externalInput spec)

/-- What a task runs (artifact, entrypoint and arguments); for a pipeline, its first stage. -/
def firstProgram (spec : TaskSpec F) : Option (String × String × List String) :=
  match spec.pipeline with
  | none => some (spec.artifact, spec.entrypoint, spec.arguments)
  | some pipeline => pipeline.stages.head?.map fun stage => (stage.artifact, stage.entrypoint, stage.arguments)

/-- The task, or its first stage, runs the template on the template's inputs followed by these. -/
structure RunsFirst (spec : TaskSpec F) (template : TaskTemplate F) (inputs : List ObjectId) : Prop where
  program : firstProgram spec = some (template.artifact, template.entrypoint, template.arguments)
  inputs : firstInputs spec = some (template.inputs ++ inputs)

def NotStarted (status : Option CooperativeRoleStatus) : Prop := status = some .waiting ∨ status = some .ready

/-- The first of these roles can be started with these tasks, and the others with it. -/
structure Launch (L : Ledger F) (j : JobId) (definition : JobDefinition F) (first : String) (rest : List String)
    (specs : List (TaskSpec F)) : Prop where
  job : L.definition j = some definition
  notStarted : ∀ r ∈ first :: rest, NotStarted (L.role j r)
  new : ∀ spec ∈ specs, L.spec spec.id = none
  nodup : (specs.map (·.id)).Nodup
  reads : ∃ dependencies templates inputs, RoleOf definition first dependencies templates ∧
    gather (L.role j) dependencies = some inputs ∧
    ∀ spec ∈ specs, ∃ template ∈ templates, RunsFirst spec template inputs

variable [F64 F]

/-- The job fuses these roles: each is the only consumer of the one before it and reads nothing else. -/
def ChainIn (definition : JobDefinition F) (names : List String) : Prop :=
  ∃ (spec : LogicalJobSpec F) (chain : List (LogicalRoleSpec F)), definition = .logical spec ∧
    names = chain.map (·.name) ∧ chain.IsChain (Follows spec) ∧ ∀ role ∈ chain, role ∈ spec.roles

/-- An item of a level stands for a group of consecutive inputs. -/
def ItemFor (specs : List (TaskSpec F)) (group : List ObjectId) : ReductionItem → Prop
  | .carry o => group = [o]
  | .task t => ∃ spec ∈ specs, spec.id = t ∧ spec.inputs = group

/-! ## Steps -/

inductive Step (strict : Prop) : Ledger F → Ledger F → Prop
  /-- A client submits a task. -/
  | submit {L : Ledger F} (spec : TaskSpec F) : L.spec spec.id = none → Step strict L (L.add spec)
  /-- An Exclusive task loses its lease. -/
  | lose {L : Ledger F} {t : TaskId} {spec : TaskSpec F} : L.spec t = some spec →
      spec.effects.automaticallyRetryable = false → L.progress t = .working →
      Step strict L ((L.setProgress t .uncertain).mark t)
  | accept {L : Ledger F} {j : JobId} {definition : JobDefinition F} : L.definition j = none → definition.Accepted →
      Step strict L (L.accept j definition)
  /-- The dependencies of a role are complete, but it cannot be placed. -/
  | ready {L : Ledger F} {j : JobId} {r : String} : NotStarted (L.role j r) → Step strict L (L.setRole j r .ready)
  | single {L : Ledger F} {j : JobId} {definition : JobDefinition F} {r : String} {spec : TaskSpec F}
      {planned : TaskId → Prop} : Launch L j definition r [] [spec] → (∀ t, planned t → L.planned t) →
      Step strict L (((L.addAll [spec] (.single j r)).setRole j r (.submitted spec.id)).setPlanned planned)
  | fused {L : Ledger F} {j : JobId} {definition : JobDefinition F} {first : String} {rest : List String}
      {spec : TaskSpec F} {planned : TaskId → Prop} : Launch L j definition first rest [spec] → rest ≠ [] →
      ChainIn definition (first :: rest) → (first :: rest).Nodup → spec.effects = .pure →
      (∀ t, planned t → L.planned t) →
      Step strict L (((L.addAll [spec] (.fusedChain j (first :: rest))).setRoles j (first :: rest) fun _ =>
        .submitted spec.id).setPlanned planned)
  | sharded {L : Ledger F} {j : JobId} {definition : JobDefinition F} {r : String} {specs : List (TaskSpec F)}
      {planned : TaskId → Prop} : Launch L j definition r [] specs → specs ≠ [] →
      (∀ (i : Nat) (spec : TaskSpec F), specs[i]? = some spec → IsShard spec i specs.length) →
      (∀ t, planned t → L.planned t ∨ t ∈ specs.map (·.id)) →
      Step strict L (((L.addAll specs (.shard j r)).setRole j r (.sharded (specs.map (·.id)) 0)).setPlanned planned)
  /-- A level of a reduction is placed. -/
  | level {L : Ledger F} {j : JobId} {r : String} {active : ActiveReduction} {specs : List (TaskSpec F)}
      {items : List ReductionItem} {groups : List (List ObjectId)} : L.reduction j r = some active →
      active.items = [] → (∀ spec ∈ specs, L.spec spec.id = none) → (specs.map (·.id)).Nodup →
      (∀ spec ∈ specs, spec.effects = .pure) → Fabric.itemTasks items = specs.map (·.id) →
      groups.flatten = active.inputs → List.Forall₂ (ItemFor specs) groups items → specs ≠ [] →
      Step strict L (((L.addAll specs (.reduction j r)).setReduction j r (some { active with items := items })).setRole
        j r (.reducing (specs.map (·.id)) 0 active.level))
  /-- A reduction is down to one object. -/
  | reduced {L : Ledger F} {j : JobId} {r : String} {active : ActiveReduction} : L.reduction j r = some active →
      active.items = [] → active.inputs.length ≤ 1 →
      Step strict L ((L.setReduction j r none).setRole j r (.completed active.inputs))
  /-- A task completes and no role changes: it works for none, its role is uncertain, or its outputs were refused. -/
  | finish {L : Ledger F} {t : TaskId} {spec : TaskSpec F} {outputs : List ObjectId} : L.spec t = some spec →
      L.progress t = .working →
      (∀ j r, L.binding t = some (.reduction j r) → outputs.length = 1) →
      (L.binding t = none ∨ (∃ j r, L.binding t = some (.shard j r) ∧ L.role j r = some .uncertain) ∨ ¬strict) →
      Step strict L (L.setProgress t (.completed outputs))
  /-- The task of a role or of a chain of roles completes. -/
  | conclude {L : Ledger F} {t : TaskId} {j : JobId} {front : List String} {last : String} {outputs : List ObjectId} :
      (L.binding t = some (.single j last) ∧ front = [] ∨ L.binding t = some (.fusedChain j (front ++ [last]))) →
      L.progress t = .working →
      Step strict L ((L.setProgress t (.completed outputs)).setRoles j (front ++ [last]) fun r =>
        if r = last then .completed outputs else .completed [])
  | shardWaits {L L' : Ledger F} {t : TaskId} {j : JobId} {r : String} {tasks : List TaskId} {n : Nat}
      {outputs : List ObjectId} : L.binding t = some (.shard j r) → L.progress t = .working →
      L.role j r = some (.sharded tasks n) → L' = L.setProgress t (.completed outputs) →
      (L'.doneOutputs tasks).length ≠ tasks.length →
      Step strict L (L'.setRole j r (.sharded tasks (L'.doneOutputs tasks).length))
  | shardsComplete {L L' : Ledger F} {t : TaskId} {j : JobId} {r : String} {tasks : List TaskId} {n : Nat}
      {outputs : List ObjectId} {definition : JobDefinition F} : L.binding t = some (.shard j r) →
      L.progress t = .working → L.role j r = some (.sharded tasks n) → L' = L.setProgress t (.completed outputs) →
      (L'.doneOutputs tasks).length = tasks.length → L.definition j = some definition →
      (logicalRoleReduction definition r = none ∨ (L'.doneOutputs tasks).flatten.length ≤ 1) →
      Step strict L (L'.setRole j r (.completed (L'.doneOutputs tasks).flatten))
  | shardsReduce {L L' : Ledger F} {t : TaskId} {j : JobId} {r : String} {tasks : List TaskId} {n : Nat}
      {outputs : List ObjectId} {definition : JobDefinition F} : L.binding t = some (.shard j r) →
      L.progress t = .working → L.role j r = some (.sharded tasks n) → L' = L.setProgress t (.completed outputs) →
      (L'.doneOutputs tasks).length = tasks.length → L.definition j = some definition →
      (logicalRoleReduction definition r).isSome = true → 1 < (L'.doneOutputs tasks).flatten.length →
      Step strict L ((L'.setReduction j r (some ⟨0, (L'.doneOutputs tasks).flatten, []⟩)).setRole j r
        (.reducing [] 0 0))
  | reducerWaits {L L' : Ledger F} {t : TaskId} {j : JobId} {r : String} {active : ActiveReduction} {o : ObjectId} :
      L.binding t = some (.reduction j r) → L.progress t = .working → L.reduction j r = some active →
      L' = L.setProgress t (.completed [o]) → L'.nextInputs active.items = none →
      Step strict L (L'.setRole j r (.reducing (Fabric.itemTasks active.items)
        (L'.doneOutputs (Fabric.itemTasks active.items)).length active.level))
  | levelComplete {L L' : Ledger F} {t : TaskId} {j : JobId} {r : String} {active : ActiveReduction} {o : ObjectId}
      {inputs : List ObjectId} : L.binding t = some (.reduction j r) → L.progress t = .working →
      L.reduction j r = some active → L' = L.setProgress t (.completed [o]) →
      L'.nextInputs active.items = some inputs →
      Step strict L ((L'.setReduction j r (some ⟨active.level + 1, inputs, []⟩)).setRole j r
        (.reducing [] 0 (active.level + 1)))

/-- Any number of steps. -/
abbrev Steps (strict : Prop) : Ledger F → Ledger F → Prop := Relation.ReflTransGen (Step strict)

end Plurifold
