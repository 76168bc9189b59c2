import Plurifold.Lib.Dataflow
import Plurifold.System.Invariant

/-!
# What a job means

The definition of a job, read as a plain dataflow program (`Means`): every role runs one of its templates on the template's
inputs followed by the outputs of its dependencies. A role that fans out runs once for each shard, and its reducer combines
the outputs of the shards in groups of neighbours. Nothing here knows of tasks, leases, pipelines, attempts or replicas;
`contents` says what is in the objects that templates name, and `executors` how agents run programs.

A pipeline does what its templates do one after the other (`Piped`), so the roles of a fused chain make their outputs one
after the other (`staged_of_piped`).
-/

namespace Plurifold

open Lib

variable {F : Type}

/-! ## Running a template -/

section Definitions

variable (contents : ObjectId → Bytes → Prop) (executors : Set Executor)

/-- The range of an input that is read for a shard, if not all of it. -/
def shardRange (shard : Option TaskShard) (inputIndex : Nat) : Option (UInt64 × UInt64) := do
  let shard ← shard
  let partition ← shard.partition
  partition.inputByteRange inputIndex

/-- What is read of objects for a shard. The first of them is input number `start`. -/
def ReadsOf (shard : Option TaskShard) (start : Nat) (objects : List ObjectId) (read : List Bytes) : Prop :=
  List.Forall₂ (fun entry bytes => ∃ b, contents entry.1 b ∧ ReadsAs b (shardRange shard entry.2) bytes)
    (objects.zipIdx start) read

/-- What a template gives on some agent, run on its own inputs followed by `inputs`. -/
structure Gives (template : TaskTemplate F) (shard : Option TaskShard) (inputs : List Bytes) (output : Bytes) : Prop where
  intro ::
  runs : ∃ own, ReadsOf contents shard 0 template.inputs own ∧ ∃ executor ∈ executors,
    executeOperation executor template.artifact template.entrypoint template.arguments (own ++ inputs) shard = .ok output

/-! ## Roles -/

/-- The shards of a role: as many as it says, or along the parts of the input that its policy partitions. -/
inductive CutInto (role : LogicalRoleSpec F) : List TaskShard → Prop
  | fixed {count : UInt32} : role.shards = .fixed count →
      CutInto role ((List.range count.toNat).map fun i => ⟨UInt32.ofNat i, count, none⟩)
  | auto {policy : AutoShardPolicy F} {o : ObjectId} {b : Bytes} {object : ObjectMetadata}
      {parts : List TaskShardPartition} : role.shards = .policy (.auto policy) →
      (∀ implementation ∈ role.implementations, implementation.task.inputs[policy.partition.input]? = some o) →
      contents o b → object.sizeBytes.toNat = b.length → OffsetsFit policy.partition object →
      AutoTiling policy.partition object parts → parts ≠ [] → parts.length ≤ policy.maxShards.toNat →
      CutInto role (parts.zipIdx.map fun entry => ⟨UInt32.ofNat entry.2, UInt32.ofNat parts.length, some entry.1⟩)

/-- What the outputs of the shards of a role come to: the reducer combines them, if there is one and anything to combine. -/
inductive JoinedTo (role : LogicalRoleSpec F) (outputs : List Bytes) : List Bytes → Prop
  | plain : role.reduction = none ∨ outputs.length ≤ 1 → JoinedTo role outputs outputs
  | reduced {reduction : RoleReductionSpec F} {output : Bytes} : role.reduction = some reduction → 1 < outputs.length →
      Combines (Gives contents executors reduction.task none) outputs [output] → JoinedTo role outputs [output]

/-- How a role makes its outputs of those of the roles it depends on. -/
inductive Makes (definition : JobDefinition F) : String → List String → List (List Bytes) → List Bytes → Prop
  | cooperative {job : CooperativeJobSpec F} {role : CooperativeRoleSpec F} {inputs : List (List Bytes)} {output : Bytes} :
      definition = .cooperative job → role ∈ job.roles → Gives contents executors role.task none inputs.flatten output →
      Makes definition role.name role.dependsOn inputs [output]
  | whole {job : LogicalJobSpec F} {role : LogicalRoleSpec F} {implementation : RoleImplementation F}
      {inputs : List (List Bytes)} {output : Bytes} : definition = .logical job → role ∈ job.roles →
      role.shards.mayFanOut = false → implementation ∈ role.implementations →
      Gives contents executors implementation.task none inputs.flatten output →
      Makes definition role.name role.dependsOn inputs [output]
  | shards {job : LogicalJobSpec F} {role : LogicalRoleSpec F} {shards : List TaskShard} {inputs : List (List Bytes)}
      {outputs result : List Bytes} : definition = .logical job → role ∈ job.roles → role.shards.mayFanOut = true →
      CutInto contents role shards → List.Forall₂ (fun shard output => ∃ implementation ∈ role.implementations,
        Gives contents executors implementation.task (some shard) inputs.flatten output) shards outputs →
      JoinedTo contents executors role outputs result → Makes definition role.name role.dependsOn inputs result

/-- The outputs that a role can come to. -/
def Means (definition : JobDefinition F) : String → List Bytes → Prop := Flow (Makes contents executors definition)

/-- Templates run one after the other, each on its own inputs followed by the output of the one before. -/
inductive Piped (executor : Executor) : List (TaskTemplate F) → Bytes → Bytes → Prop
  | nil {output : Bytes} : Piped executor [] output output
  | cons {template : TaskTemplate F} {rest : List (TaskTemplate F)} {own : List Bytes} {previous next output : Bytes} :
      List.Forall₂ contents template.inputs own →
      executeOperation executor template.artifact template.entrypoint template.arguments (own ++ [previous]) none =
        .ok next → Piped executor rest next output → Piped executor (template :: rest) previous output

/-- The outputs of the roles of a chain, from `previous` to `output`: each but the first makes its own of that of the role
before. -/
structure Staged (definition : JobDefinition F) (names : List String) (previous output : Bytes)
    (stages : List (String × Bytes)) : Prop where
  names : stages.map Prod.fst = names
  first : stages.head?.map Prod.snd = some previous
  last : stages.getLast?.map Prod.snd = some output
  makes : stages.IsChain fun before after =>
    Makes contents executors definition after.1 [before.1] [[before.2]] [after.2]

end Definitions

variable {contents : ObjectId → Bytes → Prop} {executors : Set Executor} {shard : Option TaskShard} {objects : List ObjectId}
  {read : List Bytes}

/-! ## Reading -/

theorem readsOf_append {start : Nat} {others : List ObjectId} (h : ReadsOf contents shard start (objects ++ others) read) :
    ∃ own rest, read = own ++ rest ∧ ReadsOf contents shard start objects own ∧
      ReadsOf contents shard (start + objects.length) others rest := by
  rw [ReadsOf, List.zipIdx_append] at h
  exact forall₂_append_left h

/-- Objects of which no range is read are read as they are. -/
theorem ReadsOf.whole {start : Nat} (h : ReadsOf contents shard start objects read)
    (hwhole : ∀ i, start ≤ i → shardRange shard i = none) : List.Forall₂ contents objects read := by
  induction objects generalizing start read with
  | nil =>
    cases h
    exact .nil
  | cons o objects ih =>
    cases h with
    | cons hfirst hrest =>
      obtain ⟨b, hb, hreads⟩ := hfirst
      rw [hwhole start (Nat.le_refl _)] at hreads
      have hall : b = _ := hreads.bytes.symm
      exact .cons (hall ▸ hb) (ih hrest fun i hi => hwhole i (Nat.le_of_succ_le hi))

theorem readsOf_whole {start : Nat} (h : List.Forall₂ contents objects read) : ReadsOf contents none start objects read := by
  induction h generalizing start with
  | nil => exact .nil
  | @cons o b _ _ hb _ ih => exact .cons ⟨b, hb, rfl, fun _ _ h => (by cases h)⟩ ih

/-! ## Pipelines -/

section Pipelines

variable {executor : Executor} {template : TaskTemplate F} {rest : List (TaskTemplate F)} {all : List ObjectId}
  {inputs : List Bytes} {stageIndex : Nat} {previous : Option Bytes}

/-- The external inputs of a stage are the contents of their objects. -/
theorem mapM_contents (stageIndex : Nat) (previous : Option Bytes) (hinputs : List.Forall₂ contents all inputs)
    {indexes : List Nat} {ids : List ObjectId} (h : List.Forall₂ (fun i o => all[i]? = some o) indexes ids) :
    ∃ own, (indexes.map PipelineInput.external).mapM (stageInput inputs stageIndex previous) = .ok own ∧
      List.Forall₂ contents ids own := by
  induction h with
  | nil => exact ⟨[], rfl, .nil⟩
  | @cons i o indexes ids hi _ ih =>
    obtain ⟨b, hb, hcontents⟩ := forall₂_getElem? hinputs hi
    obtain ⟨own, hown, hall⟩ := ih
    refine ⟨b :: own, ?_, .cons hcontents hall⟩
    have hfirst : stageInput inputs stageIndex previous (.external i) = .ok b := by
      rw [stageInput, hb]
      rfl
    simp only [List.map_cons, List.mapM_cons, hfirst, hown]
    rfl

theorem ok_of_bind {α β ε : Type} {x : Except ε α} {f : α → Except ε β} {b : β} (h : x.bind f = .ok b) :
    ∃ a, x = .ok a ∧ f a = .ok b := by
  cases x with
  | error error => cases h
  | ok a => exact ⟨a, rfl, h⟩

/-- One stage, if the stages come to an output. -/
theorem runStages_ok {stage : TaskPipelineStage} {stages : List TaskPipelineStage} {output : Option Bytes}
    (h : runStages executor inputs none stageIndex previous (stage :: stages) = .ok output) {own : List Bytes}
    (hown : stage.inputs.mapM (stageInput inputs stageIndex previous) = .ok own) :
    ∃ next, executeOperation executor stage.artifact stage.entrypoint stage.arguments own none = .ok next ∧
      runStages executor inputs none (stageIndex + 1) (some next) stages = .ok output := by
  rw [runStages, hown] at h
  exact ok_of_bind h

/-- The later stages of a pipeline do what their templates do one after the other. -/
theorem piped_of_laterStages : ∀ (rest : List (TaskTemplate F)) {external : ExternalInputs} {stageIndex : Nat}
    {previous : Bytes} {output : Option Bytes}, external.Indexed → (laterStages rest external).2.1 <+: all →
    List.Forall₂ contents all inputs →
    runStages executor inputs none stageIndex (some previous) (laterStages rest external).1 = .ok output →
    ∃ last, output = some last ∧ Piped contents executor rest previous last
  | [], _, _, previous, _, _, _, _, h => by
    cases h
    exact ⟨previous, rfl, .nil⟩
  | template :: rest, external, stageIndex, previous, output, hindexed, hall, hinputs, h => by
    obtain ⟨-, hindexed', indexes, hbindings, hat⟩ := pipelineExternalBindings_spec template.inputs external hindexed
    have hinit := (laterStages_spec rest _ hindexed').1
    obtain ⟨own, hown, hcontents⟩ := mapM_contents stageIndex (some previous) hinputs
      (hat.imp fun _ _ ho => getElem?_of_isPrefix (hinit.trans hall) ho)
    have hread : ((indexes.map PipelineInput.external) ++ [PipelineInput.previousOutput]).mapM
        (stageInput inputs stageIndex (some previous)) = .ok (own ++ [previous]) := mapM_previousOutput hown
    rw [laterStages] at h
    obtain ⟨next, hnext, hrest⟩ := runStages_ok h (by rw [hbindings]; exact hread)
    obtain ⟨last, rfl, hpiped⟩ := piped_of_laterStages rest hindexed' hall hinputs hrest
    exact ⟨last, rfl, .cons hcontents hnext hpiped⟩

/-- **A pipeline runs its templates one after the other**, the first on its inputs followed by those of the pipeline. -/
theorem piped_of_fused [F64 F] {e : Env} {first second : TaskTemplate F} {dependencyInputs : List ObjectId}
    {requirements : ResourceRequirements} {task : TaskSpec F}
    (hfused : fusedPipelineTask e (first :: second :: rest) dependencyInputs requirements = some task)
    (hinputs : List.Forall₂ contents task.inputs inputs) {output : Bytes}
    (h : executeTaskWithPolicy executor task inputs = .ok output) :
    ∃ own next, List.Forall₂ contents (first.inputs ++ dependencyInputs) own ∧
      executeOperation executor first.artifact first.entrypoint first.arguments own none = .ok next ∧
      Piped contents executor (second :: rest) next output := by
  obtain ⟨-, hindexed, indexes, hbindings, hat⟩ :=
    pipelineExternalBindings_spec (first.inputs ++ dependencyInputs) ([], ∅) indexed_empty
  have hinit := (laterStages_spec (second :: rest) _ hindexed).1
  cases hfused
  obtain ⟨own, hown, hcontents⟩ := mapM_contents 0 none hinputs
    (hat.imp fun _ _ ho => getElem?_of_isPrefix hinit ho)
  rw [← hbindings] at hown
  refine ⟨own, ?_⟩
  change executePipeline executor ⟨_ :: (laterStages (second :: rest) _).1⟩ inputs none = .ok output at h
  rw [executePipeline_of_two _ (by simp [laterStages])] at h
  obtain ⟨previous, hruns, hlast⟩ := ok_of_bind h
  obtain ⟨next, hnext, hrest⟩ := runStages_ok hruns hown
  obtain ⟨last, rfl, hpiped⟩ := piped_of_laterStages (second :: rest) hindexed List.prefix_rfl hinputs hrest
  cases hlast
  exact ⟨next, hcontents, hnext, hpiped⟩

/-! ## Chains -/

theorem mayFanOut_of_one {shards : ShardPolicy F} (h : shards.fixedCount = some 1) : shards.mayFanOut = false := by
  cases shards with
  | fixed count =>
    cases h
    rfl
  | policy policy => cases h

/-- **The roles of a chain make their outputs one after the other.** -/
theorem staged_of_piped {job : LogicalJobSpec F} (hexecutor : executor ∈ executors) : ∀ {chain : List (LogicalRoleSpec F)}
    {implementations : List (RoleImplementation F)} {role : LogicalRoleSpec F} {previous output : Bytes},
    (role :: chain).IsChain (Follows job) →
    List.Forall₂ (fun role implementation => implementation ∈ role.implementations) chain implementations →
    Piped contents executor (implementations.map (·.task)) previous output →
    ∃ stages, Staged contents executors (.logical job) ((role :: chain).map (·.name)) previous output stages
  | [], _, role, previous, _, _, .nil, hpiped => by
    cases hpiped
    exact ⟨[(role.name, previous)], rfl, rfl, rfl, .singleton _⟩
  | next :: chain, _, role, previous, output, hchain, .cons himplementation hrest, hpiped => by
    obtain ⟨hfollows, hchain'⟩ := List.isChain_cons_cons.mp hchain
    cases hpiped with
    | @cons _ _ own _ middle _ hown hrun hpiped =>
      obtain ⟨stages, hnames, hfirst, hlast, hmakes⟩ := staged_of_piped hexecutor hchain' hrest hpiped
      cases stages with
      | nil => cases hfirst
      | cons stage stages =>
        obtain ⟨name, given⟩ := stage
        obtain ⟨rfl, -⟩ := List.cons.inj hnames
        obtain rfl : given = middle := Option.some.inj hfirst
        refine ⟨(role.name, previous) :: (next.name, given) :: stages, ?_, rfl, ?_, .cons_cons ?_ hmakes⟩
        · exact congrArg (List.cons role.name) hnames
        · rwa [List.getLast?_cons_cons]
        · rw [← hfollows.depends]
          refine .whole rfl hfollows.mem (mayFanOut_of_one hfollows.unsharded) himplementation
            ⟨own, readsOf_whole hown, executor, hexecutor, hrun⟩

end Pipelines

end Plurifold
