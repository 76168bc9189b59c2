import Plurifold.Agent.Builtin
import Plurifold.Planner.Fusion
import Plurifold.Lib.List

/-!
# Executing tasks and fused pipelines (`plurifold-agent`)

A pipeline task runs its stages one after the other in one agent. Its external inputs are the distinct objects that all
its stages read; every stage finds its own among them by index. Running the roles of the chain as separate tasks
instead publishes an object after every stage, which the next task reads (`runSeparately`). Both give the same bytes
and fail alike (`fusion_preserves_results`).
-/

namespace Plurifold

open Lib

variable {F : Type}

/-- How artifacts other than builtins are executed. -/
abbrev Executor := (artifact entrypoint : String) → List String → List Bytes → Option TaskShard → Execution

section Execute

variable (executor : Executor)

def executeOperation (artifact entrypoint : String) (arguments : List String) (inputs : List Bytes)
    (shard : Option TaskShard) : Execution :=
  if artifact.startsWith "builtin:" then executeBuiltinOperation artifact arguments inputs shard
  else executor artifact entrypoint arguments inputs shard

/-- The bytes a stage input is bound to. -/
def stageInput (inputs : List Bytes) (stageIndex : Nat) (previous : Option Bytes) : PipelineInput → Execution
  | .external index => orText inputs[index]? s!"pipeline input index {index} is out of range"
  | .previousOutput => orText previous s!"pipeline stage {stageIndex} references a missing previous output"

/-- The loop of `execute_pipeline`. -/
def runStages (inputs : List Bytes) (shard : Option TaskShard) :
    Nat → Option Bytes → List TaskPipelineStage → Except ExecError (Option Bytes)
  | _, previous, [] => .ok previous
  | stageIndex, previous, stage :: rest => do
    let stageInputs ← stage.inputs.mapM (stageInput inputs stageIndex previous)
    let output ← executeOperation executor stage.artifact stage.entrypoint stage.arguments stageInputs shard
    runStages inputs shard (stageIndex + 1) (some output) rest

def executePipeline (pipeline : TaskPipeline) (inputs : List Bytes) (shard : Option TaskShard) : Execution :=
  if pipeline.stages.length < 2 then .error (.text "task pipeline requires at least two stages")
  else do
    let previous ← runStages executor inputs shard 0 none pipeline.stages
    orText previous "task pipeline produced no output"

def executeTaskWithPolicy (task : TaskSpec F) (inputs : List Bytes) : Execution :=
  match task.pipeline with
  | some pipeline => executePipeline executor pipeline inputs task.shard
  | none => executeOperation executor task.artifact task.entrypoint task.arguments inputs task.shard

/-- A chain of templates run as separate tasks: each publishes its output as a new object, the last input of the next
one. -/
def runSeparately : Env → (ObjectId → Bytes) → TaskTemplate F → List ObjectId → List (TaskTemplate F) → Execution
  | e, bytes, template, dependencyInputs, [] =>
    let task := template.instantiate (e.sub 0) dependencyInputs
    executeTaskWithPolicy executor task (task.inputs.map bytes)
  | e, bytes, template, dependencyInputs, next :: rest => do
    let task := template.instantiate (e.sub 0) dependencyInputs
    let output ← executeTaskWithPolicy executor task (task.inputs.map bytes)
    let object := ObjectId.new (e.sub 1)
    runSeparately (e.sub 2) (Function.update bytes object output) next [object] rest

end Execute

/-- The bindings of a list of objects read these objects, whatever is bound after them. -/
theorem mapM_external (bytes : ObjectId → Bytes) (stageIndex : Nat) (previous : Option Bytes) {all : List ObjectId} :
    ∀ {indexes : List Nat} {ids : List ObjectId}, List.Forall₂ (fun i o => all[i]? = some o) indexes ids →
      (indexes.map PipelineInput.external).mapM (stageInput (all.map bytes) stageIndex previous) = .ok (ids.map bytes)
  | _, _, .nil => rfl
  | _, _, @List.Forall₂.cons _ _ _ i o indexes ids hi hrest => by
    have hfirst : stageInput (all.map bytes) stageIndex previous (.external i) = .ok (bytes o) := by
      rw [stageInput, List.getElem?_map, hi]
      rfl
    simp only [List.map_cons, List.mapM_cons, hfirst, mapM_external bytes stageIndex previous hrest]
    rfl

/-! ## Fused and separate runs -/

section Fusion

variable (executor executor' : Executor) {e : Env} {template next : TaskTemplate F}

/-- A builtin does not depend on the executor. -/
theorem executeOperation_builtin {artifact : String} (h : artifact.startsWith "builtin:" = true) (entrypoint : String)
    (arguments : List String) (inputs : List Bytes) (shard : Option TaskShard) :
    executeOperation executor artifact entrypoint arguments inputs shard =
      executeBuiltinOperation artifact arguments inputs shard := by
  rw [executeOperation, if_pos h]

theorem executePipeline_of_two {stages : List TaskPipelineStage} (h : 2 ≤ stages.length) (inputs : List Bytes)
    (shard : Option TaskShard) :
    executePipeline executor ⟨stages⟩ inputs shard = (runStages executor inputs shard 0 none stages).bind fun previous =>
      orText previous "task pipeline produced no output" := by
  rw [executePipeline, if_neg (Nat.not_lt.mpr h)]
  rfl

/-- A separate task runs its template on the template's inputs followed by its dependency inputs. -/
theorem executeTask_instantiate (h : template.artifact.startsWith "builtin:" = true) (dependencyInputs : List ObjectId)
    (bytes : ObjectId → Bytes) :
    executeTaskWithPolicy executor (template.instantiate e dependencyInputs)
        ((template.instantiate e dependencyInputs).inputs.map bytes) =
      executeBuiltinOperation template.artifact template.arguments
        (template.inputs.map bytes ++ dependencyInputs.map bytes) none := by
  rw [executeTaskWithPolicy]
  simp only [TaskTemplate.instantiate, List.map_append]
  exact executeOperation_builtin executor h _ _ _ _

/-- A stage whose inputs are all bound runs its builtin on them. -/
theorem runStages_cons {stage : TaskPipelineStage} (h : stage.artifact.startsWith "builtin:" = true)
    {inputs stageInputs : List Bytes} {stageIndex : Nat} {previous : Option Bytes}
    (hread : stage.inputs.mapM (stageInput inputs stageIndex previous) = .ok stageInputs) (shard : Option TaskShard)
    (stages : List TaskPipelineStage) :
    runStages executor inputs shard stageIndex previous (stage :: stages) =
      (executeBuiltinOperation stage.artifact stage.arguments stageInputs shard).bind fun next =>
        runStages executor inputs shard (stageIndex + 1) (some next) stages := by
  rw [runStages, hread]
  simp only [executeOperation_builtin executor h]
  rfl

/-- The inputs of a later stage: the template's own, then the output of the stage before. -/
theorem mapM_previousOutput {bindings : List PipelineInput} {inputs own : List Bytes} {stageIndex : Nat} {output : Bytes}
    (hread : bindings.mapM (stageInput inputs stageIndex (some output)) = .ok own) :
    (bindings ++ [PipelineInput.previousOutput]).mapM (stageInput inputs stageIndex (some output)) =
      .ok (own ++ [output]) := by
  rw [List.mapM_append, hread]
  rfl

/-- The later stages of a pipeline, after a stage with output `output`, do what the rest of the separate run does when
the object it starts from holds `output`. -/
theorem runStages_laterStages (bytes : ObjectId → Bytes) : ∀ (rest : List (TaskTemplate F)) (e : Env)
    (template : TaskTemplate F) (object : ObjectId) (output : Bytes) (bytes' : ObjectId → Bytes) (stageIndex : Nat)
    (external : ExternalInputs), external.Indexed →
    (∀ task ∈ template :: rest, task.artifact.startsWith "builtin:" = true) →
    (∀ task ∈ template :: rest, ∀ o ∈ task.inputs, ¬e.Mints o.uuid ∧ bytes' o = bytes o) →
    bytes' object = output →
    external.1 <+: (laterStages (template :: rest) external).2.1 ∧
    ∀ all, (laterStages (template :: rest) external).2.1 <+: all →
      ((runStages executor (all.map bytes) none stageIndex (some output)
          (laterStages (template :: rest) external).1).bind fun previous =>
        orText previous "task pipeline produced no output") =
        runSeparately executor' e bytes' template [object] rest
  | rest, e, template, object, output, bytes', stageIndex, external, hindexed, hbuiltin, hfresh, hout => by
    obtain ⟨hinit, hindexed', indexes, hbindings, hat⟩ := pipelineExternalBindings_spec template.inputs external hindexed
    have hread : ∀ all, (pipelineExternalBindings template.inputs external).2.1 <+: all →
        (pipelineExternalBindings template.inputs external).1.mapM
          (stageInput (all.map bytes) stageIndex (some output)) = .ok (template.inputs.map bytes) := fun all hall => by
      rw [hbindings]
      exact mapM_external bytes stageIndex _ (hat.imp fun _ _ h => getElem?_of_isPrefix hall h)
    have hown : template.inputs.map bytes' = template.inputs.map bytes :=
      List.map_congr_left fun o ho => (hfresh template (List.mem_cons_self ..) o ho).2
    have hbt : template.artifact.startsWith "builtin:" = true := hbuiltin template (List.mem_cons_self ..)
    have htask := executeTask_instantiate executor' (e := e.sub 0) hbt [object] bytes'
    rw [hown, List.map_singleton, hout] at htask
    cases rest with
    | nil =>
      refine ⟨hinit, fun all hall => ?_⟩
      rw [laterStages, runStages_cons executor hbt (mapM_previousOutput (hread all hall)), runSeparately, htask]
      cases executeBuiltinOperation template.artifact template.arguments (template.inputs.map bytes ++ [output]) none with
      | error err => rfl
      | ok next => rfl
    | cons next rest =>
      -- the next object is new, so no template reads it by accident
      have hfresh' : ∀ out, ∀ task ∈ next :: rest, ∀ o ∈ task.inputs, ¬(e.sub 2).Mints o.uuid ∧
          Function.update bytes' (ObjectId.new (e.sub 1)) out o = bytes o := by
        intro out task htask o ho
        obtain ⟨hmints, hsame⟩ := hfresh task (List.mem_cons_of_mem _ htask) o ho
        refine ⟨fun hm => hmints hm.of_sub, ?_⟩
        have hne : o ≠ ObjectId.new (e.sub 1) := by
          rintro rfl
          exact hmints (Env.mints_newUuid (e.sub 1)).of_sub
        rw [Function.update_of_ne hne, hsame]
      have hrest : ∀ out, _ := fun out => runStages_laterStages bytes rest (e.sub 2) next (ObjectId.new (e.sub 1)) out
        (Function.update bytes' (ObjectId.new (e.sub 1)) out) (stageIndex + 1) _ hindexed'
        (fun task ht => hbuiltin task (List.mem_cons_of_mem _ ht)) (hfresh' out) (Function.update_self ..)
      refine ⟨hinit.trans (hrest []).1, fun all hall => ?_⟩
      rw [laterStages, runStages_cons executor hbt (mapM_previousOutput (hread all ((hrest []).1.trans hall))),
        runSeparately, htask]
      cases executeBuiltinOperation template.artifact template.arguments (template.inputs.map bytes ++ [output]) none with
      | error err => rfl
      | ok out => exact (hrest out).2 all hall

/-- **Fusion preserves results.** The pipeline task built from two or more builtin templates, run on its inputs, ends as
the templates run one after the other as separate tasks: with the same bytes, or with the same error. The output
objects of the separate run are new: no later template names one of them among its own inputs. -/
theorem fusion_preserves_results [F64 F] (e e' : Env) (first second : TaskTemplate F) (rest : List (TaskTemplate F))
    (dependencyInputs : List ObjectId) (requirements : ResourceRequirements) (bytes : ObjectId → Bytes)
    (hbuiltin : ∀ task ∈ first :: second :: rest, task.artifact.startsWith "builtin:" = true)
    (hfresh : ∀ task ∈ second :: rest, ∀ o ∈ task.inputs, ¬e'.Mints o.uuid) :
    ∃ task, fusedPipelineTask e (first :: second :: rest) dependencyInputs requirements = some task ∧
      executeTaskWithPolicy executor task (task.inputs.map bytes) =
        runSeparately executor' e' bytes first dependencyInputs (second :: rest) := by
  refine ⟨_, rfl, ?_⟩
  obtain ⟨-, hindexed', indexes, hbindings, hat⟩ :=
    pipelineExternalBindings_spec (first.inputs ++ dependencyInputs) ([], ∅) indexed_empty
  have hread : ∀ all, (pipelineExternalBindings (first.inputs ++ dependencyInputs) ([], ∅)).2.1 <+: all →
      (pipelineExternalBindings (first.inputs ++ dependencyInputs) ([], ∅)).1.mapM (stageInput (all.map bytes) 0 none) =
        .ok ((first.inputs ++ dependencyInputs).map bytes) := fun all hall => by
    rw [hbindings]
    exact mapM_external bytes 0 none (hat.imp fun _ _ h => getElem?_of_isPrefix hall h)
  have hbt : first.artifact.startsWith "builtin:" = true := hbuiltin first (List.mem_cons_self ..)
  have hfresh' : ∀ out, ∀ task ∈ second :: rest, ∀ o ∈ task.inputs, ¬(e'.sub 2).Mints o.uuid ∧
      Function.update bytes (ObjectId.new (e'.sub 1)) out o = bytes o := by
    intro out task htask o ho
    have hmints := hfresh task htask o ho
    refine ⟨fun hm => hmints hm.of_sub, Function.update_of_ne ?_ _ _⟩
    rintro rfl
    exact hmints (Env.mints_newUuid (e'.sub 1)).of_sub
  have hrest : ∀ out, _ := fun out => runStages_laterStages executor executor' bytes rest (e'.sub 2) second
    (ObjectId.new (e'.sub 1)) out (Function.update bytes (ObjectId.new (e'.sub 1)) out) 1 _ hindexed'
    (fun task ht => hbuiltin task (List.mem_cons_of_mem _ ht)) (hfresh' out) (Function.update_self ..)
  have hseparate := executeTask_instantiate executor' (e := e'.sub 0) hbt dependencyInputs bytes
  rw [← List.map_append] at hseparate
  rw [runSeparately, hseparate]
  show executePipeline executor ⟨⟨first.artifact, first.entrypoint, first.arguments,
      (pipelineExternalBindings (first.inputs ++ dependencyInputs) ([], ∅)).1⟩ ::
    (laterStages (second :: rest) (pipelineExternalBindings (first.inputs ++ dependencyInputs) ([], ∅)).2).1⟩
    ((laterStages (second :: rest) (pipelineExternalBindings (first.inputs ++ dependencyInputs) ([], ∅)).2).2.1.map
      bytes) none = _
  rw [executePipeline_of_two _ (by simp [laterStages]), runStages_cons executor hbt (hread _ (hrest []).1)]
  cases executeBuiltinOperation first.artifact first.arguments ((first.inputs ++ dependencyInputs).map bytes) none with
  | error err => rfl
  | ok out => exact (hrest out).2 _ List.prefix_rfl

end Fusion

/-- A builtin template that reads the given objects. -/
def sampleStage (artifact : String) (inputs : List ObjectId) : TaskTemplate ℚ where
  artifact := artifact
  entrypoint := "run"
  arguments := []
  inputs := inputs
  requirements := {}
  effects := .pure
  cost := ⟨1, 0⟩

/-- Two stages that read an object of the dependency, twice in the second stage. -/
theorem fusion_preserves_results_concat :
    ∃ task, fusedPipelineTask (Env.numbered fun _ => 0) [sampleStage "builtin:concat" [⟨1⟩, ⟨3⟩],
        sampleStage "builtin:concat" [⟨3⟩, ⟨5⟩, ⟨3⟩]] [⟨3⟩] {} = some task ∧
      executeTaskWithPolicy (fun _ _ _ _ _ => .ok []) task (task.inputs.map fun o => [UInt8.ofNat o.uuid]) =
        runSeparately (fun _ _ _ _ _ => .ok []) (Env.numbered fun _ => 0) (fun o => [UInt8.ofNat o.uuid])
          (sampleStage "builtin:concat" [⟨1⟩, ⟨3⟩]) [⟨3⟩] [sampleStage "builtin:concat" [⟨3⟩, ⟨5⟩, ⟨3⟩]] := by
  refine fusion_preserves_results _ _ _ _ _ _ [] _ _ _ (by decide +kernel) ?_
  intro task htask o ho
  obtain rfl := List.mem_singleton.mp htask
  have hodd : ∀ o ∈ (sampleStage "builtin:concat" [⟨3⟩, ⟨5⟩, ⟨3⟩]).inputs, o.uuid % 2 = 1 := by decide
  exact Env.not_mints_odd (hodd o ho)

end Plurifold
