import Plurifold.Agent.Pipeline
import Plurifold.Fabric.Accepted

/-!
# Accepted pipelines find their inputs

The Fabric decides whether a pipeline task is accepted (`validateTask`), an agent executes it (`executePipeline`). In an
accepted pipeline every stage is a builtin and every input of a stage is bound, so an execution fails only where a
builtin fails on its bound inputs (`BuiltinRun`, `accepted_pipeline_runs`).
-/

namespace Plurifold

open Lib

variable {F : Type} {task : TaskSpec F} {pipeline : TaskPipeline} {inputs : List Bytes} {shard : Option TaskShard}
  {previous : Option Bytes} {stages : List TaskPipelineStage} {result result' : Execution}

/-- A stage input is bound to an input of the task or to the output of the stage before. -/
inductive Bound (inputs : List Bytes) (previous : Option Bytes) : PipelineInput → Bytes → Prop
  | external {index : Nat} {bytes : Bytes} : inputs[index]? = some bytes → Bound inputs previous (.external index) bytes
  | previousOutput {bytes : Bytes} : previous = some bytes → Bound inputs previous .previousOutput bytes

/-- A stage runs its builtin on the bytes that its inputs are bound to. -/
structure StageRun (inputs : List Bytes) (shard : Option TaskShard) (previous : Option Bytes)
    (stage : TaskPipelineStage) (result : Execution) : Prop where
  builtin : stage.artifact.startsWith "builtin:" = true
  bound : ∃ stageInputs, List.Forall₂ (Bound inputs previous) stage.inputs stageInputs ∧
    executeBuiltinOperation stage.artifact stage.arguments stageInputs shard = result

/-- The stages run one after the other: the run fails as its first failing stage does, and otherwise ends with the
output of the last stage. -/
inductive BuiltinRun (inputs : List Bytes) (shard : Option TaskShard) :
    Option Bytes → List TaskPipelineStage → Execution → Prop
  | fails {previous : Option Bytes} {stage : TaskPipelineStage} {rest : List TaskPipelineStage} {err : ExecError} :
      StageRun inputs shard previous stage (.error err) →
      BuiltinRun inputs shard previous (stage :: rest) (.error err)
  | last {previous : Option Bytes} {stage : TaskPipelineStage} {output : Bytes} :
      StageRun inputs shard previous stage (.ok output) → BuiltinRun inputs shard previous [stage] (.ok output)
  | next {previous : Option Bytes} {stage second : TaskPipelineStage} {rest : List TaskPipelineStage} {output : Bytes}
      {result : Execution} : StageRun inputs shard previous stage (.ok output) →
      BuiltinRun inputs shard (some output) (second :: rest) result →
      BuiltinRun inputs shard previous (stage :: second :: rest) result

/-! ## A run has one result -/

theorem Bound.unique {binding : PipelineInput} {bytes bytes' : Bytes} (h : Bound inputs previous binding bytes)
    (h' : Bound inputs previous binding bytes') : bytes = bytes' := by
  cases h with
  | external h =>
    cases h' with
    | external h' => exact Option.some.inj (h.symm.trans h')
  | previousOutput h =>
    cases h' with
    | previousOutput h' => exact Option.some.inj (h.symm.trans h')

theorem StageRun.unique {stage : TaskPipelineStage} (h : StageRun inputs shard previous stage result)
    (h' : StageRun inputs shard previous stage result') : result = result' := by
  obtain ⟨stageInputs, hbound, rfl⟩ := h.bound
  obtain ⟨stageInputs', hbound', rfl⟩ := h'.bound
  have hunique : Relator.RightUnique (Bound inputs previous) := fun _ _ _ => Bound.unique
  rw [hunique.forall₂ hbound hbound']

theorem BuiltinRun.unique (h : BuiltinRun inputs shard previous stages result)
    (h' : BuiltinRun inputs shard previous stages result') : result = result' := by
  induction h with
  | fails hstage =>
    cases h' with
    | fails hstage' => exact hstage.unique hstage'
    | last hstage' => exact hstage.unique hstage'
    | next hstage' _ => cases hstage.unique hstage'
  | last hstage =>
    cases h' with
    | fails hstage' => exact hstage.unique hstage'
    | last hstage' => exact hstage.unique hstage'
  | next hstage _ ih =>
    cases h' with
    | fails hstage' => cases hstage.unique hstage'
    | next hstage' hrest' =>
      cases hstage.unique hstage'
      exact ih hrest'

/-! ## Accepted stages -/

/-- The inputs of a stage are all bound if its external indexes are in range and it reads no missing output. -/
theorem bound_of_inRange {bindings : List PipelineInput} (stageIndex : Nat)
    (hexternal : ∀ i, PipelineInput.external i ∈ bindings → i < inputs.length)
    (hprevious : PipelineInput.previousOutput ∈ bindings → previous.isSome = true) :
    ∃ stageInputs, bindings.mapM (stageInput inputs stageIndex previous) = .ok stageInputs ∧
      List.Forall₂ (Bound inputs previous) bindings stageInputs := by
  induction bindings with
  | nil => exact ⟨[], rfl, .nil⟩
  | cons binding bindings ih =>
    obtain ⟨rest, hrest, hbound⟩ := ih (fun i hi => hexternal i (List.mem_cons_of_mem _ hi))
      fun hmem => hprevious (List.mem_cons_of_mem _ hmem)
    obtain ⟨bytes, hread, hfirst⟩ : ∃ bytes, stageInput inputs stageIndex previous binding = .ok bytes ∧
        Bound inputs previous binding bytes := by
      cases binding with
      | external i =>
        have hi := List.getElem?_eq_getElem (hexternal i (List.mem_cons_self ..))
        exact ⟨_, by rw [stageInput, hi]; rfl, .external hi⟩
      | previousOutput =>
        obtain ⟨bytes, hbytes⟩ := Option.isSome_iff_exists.mp (hprevious (List.mem_cons_self ..))
        exact ⟨bytes, by rw [stageInput, hbytes]; rfl, .previousOutput hbytes⟩
    refine ⟨bytes :: rest, ?_, .cons hfirst hbound⟩
    rw [mapM_ok_iff] at hrest ⊢
    exact .cons hread hrest

/-- What an agent does with accepted stages, from `stageIndex` on, is a run of their builtins. -/
theorem runStages_builtin (executor : Executor) (inputs : List Bytes) (shard : Option TaskShard) {stageIndex : Nat}
    (hstages : ∀ entry ∈ stages.zipIdx stageIndex, validateStage inputs.length entry.2 entry.1 = .ok ())
    (hsome : stages ≠ []) (hprevious : stageIndex ≠ 0 → previous.isSome = true) :
    BuiltinRun inputs shard previous stages ((runStages executor inputs shard stageIndex previous stages).bind
      fun previous => orText previous "task pipeline produced no output") := by
  induction stages generalizing stageIndex previous with
  | nil => exact absurd rfl hsome
  | cons stage rest ih =>
    rw [List.zipIdx_cons, List.forall_mem_cons] at hstages
    obtain ⟨hbuiltin, -, hcount, hexternal⟩ := validateStage_ok_iff.mp hstages.1
    -- only a stage after the first binds the output of the one before
    have hread : PipelineInput.previousOutput ∈ stage.inputs → previous.isSome = true := by
      intro hmem
      refine hprevious fun hfirst => ?_
      rw [if_pos hfirst] at hcount
      exact List.count_eq_zero.mp hcount hmem
    obtain ⟨stageInputs, hinputs, hbound⟩ := bound_of_inRange stageIndex hexternal hread
    rw [runStages_cons executor hbuiltin hinputs]
    cases hrun : executeBuiltinOperation stage.artifact stage.arguments stageInputs shard with
    | error err => exact .fails ⟨hbuiltin, stageInputs, hbound, hrun⟩
    | ok output =>
      have hstage : StageRun inputs shard previous stage (.ok output) := ⟨hbuiltin, stageInputs, hbound, hrun⟩
      cases rest with
      | nil => exact .last hstage
      | cons second rest =>
        exact .next hstage (ih hstages.2 (List.cons_ne_nil _ _) fun _ => rfl)

theorem validatePipeline_ok (h : validateTask task = .ok ()) (hpipeline : task.pipeline = some pipeline) :
    2 ≤ pipeline.stages.length ∧
      ∀ entry ∈ pipeline.stages.zipIdx, validateStage task.inputs.length entry.2 entry.1 = .ok () := by
  have hvalid := (bind_ok_unit h).2
  rw [validatePipeline, hpipeline] at hvalid
  dsimp only at hvalid
  split at hvalid
  · cases hvalid
  split at hvalid
  · cases hvalid
  split at hvalid
  · cases hvalid
  · exact ⟨by omega, forM_ok_iff.mp hvalid⟩

/-- **Accepted pipelines execute their bindings.** A pipeline that `validate_task` accepts has two stages or more, all of
them builtins with external inputs in range and none that reads a missing output. On as many inputs as the task has, an
agent runs these builtins, each on its bound inputs, and nothing else: the other executors play no part in the result,
which is the output of the last stage or the error of a builtin. -/
theorem accepted_pipeline_runs (h : validateTask task = .ok ()) (hpipeline : task.pipeline = some pipeline)
    (hinputs : inputs.length = task.inputs.length) (executor : Executor) :
    2 ≤ pipeline.stages.length ∧
    (∀ stage ∈ pipeline.stages, stage.artifact.startsWith "builtin:" = true ∧
      ∀ index, PipelineInput.external index ∈ stage.inputs → index < inputs.length) ∧
    (∀ stage, pipeline.stages.head? = some stage → PipelineInput.previousOutput ∉ stage.inputs) ∧
    BuiltinRun inputs task.shard none pipeline.stages (executeTaskWithPolicy executor task inputs) ∧
    ∀ executor', executeTaskWithPolicy executor' task inputs = executeTaskWithPolicy executor task inputs := by
  obtain ⟨htwo, hstages⟩ := validatePipeline_ok h hpipeline
  rw [← hinputs] at hstages
  have hrun : ∀ executor, BuiltinRun inputs task.shard none pipeline.stages
      (executeTaskWithPolicy executor task inputs) := by
    intro executor
    rw [executeTaskWithPolicy, hpipeline]
    change BuiltinRun inputs task.shard none pipeline.stages (executePipeline executor ⟨pipeline.stages⟩ inputs task.shard)
    rw [executePipeline_of_two executor htwo]
    refine runStages_builtin executor inputs task.shard hstages (fun hnil => ?_) fun hne => absurd rfl hne
    rw [hnil] at htwo
    cases htwo
  refine ⟨htwo, fun stage hstage => ?_, fun stage hfirst hmem => ?_, hrun executor,
    fun executor' => (hrun executor').unique (hrun executor)⟩
  · obtain ⟨i, hentry⟩ := exists_mem_zipIdx hstage
    obtain ⟨hbuiltin, -, -, hexternal⟩ := validateStage_ok_iff.mp (hstages _ hentry)
    exact ⟨hbuiltin, hexternal⟩
  · obtain ⟨rest, hlist⟩ := List.head?_eq_some_iff.mp hfirst
    rw [hlist] at hstages
    obtain ⟨-, -, hcount, -⟩ := validateStage_ok_iff.mp (hstages (stage, 0) (by simp))
    exact List.count_eq_zero.mp hcount hmem

/-- A pipeline of two stages over one input, which the second stage reads twice around the output of the first. -/
def wrapPipeline : TaskSpec ℚ where
  id := ⟨1⟩
  artifact := "plurifold:pipeline"
  entrypoint := "run"
  arguments := []
  inputs := [⟨1⟩]
  requirements := {}
  effects := .pure
  cost := ⟨1, 0⟩
  pipeline := some ⟨[⟨"builtin:identity", "run", [], [.external 0]⟩,
    ⟨"builtin:concat", "run", [], [.external 0, .previousOutput, .external 0]⟩]⟩
  shard := none

theorem accepted_pipeline_runs_wrap : ∃ pipeline, wrapPipeline.pipeline = some pipeline ∧
    BuiltinRun [[7]] none none pipeline.stages (executeTaskWithPolicy (fun _ _ _ _ _ => .ok []) wrapPipeline [[7]]) :=
  ⟨_, rfl, (accepted_pipeline_runs (by decide +kernel : validateTask wrapPipeline = .ok ()) rfl rfl _).2.2.2.1⟩

end Plurifold
