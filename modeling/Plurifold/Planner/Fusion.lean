import Plurifold.Planner.Shards
import Plurifold.Lib.List

/-!
# Fusing a chain of roles into one pipeline task (`planner.rs`)

For a linear chain of roles, the cost of placing every role by itself is computed stage by stage over
(implementation, resource) states. A prefix of Pure builtin roles is fused when the best separate placement that uses
two resources pays for a transfer that the fusion advisor finds worth saving, and the fused prefix followed by the
separate rest is not dearer than the separate chain.
-/

namespace Plurifold

open Lib

variable {F : Type}

variable [F64 F]

structure ReadyFusionSelection (F : Type) where
  implementations : List String
  task : TaskSpec F
  resourceId : ResourceId
  cost : PlacementBreakdown F
  estimatedAvoidedTransferMs : F
  estimatedVsSeparateMs : F

structure SeparateChainState (F : Type) where
  implementationIndex : Nat
  resourceId : ResourceId
  outputBytes : UInt64
  totalMs : F
  crossTransferMs : F
  hasCrossResourceEdge : Bool
  hasFusionTriggerEdge : Bool

structure SeparateChainPaths (F : Type) where
  best : SeparateChainState F
  bestCrossResource : Option (SeparateChainState F)

structure FusedImplementationChoice (F : Type) where
  names : List String
  tasks : List (TaskTemplate F)
  requirements : ResourceRequirements

structure FusionContext (F : Type) where
  scheduler : TopologyAwareScheduler F
  advisor : FusionAdvisor F
  resources : List (ResourceDescriptor F)
  objects : Objects
  topology : TopologySnapshot F

/-- Implementation, resource, crosses resources, has a fusion trigger. -/
abbrev ChainKey := Nat × ResourceId × Bool × Bool

abbrev ChainStates (F : Type) := Map ChainKey (SeparateChainState F)

/-! ## The separate placement -/

def insertBetterChainState (states : ChainStates F) (candidate : SeparateChainState F) : ChainStates F :=
  let key := (candidate.implementationIndex, candidate.resourceId, candidate.hasCrossResourceEdge,
    candidate.hasFusionTriggerEdge)
  let replace := match states.lookup key with
    | some current => F64.lt candidate.totalMs current.totalMs ||
        (F64.eq candidate.totalMs current.totalMs && F64.lt current.crossTransferMs candidate.crossTransferMs)
    | none => true
  if replace then states.insert key candidate else states

/-- One transition of `advance_chain_states`; `none` when the link between the two resources is missing, which ends
the whole computation. -/
def advanceOnResource (task : TaskSpec F) (implementationIndex : Nat) (outputBytes : UInt64)
    (previous : SeparateChainState F) (predictedObjects : Objects) (context : FusionContext F)
    (states : ChainStates F) (resource : ResourceDescriptor F) : Option (ChainStates F) :=
  match placementCost context.scheduler task resource predictedObjects context.topology with
  | none => some states
  | some cost =>
    let next : SeparateChainState F :=
      { implementationIndex, resourceId := resource.id, outputBytes, totalMs := previous.totalMs + cost.totalMs,
        crossTransferMs := previous.crossTransferMs, hasCrossResourceEdge := previous.hasCrossResourceEdge,
        hasFusionTriggerEdge := previous.hasFusionTriggerEdge }
    if previous.resourceId = resource.id then some (insertBetterChainState states next)
    else (context.topology.link previous.resourceId resource.id).map fun link =>
      let recommendation := context.advisor.evaluate previous.outputBytes link
      insertBetterChainState states { next with
        crossTransferMs := previous.crossTransferMs + recommendation.estimatedSavedTransferMs
        hasCrossResourceEdge := true
        hasFusionTriggerEdge := previous.hasFusionTriggerEdge || recommendation.shouldFuse }

/-- The transitions out of one state. -/
def advanceChainState (e : Env) (role : LogicalRoleSpec F) (context : FusionContext F) (states : ChainStates F)
    (previous : SeparateChainState F) : Option (ChainStates F) :=
  let intermediate := ObjectId.new e
  let predictedObjects := context.objects.insert intermediate
    { id := intermediate, sizeBytes := previous.outputBytes, digest := none, encoding := none,
      locations := [previous.resourceId], producer := none }
  role.implementations.zipIdx.foldlM (fun states (implementation, implementationIndex) =>
    let task := implementation.task.instantiate (e.sub implementationIndex) [intermediate]
    context.resources.foldlM (advanceOnResource task implementationIndex implementation.task.cost.outputBytes previous
      predictedObjects context) states) states

def advanceChainStates (e : Env) (states : ChainStates F) (role : LogicalRoleSpec F) (context : FusionContext F) :
    Option (ChainStates F) := do
  let nextStates ← (e.iter states.values).zipIdx.foldlM (fun next (previous, i) =>
    advanceChainState (e.sub i) role context next previous) ∅
  if nextStates.entries.isEmpty then none else some nextStates

/-- The states after the first role of a chain. -/
def firstChainStates (e : Env) (first : LogicalRoleSpec F) (dependencyInputs : List ObjectId)
    (context : FusionContext F) : ChainStates F :=
  first.implementations.zipIdx.foldl (fun states (implementation, implementationIndex) =>
    let task := implementation.task.instantiate (e.sub implementationIndex) dependencyInputs
    context.resources.foldl (fun states resource =>
      match placementCost context.scheduler task resource context.objects context.topology with
      | none => states
      | some cost => insertBetterChainState states
          { implementationIndex, resourceId := resource.id, outputBytes := implementation.task.cost.outputBytes,
            totalMs := cost.totalMs, crossTransferMs := F64.ofNat 0, hasCrossResourceEdge := false,
            hasFusionTriggerEdge := false }) states) ∅

/-- Advance through the roles of a chain, one after the other. -/
def advanceChain (e : Env) (context : FusionContext F) (chain : List (LogicalRoleSpec F)) (states : ChainStates F) :
    Option (ChainStates F) :=
  chain.zipIdx.foldlM (fun states (role, i) => advanceChainStates (e.sub i) states role context) states

def separateChainPaths (e : Env) (chain : List (LogicalRoleSpec F)) (dependencyInputs : List ObjectId)
    (context : FusionContext F) : Option (SeparateChainPaths F) :=
  match chain with
  | [] => none
  | first :: rest => do
    let states := firstChainStates (e.sub 0) first dependencyInputs context
    if states.entries.isEmpty then none
    else
      let states ← advanceChain (e.sub 1) context rest states
      let byTotal := fun (left right : SeparateChainState F) => F64.totalCmp left.totalMs right.totalMs
      let best ← minBy byTotal ((e.sub 2).iter states.values)
      some { best, bestCrossResource :=
        minBy byTotal (((e.sub 3).iter states.values).filter (·.hasCrossResourceEdge)) }

def bestChainTailTotal (e : Env) (tail : List (LogicalRoleSpec F)) (previousOutputBytes : UInt64)
    (previousResource : ResourceId) (initialTotalMs : F) (context : FusionContext F) : Option F := do
  -- `usize::MAX`: no implementation has this index
  let noImplementation := 2 ^ 64 - 1
  let seed : SeparateChainState F :=
    { implementationIndex := noImplementation, resourceId := previousResource, outputBytes := previousOutputBytes,
      totalMs := initialTotalMs, crossTransferMs := F64.ofNat 0, hasCrossResourceEdge := false,
      hasFusionTriggerEdge := false }
  let states ← advanceChain (e.sub 0) context tail
    ((∅ : ChainStates F).insert (noImplementation, previousResource, false, false) seed)
  minBy F64.totalCmp (((e.sub 1).iter states.values).map (·.totalMs))

/-! ## Requirements of a fused task -/

def combineArchitecture : Option Architecture → Option Architecture → Option (Option Architecture)
  | some left, some right => if left = right then some (some left) else none
  | some value, none | none, some value => some (some value)
  | none, none => some none

def combineAccelerator :
    Option AcceleratorRequirement → Option AcceleratorRequirement → Option (Option AcceleratorRequirement)
  | some left, some right =>
    if left.kind = right.kind then
      some (some {
        kind := left.kind
        minCount := max left.minCount right.minCount
        minMemoryBytesPerDevice := max left.minMemoryBytesPerDevice right.minMemoryBytesPerDevice })
    else none
  | some value, none | none, some value => some (some value)
  | none, none => some none

def combineRequirements (left right : ResourceRequirements) : Option ResourceRequirements := do
  let architecture ← combineArchitecture left.architecture right.architecture
  let accelerator ← combineAccelerator left.accelerator right.accelerator
  some {
    architecture := architecture
    minMemoryBytes := max left.minMemoryBytes right.minMemoryBytes
    accelerator := accelerator
    requiredFeatures := left.requiredFeatures ∪ right.requiredFeatures }

/-- A choice extended by every implementation whose requirements combine with it. -/
def extendChoice (role : LogicalRoleSpec F) (choice : FusedImplementationChoice F) :
    List (FusedImplementationChoice F) :=
  role.implementations.filterMap fun implementation =>
    (combineRequirements choice.requirements implementation.task.requirements).map fun requirements =>
      { names := choice.names ++ [implementation.name]
        tasks := choice.tasks ++ [implementation.task]
        requirements := requirements }

def fusedImplementationChoices (chain : List (LogicalRoleSpec F)) : List (FusedImplementationChoice F) :=
  match chain with
  | [] => []
  | first :: rest =>
    -- once no choice is left, none can be extended: the `break` of the source changes nothing
    rest.foldl (fun choices role => choices.flatMap (extendChoice role)) (first.implementations.map
      fun implementation =>
        { names := [implementation.name], tasks := [implementation.task],
          requirements := implementation.task.requirements })

/-! ## The pipeline task -/

def fusableTemplate (task : TaskTemplate F) : Bool :=
  decide (task.effects = .pure) && task.artifact.startsWith "builtin:"

/-- The external inputs collected so far, and the index of each. -/
abbrev ExternalInputs := List ObjectId × Map ObjectId Nat

/-- The binding of one object: its index if it has one, the next free index otherwise. -/
def bindExternal (external : ExternalInputs) (objectId : ObjectId) : Nat × ExternalInputs :=
  match external.2.lookup objectId with
  | some index => (index, external)
  | none =>
    let index := external.1.length
    (index, external.1 ++ [objectId], external.2.insert objectId index)

def pipelineExternalBindings : List ObjectId → ExternalInputs → List PipelineInput × ExternalInputs
  | [], external => ([], external)
  | objectId :: rest, external =>
    let (index, external) := bindExternal external objectId
    let (inputs, external) := pipelineExternalBindings rest external
    (.external index :: inputs, external)

/-- Every index in the map is the position of its object. -/
def ExternalInputs.Indexed (external : ExternalInputs) : Prop :=
  ∀ o i, external.2.lookup o = some i → external.1[i]? = some o

theorem indexed_empty : ExternalInputs.Indexed ([], ∅) := fun o i h => by simp at h

/-- Binding an object finds or gives it a position. -/
theorem bindExternal_spec {external : ExternalInputs} (h : external.Indexed) (o : ObjectId) :
    external.1 <+: (bindExternal external o).2.1 ∧ (bindExternal external o).2.Indexed ∧
      (bindExternal external o).2.1[(bindExternal external o).1]? = some o := by
  unfold bindExternal
  cases hl : external.2.lookup o with
  | some i => exact ⟨List.prefix_rfl, h, h o i hl⟩
  | none =>
    refine ⟨List.prefix_append _ _, ?_, by simp⟩
    intro o' i hi
    rw [Map.lookup_insert_eq] at hi
    split at hi
    · rename_i ho
      cases hi
      simp [ho]
    · exact getElem?_of_isPrefix (List.prefix_append _ _) (h o' i hi)

/-- The bindings of a list of objects are the positions of these objects. -/
theorem pipelineExternalBindings_spec : ∀ (ids : List ObjectId) (external : ExternalInputs), external.Indexed →
    external.1 <+: (pipelineExternalBindings ids external).2.1 ∧ (pipelineExternalBindings ids external).2.Indexed ∧
    ∃ indexes : List Nat, (pipelineExternalBindings ids external).1 = indexes.map .external ∧
      List.Forall₂ (fun i o => (pipelineExternalBindings ids external).2.1[i]? = some o) indexes ids
  | [], external, h => ⟨List.prefix_rfl, h, [], rfl, .nil⟩
  | o :: ids, external, h => by
    obtain ⟨hinit, hindexed, hat⟩ := bindExternal_spec h o
    obtain ⟨hinit', hindexed', indexes, hbindings, hall⟩ := pipelineExternalBindings_spec ids _ hindexed
    refine ⟨hinit.trans hinit', hindexed', (bindExternal external o).1 :: indexes, ?_, .cons ?_ hall⟩
    · simp only [pipelineExternalBindings, hbindings, List.map_cons]
    · exact getElem?_of_isPrefix hinit' hat

/-- The stages after the first: the template's own inputs, then the output of the stage before. -/
def laterStages : List (TaskTemplate F) → ExternalInputs → List TaskPipelineStage × ExternalInputs
  | [], external => ([], external)
  | task :: rest, external =>
    let (inputs, external) := pipelineExternalBindings task.inputs external
    let (stages, external) := laterStages rest external
    ({ artifact := task.artifact, entrypoint := task.entrypoint, arguments := task.arguments,
       inputs := inputs ++ [.previousOutput] } :: stages, external)

/-- `none`: the `expect` on an empty list of tasks panics. -/
def fusedPipelineTask (e : Env) (tasks : List (TaskTemplate F)) (dependencyInputs : List ObjectId)
    (requirements : ResourceRequirements) : Option (TaskSpec F) :=
  match tasks with
  | [] => none
  | head :: rest =>
    let first := head.instantiate (e.sub 0) dependencyInputs
    let (firstInputs, external) := pipelineExternalBindings first.inputs ([], ∅)
    let (stages, external) := laterStages rest external
    some {
      id := TaskId.new e
      artifact := "plurifold:pipeline"
      entrypoint := "run"
      arguments := []
      inputs := external.1
      requirements
      effects := .pure
      cost := {
        computeMsOnReference :=
          (tasks.map fun task => task.cost.computeMsOnReference).foldl (· + ·) (F64.ofNat 0)
        outputBytes := match tasks.getLast? with
          | some task => task.cost.outputBytes
          | none => 0 }
      shard := none
      pipeline := some ⟨{ artifact := first.artifact, entrypoint := first.entrypoint, arguments := first.arguments,
                          inputs := firstInputs } :: stages⟩ }

/-! ## The search -/

def fusionCandidateIsBetter (candidate : ReadyFusionSelection F) (current : Option (ReadyFusionSelection F)) : Bool :=
  match current with
  | none => true
  | some current =>
    match F64.totalCmp candidate.estimatedVsSeparateMs current.estimatedVsSeparateMs with
    | .gt => true
    | .lt => false
    | .eq =>
      match F64.totalCmp candidate.estimatedAvoidedTransferMs current.estimatedAvoidedTransferMs with
      | .gt => true
      | .lt => false
      | .eq => decide (current.implementations.length < candidate.implementations.length)

/-- The fused task of one choice, if it can be placed and is no modeled regression. -/
def fusionCandidate (e : Env) (chain : List (LogicalRoleSpec F)) (prefixLen : Nat) (dependencyInputs : List ObjectId)
    (context : FusionContext F) (separateTotalMs avoidedTransferMs : F) (choice : FusedImplementationChoice F) :
    Option (ReadyFusionSelection F) := do
  let task ← fusedPipelineTask (e.sub 0) choice.tasks dependencyInputs choice.requirements
  match context.scheduler.choose task context.resources context.objects context.topology with
  | .error _ => none
  | .ok decision =>
    let projectedTotalMs ← if prefixLen = chain.length then some decision.cost.totalMs
      else do
        -- the `expect`: a fused prefix has at least two tasks
        let last ← choice.tasks.getLast?
        bestChainTailTotal (e.sub 1) (chain.drop prefixLen) last.cost.outputBytes decision.resourceId
          decision.cost.totalMs context
    let estimatedVsSeparateMs := separateTotalMs - projectedTotalMs
    if F64.lt estimatedVsSeparateMs (F64.ofNat 0) then none
    else some { implementations := choice.names, task, resourceId := decision.resourceId, cost := decision.cost,
                estimatedAvoidedTransferMs := avoidedTransferMs, estimatedVsSeparateMs }

/-- The best candidate among the choices for one prefix and those of the shorter prefixes. -/
def bestFusionOfPrefix (e : Env) (chain : List (LogicalRoleSpec F)) (prefixLen : Nat)
    (dependencyInputs : List ObjectId) (context : FusionContext F) (separateTotalMs avoidedTransferMs : F)
    (best : Option (ReadyFusionSelection F)) : Option (ReadyFusionSelection F) :=
  (fusedImplementationChoices (chain.take prefixLen)).zipIdx.foldl (fun best (choice, i) =>
    match fusionCandidate (e.sub i) chain prefixLen dependencyInputs context separateTotalMs avoidedTransferMs
        choice with
    | none => best
    | some candidate => if fusionCandidateIsBetter candidate best then some candidate else best) best

/-- The loop over the prefix lengths; `none` when a prefix has no separate placement, which ends the search. -/
def fusionSearch (e : Env) (chain : List (LogicalRoleSpec F)) (dependencyInputs : List ObjectId)
    (context : FusionContext F) (separateTotalMs : F) (prefixLens : List Nat) :
    Option (Option (ReadyFusionSelection F)) :=
  prefixLens.foldlM (fun best prefixLen => do
    let separate ← separateChainPaths ((e.sub prefixLen).sub 0) (chain.take prefixLen) dependencyInputs context
    match separate.bestCrossResource with
    | none => some best
    | some crossResource =>
      if crossResource.hasFusionTriggerEdge then
        some (bestFusionOfPrefix ((e.sub prefixLen).sub 1) chain prefixLen dependencyInputs context separateTotalMs
          crossResource.crossTransferMs best)
      else some best) none

def fusablePrefixLen (chain : List (LogicalRoleSpec F)) : Nat :=
  (chain.takeWhile fun role => role.implementations.all fun implementation => fusableTemplate implementation.task).length

omit [F64 F] in
theorem fusablePrefixLen_le (chain : List (LogicalRoleSpec F)) : fusablePrefixLen chain ≤ chain.length :=
  (List.takeWhile_prefix _).length_le

omit [F64 F] in
/-- Every implementation of a role in the fusable prefix is a Pure builtin. -/
theorem mem_fusablePrefix {chain : List (LogicalRoleSpec F)} {n : Nat} (hn : n ≤ fusablePrefixLen chain)
    {role : LogicalRoleSpec F} (h : role ∈ chain.take n) :
    ∀ implementation ∈ role.implementations, fusableTemplate implementation.task = true := by
  obtain ⟨rest, hrest⟩ := List.takeWhile_prefix (l := chain) fun role : LogicalRoleSpec F =>
    role.implementations.all fun implementation => fusableTemplate implementation.task
  rw [← hrest, List.take_append_of_le_length hn] at h
  exact List.all_eq_true.mp (List.all_eq_true.mp List.all_takeWhile role (List.mem_of_mem_take h))

def selectReadyFusion (e : Env) (chain : List (LogicalRoleSpec F)) (dependencyInputs : List ObjectId)
    (context : FusionContext F) : Option (ReadyFusionSelection F) :=
  if fusablePrefixLen chain < 2 then none
  else do
    let fullSeparate ← separateChainPaths (e.sub 0) chain dependencyInputs context
    let best ← fusionSearch (e.sub 1) chain dependencyInputs context fullSeparate.best.totalMs
      (List.range' 2 (fusablePrefixLen chain - 1))
    best

end Plurifold
