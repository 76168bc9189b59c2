import Plurifold.Planner.Chain
import Plurifold.Lib.Search

/-!
# What the search for a fused prefix finds

A tuple of implementations of a prefix is a candidate when its requirements combine and the fused task can be placed;
what it is worth is the least cost of the chain run separately, less what the fused task and the rest of the chain cost.
-/

namespace Plurifold

open Lib

variable {F : Type} {e e' : Env} {context : FusionContext F} {role : LogicalRoleSpec F}
  {chain roles : List (LogicalRoleSpec F)} {dependencyInputs : List ObjectId}
  {implementation : RoleImplementation F} {implementations : List (RoleImplementation F)}
  {resource : ResourceDescriptor F} {a b ab : ResourceRequirements}

/-! ## Requirements that combine -/

theorem supports_iff [F64 F] : resource.supports a = true ↔
    F64.le resource.performanceScore (F64.ofNat 0 : F) = false ∧ a.minMemoryBytes ≤ resource.memoryBytes ∧
    (∀ architecture ∈ a.architecture, resource.architecture = architecture) ∧ a.requiredFeatures ⊆ resource.features ∧
    ∀ required ∈ a.accelerator, ∃ candidate ∈ resource.accelerators, candidate.kind = required.kind ∧
      required.minCount ≤ candidate.count ∧ required.minMemoryBytesPerDevice ≤ candidate.memoryBytesPerDevice := by
  rw [ResourceDescriptor.supports]
  cases a.architecture <;> cases a.accelerator <;> simp [and_assoc]

/-- Machine integers have `max`, but not yet the lemmas of an order. -/
theorem parts_le_of_max_le {α : Type} [LE α] [DecidableLE α] (htrans : ∀ {a b c : α}, a ≤ b → b ≤ c → a ≤ c)
    (htotal : ∀ a b : α, a ≤ b ∨ b ≤ a) {a b c : α} (h : maxOfLe.max a b ≤ c) : a ≤ c ∧ b ≤ c := by
  change (if a ≤ b then b else a) ≤ c at h
  split at h
  · rename_i hle
    exact ⟨htrans hle h, h⟩
  · rename_i hnot
    exact ⟨h, htrans ((htotal a b).resolve_left hnot) h⟩

theorem combineArchitecture_implies {left right both : Option Architecture} {architecture : Architecture}
    (h : combineArchitecture left right = some both) (hboth : ∀ x ∈ both, architecture = x) :
    (∀ x ∈ left, architecture = x) ∧ ∀ x ∈ right, architecture = x := by
  unfold combineArchitecture at h
  split at h
  · split at h
    · rename_i hsame
      cases h
      exact ⟨hboth, hsame ▸ hboth⟩
    · cases h
  · cases h
    exact ⟨hboth, nofun⟩
  · cases h
    exact ⟨nofun, hboth⟩
  · exact ⟨nofun, nofun⟩

/-- Some accelerator is of the kind asked for, and there are enough of them with enough memory. -/
def hasAccelerator (accelerators : List Accelerator) (required : AcceleratorRequirement) : Prop :=
  ∃ candidate ∈ accelerators, candidate.kind = required.kind ∧ required.minCount ≤ candidate.count ∧
    required.minMemoryBytesPerDevice ≤ candidate.memoryBytesPerDevice

theorem combineAccelerator_implies {left right both : Option AcceleratorRequirement} {accelerators : List Accelerator}
    (h : combineAccelerator left right = some both) (hboth : ∀ x ∈ both, hasAccelerator accelerators x) :
    (∀ x ∈ left, hasAccelerator accelerators x) ∧ ∀ x ∈ right, hasAccelerator accelerators x := by
  unfold combineAccelerator at h
  split at h
  · rename_i l r
    split at h
    · rename_i hsame
      cases h
      obtain ⟨candidate, hmem, hkind, hcount, hmemory⟩ := hboth _ rfl
      have hcounts := parts_le_of_max_le UInt32.le_trans UInt32.le_total hcount
      have hmemories := parts_le_of_max_le UInt64.le_trans UInt64.le_total hmemory
      constructor
      · rintro x ⟨⟩
        exact ⟨candidate, hmem, hkind, hcounts.1, hmemories.1⟩
      · rintro x ⟨⟩
        exact ⟨candidate, hmem, hkind.trans hsame, hcounts.2, hmemories.2⟩
    · cases h
  · cases h
    exact ⟨hboth, nofun⟩
  · cases h
    exact ⟨nofun, hboth⟩
  · exact ⟨nofun, nofun⟩

/-- A resource that has what two requirements combine to has what each of them asks for. -/
theorem combineRequirements_supports [F64 F] (h : combineRequirements a b = some ab) (hs : resource.supports ab = true) :
    resource.supports a = true ∧ resource.supports b = true := by
  obtain ⟨architecture, harchitecture, h⟩ := Option.bind_eq_some_iff.mp h
  obtain ⟨accelerator, haccelerator, h⟩ := Option.bind_eq_some_iff.mp h
  cases h
  obtain ⟨hscore, hmemory, harch, hfeatures, hacc⟩ := supports_iff.mp hs
  have hmemories := parts_le_of_max_le UInt64.le_trans UInt64.le_total hmemory
  have hfeature := Finset.union_subset_iff.mp hfeatures
  have harches := combineArchitecture_implies harchitecture harch
  have haccs := combineAccelerator_implies haccelerator hacc
  exact ⟨supports_iff.mpr ⟨hscore, hmemories.1, harches.1, hfeature.1, haccs.1⟩,
    supports_iff.mpr ⟨hscore, hmemories.2, harches.2, hfeature.2, haccs.2⟩⟩

/-- What a list of requirements combines to, from the first on. -/
def combineAll : List ResourceRequirements → Option ResourceRequirements
  | [] => none
  | first :: rest => rest.foldlM combineRequirements first

theorem combineAll_concat {requirements : List ResourceRequirements} (hne : requirements ≠ []) :
    combineAll (requirements ++ [b]) = (combineAll requirements).bind fun a => combineRequirements a b := by
  cases requirements with
  | nil => exact absurd rfl hne
  | cons first rest =>
    rw [List.cons_append, combineAll, List.foldlM_append]
    refine congrArg ((rest.foldlM combineRequirements first).bind ·) (funext fun a => ?_)
    exact List.foldlM_cons.trans (bind_pure _)

/-- A resource that has what all requirements combine to has what each of them asks for. -/
theorem combineAll_supports [F64 F] : ∀ {requirements : List ResourceRequirements}, combineAll requirements = some ab →
    resource.supports ab = true → ∀ a ∈ requirements, resource.supports a = true
  | first :: rest, h, hs, a, ha => by
    -- the requirements combined so far are asked for as well
    have hall : ∀ (rest : List ResourceRequirements) (first : ResourceRequirements),
        rest.foldlM combineRequirements first = some ab → ∀ a ∈ first :: rest, resource.supports a = true := by
      intro rest
      induction rest with
      | nil =>
        intro first h a ha
        cases h
        rw [List.mem_singleton.mp ha]
        exact hs
      | cons second rest ih =>
        intro first h a ha
        rw [List.foldlM_cons] at h
        obtain ⟨both, hboth, h⟩ := Option.bind_eq_some_iff.mp h
        have hparts := combineRequirements_supports hboth (ih both h both (List.mem_cons_self ..))
        rcases List.mem_cons.mp ha with rfl | ha
        · exact hparts.1
        · rcases List.mem_cons.mp ha with rfl | ha
          · exact hparts.2
          · exact ih both h a (List.mem_cons_of_mem _ ha)
    exact hall rest first h a ha

/-! ## Choices of implementations -/

/-- The implementations as one choice, if their requirements combine. -/
def choiceOf (implementations : List (RoleImplementation F)) : Option (FusedImplementationChoice F) :=
  (combineAll (implementations.map (·.task.requirements))).map fun requirements =>
    { names := implementations.map (·.name), tasks := implementations.map (·.task), requirements }

theorem choiceOf_concat (hne : implementations ≠ []) {next : FusedImplementationChoice F} :
    choiceOf (implementations ++ [implementation]) = some next ↔ ∃ choice, choiceOf implementations = some choice ∧
      ∃ requirements, combineRequirements choice.requirements implementation.task.requirements = some requirements ∧
        next = { names := choice.names ++ [implementation.name], tasks := choice.tasks ++ [implementation.task],
                 requirements } := by
  have hne' : implementations.map (·.task.requirements) ≠ [] := fun h => hne (List.map_eq_nil_iff.mp h)
  have happend : (implementations ++ [implementation]).map (·.task.requirements) =
      implementations.map (·.task.requirements) ++ [implementation.task.requirements] := List.map_append
  rw [choiceOf, choiceOf, happend, combineAll_concat hne', List.map_append, List.map_append]
  cases combineAll (implementations.map (·.task.requirements)) with
  | none => simp
  | some requirements => simp [eq_comm]

/-- One of the implementations of every role. -/
abbrev Chosen (roles : List (LogicalRoleSpec F)) (implementations : List (RoleImplementation F)) : Prop :=
  List.Forall₂ (fun role implementation => implementation ∈ role.implementations) roles implementations

theorem chosen_concat : Chosen (roles ++ [role]) implementations ↔ ∃ chosen implementation,
    implementations = chosen ++ [implementation] ∧ Chosen roles chosen ∧ implementation ∈ role.implementations := by
  constructor
  · intro h
    have hinit := List.forall₂_take roles.length h
    have hlast := List.forall₂_drop roles.length h
    rw [List.take_left] at hinit
    rw [List.drop_left] at hlast
    obtain ⟨implementation, rest, hmem, hnil, hrest⟩ := List.forall₂_cons_left_iff.mp hlast
    cases hnil
    exact ⟨_, implementation, by rw [← hrest, List.take_append_drop], hinit, hmem⟩
  · rintro ⟨chosen, implementation, rfl, hchosen, hmem⟩
    exact List.rel_append hchosen (.cons hmem .nil)

theorem mem_extendChoice {choice next : FusedImplementationChoice F} : next ∈ extendChoice role choice ↔
    ∃ implementation ∈ role.implementations, ∃ requirements,
      combineRequirements choice.requirements implementation.task.requirements = some requirements ∧
      next = { names := choice.names ++ [implementation.name], tasks := choice.tasks ++ [implementation.task],
               requirements } := by
  simp [extendChoice, List.mem_filterMap, eq_comm]

/-- The choices are the tuples of implementations whose requirements combine. -/
theorem mem_fusedImplementationChoices {choice : FusedImplementationChoice F} :
    choice ∈ fusedImplementationChoices chain ↔
      ∃ implementations, Chosen chain implementations ∧ choiceOf implementations = some choice := by
  have hall : ∀ (rest chosen : List (LogicalRoleSpec F)) (choices : List (FusedImplementationChoice F)), chosen ≠ [] →
      (∀ choice, choice ∈ choices ↔
        ∃ implementations, Chosen chosen implementations ∧ choiceOf implementations = some choice) →
      ∀ choice, choice ∈ rest.foldl (fun choices role => choices.flatMap (extendChoice role)) choices ↔
        ∃ implementations, Chosen (chosen ++ rest) implementations ∧ choiceOf implementations = some choice := by
    intro rest
    induction rest with
    | nil =>
      intro chosen choices _ hchoices choice
      rw [List.append_nil]
      exact hchoices choice
    | cons role rest ih =>
      intro chosen choices hne hchoices choice
      rw [List.foldl_cons, ← List.singleton_append (l := rest), ← List.append_assoc]
      refine ih (chosen ++ [role]) _ (by simp) (fun next => ?_) choice
      rw [List.mem_flatMap]
      constructor
      · rintro ⟨before, hbefore, hnext⟩
        obtain ⟨implementations, hchosen, hof⟩ := (hchoices before).mp hbefore
        obtain ⟨implementation, hmem, hextends⟩ := mem_extendChoice.mp hnext
        have hne' : implementations ≠ [] := fun h => hne (List.forall₂_nil_right_iff.mp (h ▸ hchosen))
        exact ⟨implementations ++ [implementation], chosen_concat.mpr ⟨_, _, rfl, hchosen, hmem⟩,
          (choiceOf_concat hne').mpr ⟨before, hof, hextends⟩⟩
      · rintro ⟨implementations, hchosen, hof⟩
        obtain ⟨others, implementation, rfl, hchosen, hmem⟩ := chosen_concat.mp hchosen
        have hne' : others ≠ [] := fun h => hne (List.forall₂_nil_right_iff.mp (h ▸ hchosen))
        obtain ⟨before, hbefore, hextends⟩ := (choiceOf_concat hne').mp hof
        exact ⟨before, (hchoices before).mpr ⟨others, hchosen, hbefore⟩,
          mem_extendChoice.mpr ⟨implementation, hmem, hextends⟩⟩
  cases chain with
  | nil =>
    refine iff_of_false (by simp [fusedImplementationChoices]) ?_
    rintro ⟨implementations, hchosen, hof⟩
    cases hchosen
    cases hof
  | cons first rest =>
    refine hall rest [first] _ (by simp) (fun choice => ?_) choice
    rw [List.mem_map]
    constructor
    · rintro ⟨implementation, hmem, rfl⟩
      exact ⟨[implementation], .cons hmem .nil, rfl⟩
    · rintro ⟨implementations, hchosen, hof⟩
      obtain ⟨implementation, _, hmem, hnil, rfl⟩ := List.forall₂_cons_left_iff.mp hchosen
      cases hnil
      exact ⟨implementation, hmem, Option.some.inj hof⟩

/-! ## The fused task -/

/-- The pipeline task of the implementations, if their requirements combine. -/
def fusedTask [F64 F] (e : Env) (implementations : List (RoleImplementation F)) (dependencyInputs : List ObjectId) :
    Option (TaskSpec F) :=
  (choiceOf implementations).bind fun choice => fusedPipelineTask e choice.tasks dependencyInputs choice.requirements

/-- The stages after the first run the later templates, and their inputs are among the external ones. -/
theorem laterStages_run (tasks : List (TaskTemplate F)) (external : ExternalInputs) (h : external.Indexed) :
    external.1 <+: (laterStages tasks external).2.1 ∧
    List.Forall₂ (fun task stage => stage.artifact = task.artifact ∧ stage.entrypoint = task.entrypoint ∧
      stage.arguments = task.arguments) tasks (laterStages tasks external).1 ∧
    ∀ task ∈ tasks, ∀ o ∈ task.inputs, o ∈ (laterStages tasks external).2.1 := by
  induction tasks generalizing external with
  | nil => exact ⟨List.prefix_rfl, .nil, fun _ h => by cases h⟩
  | cons task tasks ih =>
    obtain ⟨hinit, hindexed, indexes, -, hat⟩ := pipelineExternalBindings_spec task.inputs external h
    obtain ⟨hinit', hrun, hinputs⟩ := ih _ hindexed
    refine ⟨hinit.trans hinit', .cons ⟨rfl, rfl, rfl⟩ hrun, fun other hother o ho => ?_⟩
    rcases List.mem_cons.mp hother with rfl | hother
    · obtain ⟨i, -, hi⟩ := forall₂_mem_right hat ho
      exact List.mem_of_getElem? (getElem?_of_isPrefix hinit' hi)
    · exact hinputs other hother o ho

variable [F64 F]

/-- What the fused task of a choice is: a Pure pipeline that runs the templates in turn and reads what they read. -/
theorem fusedPipelineTask_run {tasks : List (TaskTemplate F)} {requirements : ResourceRequirements} {task : TaskSpec F}
    (h : fusedPipelineTask e tasks dependencyInputs requirements = some task) :
    task.effects = .pure ∧ task.requirements = requirements ∧ task.shard = none ∧
    (∀ last ∈ tasks.getLast?, task.cost.outputBytes = last.cost.outputBytes) ∧
    (∃ stages, task.pipeline = some ⟨stages⟩ ∧ List.Forall₂ (fun template stage => stage.artifact = template.artifact ∧
      stage.entrypoint = template.entrypoint ∧ stage.arguments = template.arguments) tasks stages) ∧
    (∀ template ∈ tasks, ∀ o ∈ template.inputs, o ∈ task.inputs) ∧ ∀ o ∈ dependencyInputs, o ∈ task.inputs := by
  cases tasks with
  | nil => cases h
  | cons first rest =>
    obtain ⟨-, hindexed, indexes, -, hat⟩ :=
      pipelineExternalBindings_spec (first.inputs ++ dependencyInputs) ([], ∅) indexed_empty
    obtain ⟨hinit, hrun, hinputs⟩ := laterStages_run rest _ hindexed
    have hfirst : ∀ o ∈ first.inputs ++ dependencyInputs, o ∈ (laterStages rest
        (pipelineExternalBindings (first.inputs ++ dependencyInputs) ([], ∅)).2).2.1 := fun o ho => by
      obtain ⟨i, -, hi⟩ := forall₂_mem_right hat ho
      exact List.mem_of_getElem? (getElem?_of_isPrefix hinit hi)
    cases h
    refine ⟨rfl, rfl, rfl, ?_, ⟨_, rfl, .cons ⟨rfl, rfl, rfl⟩ hrun⟩, fun template htemplate o ho => ?_, fun o ho => ?_⟩
    · intro last hlast
      rw [Option.mem_def] at hlast
      dsimp only
      rw [hlast]
    · rcases List.mem_cons.mp htemplate with rfl | htemplate
      · exact hfirst o (List.mem_append_left _ ho)
      · exact hinputs template htemplate o ho
    · exact hfirst o (List.mem_append_right _ ho)

/-- Only the id of a fused task is drawn from the world. -/
theorem fusedPipelineTask_env (e e' : Env) (tasks : List (TaskTemplate F)) (requirements : ResourceRequirements) :
    fusedPipelineTask e' tasks dependencyInputs requirements =
      (fusedPipelineTask e tasks dependencyInputs requirements).map fun task => { task with id := TaskId.new e' } := by
  cases tasks with
  | nil => rfl
  | cons first rest => rfl

/-- The scheduler does not read the id of a task. -/
theorem choose_id (scheduler : TopologyAwareScheduler F) (task : TaskSpec F) (id : TaskId)
    (resources : List (ResourceDescriptor F)) (objects : Objects) (topology : TopologySnapshot F) :
    scheduler.choose { task with id } resources objects topology = scheduler.choose task resources objects topology := by
  have hscore : ∀ resource, scheduler.scoreCandidate { task with id } resource objects topology =
      scheduler.scoreCandidate task resource objects topology := by
    intro resource
    have hrange : ∀ i, ({ task with id } : TaskSpec F).inputByteRange i = task.inputByteRange i := fun _ => rfl
    have htransfer : inputTransfer { task with id } resource.id objects topology 0 task.inputs (F64.ofNat 0) =
        inputTransfer task resource.id objects topology 0 task.inputs (F64.ofNat 0) :=
      inputTransfer_related hrange (List.forall₂_same.mpr fun _ _ => rfl) 0 _
    unfold TopologyAwareScheduler.scoreCandidate
    dsimp only
    rw [htransfer]
  unfold TopologyAwareScheduler.choose
  simp only [hscore]

/-- How much the last of the implementations puts out. -/
def lastOutputBytes (implementations : List (RoleImplementation F)) : UInt64 :=
  (implementations.getLast?.map (·.task.cost.outputBytes)).getD 0

/-- The fused task can be placed on the resource, at this cost. -/
def FusedOn (e : Env) (context : FusionContext F) (dependencyInputs : List ObjectId)
    (implementations : List (RoleImplementation F)) (resource : ResourceDescriptor F) (cost : PlacementBreakdown F) :
    Prop :=
  ∃ task, fusedTask e implementations dependencyInputs = some task ∧
    placementCost context.scheduler task resource context.objects context.topology = some cost

/-- Where the fused task can be placed, all of its parts can. -/
theorem FusedOn.parts {cost : PlacementBreakdown F}
    (h : FusedOn e context dependencyInputs implementations resource cost) :
    (∀ implementation ∈ implementations, resource.supports implementation.task.requirements = true ∧
      ∀ o ∈ implementation.task.inputs, Reachable context.objects context.topology resource.id o) ∧
    ∀ o ∈ dependencyInputs, Reachable context.objects context.topology resource.id o := by
  obtain ⟨task, htask, hcost⟩ := h
  obtain ⟨choice, hchoice, htask⟩ := Option.bind_eq_some_iff.mp htask
  obtain ⟨requirements, hrequirements, rfl⟩ := Option.map_eq_some_iff.mp hchoice
  obtain ⟨-, hrequires, hshard, -, -, hinputs, hdependencies⟩ := fusedPipelineTask_run htask
  have hwhole : ∀ i, task.inputByteRange i = none := fun i => by rw [TaskSpec.inputByteRange, hshard]; rfl
  obtain ⟨hsupports, hreach⟩ := (placementCost_isSome hwhole).mp (by rw [hcost]; rfl)
  rw [hrequires] at hsupports
  refine ⟨fun implementation hmem => ⟨?_, fun o ho => ?_⟩, fun o ho => hreach o (hdependencies o ho)⟩
  · exact combineAll_supports hrequirements hsupports _ (List.mem_map.mpr ⟨implementation, hmem, rfl⟩)
  · exact hreach o (hinputs _ (List.mem_map.mpr ⟨implementation, hmem, rfl⟩) o ho)

/-- Roles that can all run on one resource lead to a later role that gets stuck. -/
theorem getsStuck_append (hmem : resource ∈ context.resources) {rest : List (LogicalRoleSpec F)}
    (h : Chosen roles implementations) (hnew : NamesNew e roles)
    (hparts : ∀ implementation ∈ implementations, resource.supports implementation.task.requirements = true ∧
      ∀ o ∈ implementation.task.inputs, Reachable context.objects context.topology resource.id o) :
    ∀ {bytes : UInt64}, GetsStuck e context ((implementations.getLast?.map (·.task.cost.outputBytes)).getD bytes)
      resource.id rest → GetsStuck e context bytes resource.id (roles ++ rest) := by
  induction h with
  | nil => exact fun hstuck => hstuck
  | @cons role implementation roles implementations himplementation _ ih =>
    intro bytes hstuck
    have hhere := hparts implementation (List.mem_cons_self ..)
    have hfresh := hnew _ (Env.mints_newUuid e) role (List.mem_cons_self ..) implementation himplementation
    refine ⟨implementation, himplementation, resource, hmem, stepCost_local hfresh hhere.1 hhere.2 bytes, .inr ?_⟩
    refine ih hnew.tail (fun other hother => hparts other (List.mem_cons_of_mem _ hother)) ?_
    cases implementations with
    | nil => exact hstuck
    | cons second others => rwa [List.getLast?_cons_cons] at hstuck

/-- In a chain that does not get stuck, the roles after a fused prefix do not. -/
theorem FusedOn.not_stuck {cost : PlacementBreakdown F}
    (h : FusedOn e context dependencyInputs implementations resource cost) (hmem : resource ∈ context.resources)
    (hnew : NamesNew e chain) (hchosen : Chosen (chain.take implementations.length) implementations)
    (hpos : 0 < implementations.length) (hfree : ¬ChainGetsStuck e context dependencyInputs chain) :
    ¬GetsStuck e context (lastOutputBytes implementations) resource.id (chain.drop implementations.length) := by
  intro hstuck
  obtain ⟨hparts, hdependencies⟩ := h.parts
  apply hfree
  rw [← List.take_append_drop implementations.length chain]
  have hnew' : NamesNew e (chain.take implementations.length) := fun n hn role hrole =>
    hnew n hn role (List.mem_of_mem_take hrole)
  generalize chain.take implementations.length = roles at hchosen hnew'
  cases hchosen with
  | nil => exact absurd hpos (lt_irrefl 0)
  | @cons first implementation others implementations himplementation hothers =>
    obtain ⟨hsupports, hreach⟩ := hparts implementation (List.mem_cons_self ..)
    refine ⟨implementation, himplementation, resource, hmem, ?_, ?_⟩
    · refine (placementCost_isSome fun _ => rfl).mpr ⟨hsupports, fun o ho => ?_⟩
      rcases List.mem_append.mp ho with ho | ho
      · exact hreach o ho
      · exact hdependencies o ho
    · have hparts' := fun other hother => hparts other (List.mem_cons_of_mem _ hother)
      refine getsStuck_append hmem hothers hnew'.tail hparts' ?_
      cases implementations with
      | nil => exact hstuck
      | cons second others =>
        rw [lastOutputBytes, List.getLast?_cons_cons] at hstuck
        cases hlast : (second :: others).getLast? with
        | none => simp at hlast
        | some last =>
          rw [hlast] at hstuck
          exact hstuck

/-! ## Prefixes of a chain -/

omit [F64 F] in
theorem NamesNew.of_subset (h : NamesNew e chain) (hsub : roles ⊆ chain) : NamesNew e roles :=
  fun n hn role hrole => h n hn role (hsub hrole)

theorem GetsStuck.append {rest : List (LogicalRoleSpec F)} {bytes : UInt64} {previous : ResourceId}
    (h : GetsStuck e context bytes previous roles) : GetsStuck e context bytes previous (roles ++ rest) := by
  induction roles generalizing bytes previous with
  | nil => exact h.elim
  | cons role roles ih =>
    obtain ⟨implementation, himplementation, resource, hresource, hcost, hstuck⟩ := h
    exact ⟨implementation, himplementation, resource, hresource, hcost, hstuck.imp_right ih⟩

theorem ChainGetsStuck.append {rest : List (LogicalRoleSpec F)} (h : ChainGetsStuck e context dependencyInputs roles) :
    ChainGetsStuck e context dependencyInputs (roles ++ rest) := by
  cases roles with
  | nil => exact h.elim
  | cons first roles =>
    obtain ⟨implementation, himplementation, resource, hresource, hcost, hstuck⟩ := h
    exact ⟨implementation, himplementation, resource, hresource, hcost, hstuck.append⟩

theorem tailTotal_take : ∀ {way : List (RolePlacement F)} {total result : F} {bytes : UInt64} {previous : ResourceId}
    (k : Nat), tailTotal e context total bytes previous way = some result →
    ∃ result', tailTotal e context total bytes previous (way.take k) = some result'
  | way, total, _, _, _, 0, _ => ⟨total, by rw [List.take_zero, tailTotal]⟩
  | [], total, _, _, _, k + 1, _ => ⟨total, rfl⟩
  | (implementation, resource) :: rest, total, result, bytes, previous, k + 1, h => by
    rw [tailTotal] at h
    obtain ⟨cost, hcost, h⟩ := Option.bind_eq_some_iff.mp h
    obtain ⟨result', hresult⟩ := tailTotal_take k h
    exact ⟨result', by rw [List.take_succ_cons, tailTotal, hcost]; exact hresult⟩

/-- When the computation over a chain comes to a result, the one over each of its prefixes does. -/
theorem separateChainPaths_take {e₁ : Env} (hnew : NamesNew e chain) (hnew₁ : NamesNew e₁ chain)
    (h : (separateChainPaths e chain dependencyInputs context).isSome = true) {k : Nat} (hk : 0 < k) :
    (separateChainPaths e₁ (chain.take k) dependencyInputs context).isSome = true := by
  obtain ⟨⟨way, total, hassigns, htotal⟩, hfree⟩ := (separateChainPaths_isSome hnew hnew).mp h
  have hsub := List.take_subset k chain
  refine (separateChainPaths_isSome (hnew₁.of_subset hsub) (hnew.of_subset hsub)).mpr ⟨?_, fun hstuck => hfree ?_⟩
  · have htake := List.forall₂_take k hassigns
    cases way with
    | nil => cases htotal
    | cons placement rest =>
      obtain ⟨implementation, resource⟩ := placement
      obtain ⟨k, rfl⟩ := Nat.exists_eq_succ_of_ne_zero hk.ne'
      rw [chainTotal] at htotal
      obtain ⟨cost, hcost, htotal⟩ := Option.bind_eq_some_iff.mp htotal
      obtain ⟨result, hresult⟩ := tailTotal_take k htotal
      exact ⟨_, result, htake, by rw [List.take_succ_cons, chainTotal, hcost]; exact hresult⟩
  · rw [← List.take_append_drop k chain]
    exact hstuck.append

/-! ## Candidates -/

/-- What a fused prefix and the rest of the chain cost together. -/
def projectedTotal (e : Env) (chain : List (LogicalRoleSpec F)) (prefixLen : Nat) (tasks : List (TaskTemplate F))
    (context : FusionContext F) (decision : PlacementDecision F) : Option F :=
  if prefixLen = chain.length then some decision.cost.totalMs
  else do
    let last ← tasks.getLast?
    bestChainTailTotal (e.sub 1) (chain.drop prefixLen) last.cost.outputBytes decision.resourceId decision.cost.totalMs
      context

theorem fusionCandidate_eq {prefixLen : Nat} {separateMs avoidedMs : F} {choice : FusedImplementationChoice F} :
    fusionCandidate e chain prefixLen dependencyInputs context separateMs avoidedMs choice =
    (fusedPipelineTask (e.sub 0) choice.tasks dependencyInputs choice.requirements).bind fun task =>
      match context.scheduler.choose task context.resources context.objects context.topology with
      | .error _ => none
      | .ok decision => (projectedTotal e chain prefixLen choice.tasks context decision).bind fun projectedMs =>
        if F64.lt (separateMs - projectedMs) (F64.ofNat 0) then none
        else some { implementations := choice.names, task, resourceId := decision.resourceId, cost := decision.cost,
                    estimatedAvoidedTransferMs := avoidedMs, estimatedVsSeparateMs := separateMs - projectedMs } := by
  unfold fusionCandidate projectedTotal
  refine congrArg (fun f => Option.bind _ f) (funext fun task => ?_)
  cases context.scheduler.choose task context.resources context.objects context.topology with
  | error err => rfl
  | ok decision =>
    dsimp only
    split
    · rfl
    · cases choice.tasks.getLast? with
      | none => rfl
      | some last => rfl

theorem fusionCandidate_iff {prefixLen : Nat} {separateMs avoidedMs : F} {choice : FusedImplementationChoice F}
    {selected : ReadyFusionSelection F} :
    fusionCandidate e chain prefixLen dependencyInputs context separateMs avoidedMs choice = some selected ↔
      ∃ task decision projectedMs,
        fusedPipelineTask (e.sub 0) choice.tasks dependencyInputs choice.requirements = some task ∧
        context.scheduler.choose task context.resources context.objects context.topology = .ok decision ∧
        projectedTotal e chain prefixLen choice.tasks context decision = some projectedMs ∧
        F64.lt (separateMs - projectedMs) (F64.ofNat 0) = false ∧
        selected = { implementations := choice.names, task, resourceId := decision.resourceId, cost := decision.cost,
                     estimatedAvoidedTransferMs := avoidedMs, estimatedVsSeparateMs := separateMs - projectedMs } := by
  rw [fusionCandidate_eq, Option.bind_eq_some_iff]
  refine exists_congr fun task => ?_
  constructor
  · rintro ⟨htask, h⟩
    split at h
    · cases h
    · rename_i decision hdecision
      obtain ⟨projectedMs, hprojected, h⟩ := Option.bind_eq_some_iff.mp h
      split at h
      · cases h
      · rename_i hgain
        exact ⟨decision, projectedMs, htask, hdecision, hprojected, Bool.eq_false_iff.mpr hgain, (Option.some.inj h).symm⟩
  · rintro ⟨decision, projectedMs, htask, hdecision, hprojected, hgain, rfl⟩
    refine ⟨htask, ?_⟩
    rw [hdecision]
    dsimp only
    rw [hprojected, Option.bind_some, hgain]
    rfl

/-- One round of the loop over the prefix lengths. -/
def fusionRound (e : Env) (chain : List (LogicalRoleSpec F)) (dependencyInputs : List ObjectId)
    (context : FusionContext F) (separateMs : F) (best : Option (ReadyFusionSelection F)) (k : Nat) :
    Option (Option (ReadyFusionSelection F)) :=
  (separateChainPaths ((e.sub k).sub 0) (chain.take k) dependencyInputs context).bind fun separate =>
    match separate.bestCrossResource with
    | none => some best
    | some cross =>
      if cross.hasFusionTriggerEdge then
        some (bestFusionOfPrefix ((e.sub k).sub 1) chain k dependencyInputs context separateMs cross.crossTransferMs best)
      else some best

theorem fusionSearch_eq (separateMs : F) (prefixLens : List Nat) :
    fusionSearch e chain dependencyInputs context separateMs prefixLens =
      prefixLens.foldlM (fusionRound e chain dependencyInputs context separateMs) none := by
  unfold fusionSearch
  rfl

/-- A selection that the search offers in the round of a prefix: the fused task of a choice for it. -/
def OfferedAt (e : Env) (chain : List (LogicalRoleSpec F)) (dependencyInputs : List ObjectId)
    (context : FusionContext F) (separateMs : F) (k : Nat) (selected : ReadyFusionSelection F) : Prop :=
  ∃ paths cross entry,
    separateChainPaths ((e.sub k).sub 0) (chain.take k) dependencyInputs context = some paths ∧
    paths.bestCrossResource = some cross ∧ cross.hasFusionTriggerEdge = true ∧
    entry ∈ (fusedImplementationChoices (chain.take k)).zipIdx ∧
    fusionCandidate (((e.sub k).sub 1).sub entry.2) chain k dependencyInputs context separateMs cross.crossTransferMs
      entry.1 = some selected

/-- A selection that the search offers. -/
def Offered (e : Env) (chain : List (LogicalRoleSpec F)) (dependencyInputs : List ObjectId) (context : FusionContext F)
    (selected : ReadyFusionSelection F) : Prop :=
  ∃ full k, separateChainPaths (e.sub 0) chain dependencyInputs context = some full ∧ 2 ≤ k ∧
    k ≤ fusablePrefixLen chain ∧ OfferedAt (e.sub 1) chain dependencyInputs context full.best.totalMs k selected

/-- The totals of the feasible ways through a chain. -/
def chainTotals (e : Env) (context : FusionContext F) (dependencyInputs : List ObjectId)
    (chain : List (LogicalRoleSpec F)) : Set F :=
  {total | ∃ way, Assigns context chain way ∧ chainTotal e context dependencyInputs way = some total}

/-- The totals of the feasible ways through the rest of a chain, after `bytes` bytes were made on `previous`. -/
def tailTotals (e : Env) (context : FusionContext F) (bytes : UInt64) (previous : ResourceId)
    (roles : List (LogicalRoleSpec F)) : Set F :=
  {total | ∃ way, Assigns context roles way ∧ tailTotal e context (F64.ofNat 0) bytes previous way = some total}

section Exact

variable {context : FusionContext ℚ} {chain : List (LogicalRoleSpec ℚ)} {selected : ReadyFusionSelection ℚ}
  {best : Option (ReadyFusionSelection ℚ)} {C : ReadyFusionSelection ℚ → Prop}

/-- The comparison of two selections goes by their savings first. -/
theorem fusionCandidateIsBetter_spec (candidate : ReadyFusionSelection ℚ) (best : Option (ReadyFusionSelection ℚ)) :
    (fusionCandidateIsBetter candidate best = true → ∀ current, best = some current →
      current.estimatedVsSeparateMs ≤ candidate.estimatedVsSeparateMs) ∧
    (¬fusionCandidateIsBetter candidate best = true → ∃ current, best = some current ∧
      candidate.estimatedVsSeparateMs ≤ current.estimatedVsSeparateMs) := by
  cases best with
  | none => exact ⟨fun _ current hnone => (Option.some_ne_none _ hnone.symm).elim, fun h => absurd rfl h⟩
  | some current =>
    have hcurrent : ∀ {P : ReadyFusionSelection ℚ → Prop}, P current → ∀ b, some current = some b → P b := by
      rintro P h b ⟨⟩
      exact h
    unfold fusionCandidateIsBetter
    dsimp only
    rcases totalCmp_cases candidate.estimatedVsSeparateMs current.estimatedVsSeparateMs with
      ⟨hcmp, hlt⟩ | ⟨hcmp, heq⟩ | ⟨hcmp, hgt⟩
    · rw [hcmp]
      exact ⟨fun h => absurd h Bool.false_ne_true, fun _ => ⟨current, rfl, hlt.le⟩⟩
    · exact ⟨fun _ => hcurrent heq.ge, fun _ => ⟨current, rfl, heq.le⟩⟩
    · rw [hcmp]
      exact ⟨fun _ => hcurrent hgt.le, fun h => absurd rfl h⟩

theorem bestFusionOfPrefix_best {k : Nat} {separateMs avoidedMs : ℚ}
    (h : BestOf ReadyFusionSelection.estimatedVsSeparateMs C best) :
    BestOf ReadyFusionSelection.estimatedVsSeparateMs
      (fun selected => C selected ∨ ∃ entry ∈ (fusedImplementationChoices (chain.take k)).zipIdx,
        fusionCandidate (e.sub entry.2) chain k dependencyInputs context separateMs avoidedMs entry.1 = some selected)
      (bestFusionOfPrefix e chain k dependencyInputs context separateMs avoidedMs best) := by
  unfold bestFusionOfPrefix
  refine foldl_gathers (I := BestOf ReadyFusionSelection.estimatedVsSeparateMs)
    (D := fun (entry : FusedImplementationChoice ℚ × Nat) selected => fusionCandidate (e.sub entry.2) chain k
      dependencyInputs context separateMs avoidedMs entry.1 = some selected) _ ?_ h
  rintro ⟨choice, i⟩ - C best h
  dsimp only
  cases fusionCandidate (e.sub i) chain k dependencyInputs context separateMs avoidedMs choice with
  | none => exact h.congr fun selected => by simp
  | some candidate =>
    obtain ⟨htaken, hdropped⟩ := fusionCandidateIsBetter_spec candidate best
    exact (h.offer htaken hdropped).congr fun selected => by simp [eq_comm]

theorem fusionRound_best {k : Nat} {separateMs : ℚ}
    (hsome : (separateChainPaths ((e.sub k).sub 0) (chain.take k) dependencyInputs context).isSome = true)
    (h : BestOf ReadyFusionSelection.estimatedVsSeparateMs C best) :
    ∃ next, fusionRound e chain dependencyInputs context separateMs best k = some next ∧
      BestOf ReadyFusionSelection.estimatedVsSeparateMs
        (fun selected => C selected ∨ OfferedAt e chain dependencyInputs context separateMs k selected) next := by
  obtain ⟨paths, hpaths⟩ := Option.isSome_iff_exists.mp hsome
  have hat : ∀ selected, OfferedAt e chain dependencyInputs context separateMs k selected ↔
      ∃ cross entry, paths.bestCrossResource = some cross ∧ cross.hasFusionTriggerEdge = true ∧
        entry ∈ (fusedImplementationChoices (chain.take k)).zipIdx ∧
        fusionCandidate (((e.sub k).sub 1).sub entry.2) chain k dependencyInputs context separateMs cross.crossTransferMs
          entry.1 = some selected := fun selected => by simp [OfferedAt, hpaths]
  unfold fusionRound
  rw [hpaths, Option.bind_some]
  cases hcross : paths.bestCrossResource with
  | none => exact ⟨best, rfl, h.congr fun selected => by simp [hat, hcross]⟩
  | some cross =>
    by_cases htrigger : cross.hasFusionTriggerEdge = true
    · refine ⟨_, if_pos htrigger, (bestFusionOfPrefix_best h).congr fun selected => ?_⟩
      simp [hat, hcross, htrigger]
    · exact ⟨best, if_neg htrigger, h.congr fun selected => by simp [hat, hcross, htrigger]⟩

/-- What the search selects is the best of what it offers. -/
theorem selectReadyFusion_best (hnew : NamesNew e chain) :
    BestOf ReadyFusionSelection.estimatedVsSeparateMs (Offered e chain dependencyInputs context)
      (selectReadyFusion e chain dependencyInputs context) := by
  unfold selectReadyFusion
  split
  · rename_i hshort
    refine bestOf_none.congr fun selected => iff_of_false id ?_
    rintro ⟨full, k, -, htwo, hk, -⟩
    omega
  · cases hfull : separateChainPaths (e.sub 0) chain dependencyInputs context with
    | none =>
      refine bestOf_none.congr fun selected => iff_of_false id ?_
      rintro ⟨full, k, hsome, -⟩
      rw [hfull] at hsome
      cases hsome
    | some full =>
      have hsome : (separateChainPaths (e.sub 0) chain dependencyInputs context).isSome = true := by rw [hfull]; rfl
      -- no round fails: every prefix has a separate placement, because the chain has one
      obtain ⟨best, hbest, hall⟩ := foldlM_gathers (I := BestOf ReadyFusionSelection.estimatedVsSeparateMs)
        (D := OfferedAt (e.sub 1) chain dependencyInputs context full.best.totalMs)
        (f := fusionRound (e.sub 1) chain dependencyInputs context full.best.totalMs)
        (List.range' 2 (fusablePrefixLen chain - 1))
        (fun k hk C best h => fusionRound_best (separateChainPaths_take (hnew.sub 0) (((hnew.sub 1).sub k).sub 0) hsome
          (by have := List.mem_range'_1.mp hk; omega)) h) bestOf_none
      rw [Option.bind_eq_bind, Option.bind_some, fusionSearch_eq, hbest]
      refine hall.congr fun selected => ?_
      simp only [false_or, Offered, hfull, Option.some.injEq, exists_and_left, exists_eq_left']
      refine exists_congr fun k => ?_
      rw [List.mem_range'_1]
      constructor
      · rintro ⟨⟨htwo, hk⟩, hoffered⟩
        exact ⟨htwo, by omega, hoffered⟩
      · rintro ⟨htwo, hk, hoffered⟩
        exact ⟨⟨htwo, by omega⟩, hoffered⟩

/-- The projected total: what the fused task costs and the least that the rest of the chain costs after it. -/
theorem projectedTotal_least (hnew : NamesNew e chain) (hnew₀ : NamesNew e' chain) {k : Nat}
    {implementations : List (RoleImplementation ℚ)} {last : RoleImplementation ℚ}
    (hlast : implementations.getLast? = some last) {decision : PlacementDecision ℚ} {projectedMs : ℚ}
    (h : projectedTotal e chain k (implementations.map (·.task)) context decision = some projectedMs) :
    ∃ rest, IsLeast (tailTotals e' context (lastOutputBytes implementations) decision.resourceId (chain.drop k)) rest ∧
      projectedMs = decision.cost.totalMs + rest := by
  have hbytes : lastOutputBytes implementations = last.task.cost.outputBytes := by rw [lastOutputBytes, hlast]; rfl
  unfold projectedTotal at h
  split at h
  · rename_i hall
    cases h
    rw [hall, List.drop_length]
    refine ⟨0, ⟨⟨[], .nil, rfl⟩, ?_⟩, (add_zero _).symm⟩
    rintro rest ⟨way, hassigns, htotal⟩
    cases hassigns
    exact (Option.some.inj htotal).le
  · rw [List.getLast?_map, hlast] at h
    have hsub := List.drop_subset k chain
    rw [hbytes]
    exact bestChainTailTotal_least ((hnew.sub 1).of_subset hsub) (hnew₀.of_subset hsub) h

/-- There is a projected total when the rest of the chain has a feasible way and does not get stuck. -/
theorem exists_projectedTotal (hnew : NamesNew e chain) (hnew₀ : NamesNew e' chain) {k : Nat}
    {implementations : List (RoleImplementation ℚ)} {last : RoleImplementation ℚ}
    (hlast : implementations.getLast? = some last) {decision : PlacementDecision ℚ} {rest : ℚ}
    (hrest : rest ∈ tailTotals e' context (lastOutputBytes implementations) decision.resourceId (chain.drop k))
    (hfree : ¬GetsStuck e' context (lastOutputBytes implementations) decision.resourceId (chain.drop k)) :
    ∃ projectedMs, projectedTotal e chain k (implementations.map (·.task)) context decision = some projectedMs := by
  have hbytes : lastOutputBytes implementations = last.task.cost.outputBytes := by rw [lastOutputBytes, hlast]; rfl
  rw [hbytes] at hrest hfree
  unfold projectedTotal
  split
  · exact ⟨_, rfl⟩
  · rw [List.getLast?_map, hlast]
    obtain ⟨way, hassigns, htotal⟩ := hrest
    have hsub := List.drop_subset k chain
    have htotal' : tailTotal e' context (decision.cost.totalMs + 0) last.task.cost.outputBytes decision.resourceId way =
        some (decision.cost.totalMs + rest) := by
      rw [tailTotal_add]
      exact congrArg (Option.map _) htotal
    rw [add_zero] at htotal'
    exact Option.isSome_iff_exists.mp
      ((bestChainTailTotal_isSome ((hnew.sub 1).of_subset hsub) (hnew₀.of_subset hsub) _ _ _).mpr
        ⟨⟨way, _, hassigns, htotal'⟩, hfree⟩)

/-- What a fused prefix saves: the least cost of the chain run separately, less what the fused task and then the rest of
the chain cost. -/
def Saves (e : Env) (context : FusionContext ℚ) (dependencyInputs : List ObjectId) (chain : List (LogicalRoleSpec ℚ))
    (implementations : List (RoleImplementation ℚ)) (resource : ResourceId) (cost value : ℚ) : Prop :=
  ∃ separate rest, IsLeast (chainTotals e context dependencyInputs chain) separate ∧
    IsLeast (tailTotals e context (lastOutputBytes implementations) resource (chain.drop implementations.length)) rest ∧
    value = separate - (cost + rest)

/-- A selection that keeps the program's promises. -/
structure SafeFusion (e : Env) (context : FusionContext ℚ) (dependencyInputs : List ObjectId)
    (chain : List (LogicalRoleSpec ℚ)) (selected : ReadyFusionSelection ℚ)
    (implementations : List (RoleImplementation ℚ)) (resource : ResourceDescriptor ℚ) : Prop where
  names : selected.implementations = implementations.map (·.name)
  two : 2 ≤ implementations.length
  length : implementations.length ≤ chain.length
  chosen : Chosen (chain.take implementations.length) implementations
  fusable : ∀ role ∈ chain.take implementations.length, ∀ implementation ∈ role.implementations,
    implementation.task.effects = .pure ∧ implementation.task.artifact.startsWith "builtin:" = true
  pure : selected.task.effects = .pure
  stages : ∃ stages, selected.task.pipeline = some ⟨stages⟩ ∧
    List.Forall₂ (fun implementation stage => stage.artifact = implementation.task.artifact ∧
      stage.entrypoint = implementation.task.entrypoint ∧ stage.arguments = implementation.task.arguments)
      implementations stages
  listed : resource ∈ context.resources
  selectedOn : resource.id = selected.resourceId
  supports : ∀ implementation ∈ implementations, resource.supports implementation.task.requirements = true
  cost : placementCost context.scheduler selected.task resource context.objects context.topology = some selected.cost
  gain : 0 ≤ selected.estimatedVsSeparateMs
  saves : Saves e context dependencyInputs chain implementations selected.resourceId selected.cost.totalMs
    selected.estimatedVsSeparateMs

theorem Offered.safe (hnew : NamesNew e chain) (h : Offered e chain dependencyInputs context selected) :
    ∃ implementations resource, SafeFusion e context dependencyInputs chain selected implementations resource := by
  obtain ⟨full, k, hfull, htwo, hk, paths, cross, entry, -, -, -, hentry, hcandidate⟩ := h
  obtain ⟨task, decision, projectedMs, htask, hdecision, hprojected, hgain, rfl⟩ := fusionCandidate_iff.mp hcandidate
  obtain ⟨implementations, hchosen, hchoice⟩ :=
    mem_fusedImplementationChoices.mp (List.fst_mem_of_mem_zipIdx hentry)
  obtain ⟨requirements, hrequirements, hentryis⟩ := Option.map_eq_some_iff.mp hchoice
  rw [← hentryis] at htask hprojected
  have hlength : implementations.length = k := by
    have hle := fusablePrefixLen_le chain
    rw [← hchosen.length_eq, List.length_take]
    omega
  subst hlength
  obtain ⟨resource, hmem, hid, hcost⟩ := choose_ok hdecision
  obtain ⟨hpure, -, -, -, ⟨stages, hpipeline, hstages⟩, -⟩ := fusedPipelineTask_run htask
  have hfused : FusedOn ((((e.sub 1).sub implementations.length).sub 1).sub entry.2 |>.sub 0) context dependencyInputs
      implementations resource decision.cost :=
    ⟨task, by rw [fusedTask, hchoice, Option.bind_some, ← hentryis]; exact htask, hcost⟩
  obtain ⟨last, hlast⟩ : ∃ last, implementations.getLast? = some last :=
    ⟨_, List.getLast?_eq_some_getLast (List.ne_nil_of_length_pos (by omega))⟩
  obtain ⟨rest, hrest, rfl⟩ := projectedTotal_least
    (((((hnew.sub 1).sub implementations.length).sub 1).sub entry.2)) hnew hlast hprojected
  refine ⟨implementations, resource, ?_⟩
  exact {
    names := by rw [← hentryis]
    two := htwo
    length := hk.trans (fusablePrefixLen_le chain)
    chosen := hchosen
    fusable := fun role hrole implementation himplementation => by
      have := mem_fusablePrefix hk hrole implementation himplementation
      simpa [fusableTemplate] using this
    pure := hpure
    stages := ⟨stages, hpipeline, List.forall₂_map_left_iff.mp hstages⟩
    listed := hmem
    selectedOn := hid
    supports := fun implementation himplementation => (hfused.parts.1 implementation himplementation).1
    cost := hcost
    gain := le_of_not_gt (of_decide_eq_false hgain)
    saves := ⟨_, rest, (separateChainPaths_least (hnew.sub 0) hnew hfull).1, hrest, rfl⟩ }

/-! ## What the selection promises -/

/-- **Safe fusion.** What the search selects for a chain is a Pure pipeline of one implementation for each role of a
prefix of Pure builtin roles, on a resource that has what each of them asks for; it saves what it claims to save, and
that is not negative. -/
theorem fusion_selection_safe (e : Env) (context : FusionContext ℚ) (dependencyInputs : List ObjectId)
    (chain : List (LogicalRoleSpec ℚ)) (hnew : NamesNew e chain) {selected : ReadyFusionSelection ℚ}
    (h : selectReadyFusion e chain dependencyInputs context = some selected) :
    ∃ implementations resource, SafeFusion e context dependencyInputs chain selected implementations resource :=
  ((selectReadyFusion_best hnew).real selected h).safe hnew

def nearResource : ResourceDescriptor ℚ := { sampleResource 1 with startupDelayMs := 50 }

/-- A slower resource, the only one with a feature. -/
def distantResource : ResourceDescriptor ℚ :=
  { sampleResource 2 with startupDelayMs := 50, performanceScore := 1 / 2, features := {"gpu"} }

def distantContext : FusionContext ℚ where
  scheduler := .default
  advisor := .default
  resources := [nearResource, distantResource]
  objects := ∅
  topology := ⟨[⟨⟨1⟩, ⟨2⟩, 30, 1⟩]⟩

/-- The last role needs the feature. -/
def distantChain : List (LogicalRoleSpec ℚ) :=
  [sampleRole "first" 8, sampleRole "second" 8,
    { sampleRole "third" 8 with
      implementations := [⟨"plain", ⟨"wasi:/third", "run", [], [], { requiredFeatures := {"gpu"} }, .pure, ⟨1, 8⟩⟩⟩] }]

theorem namesNew_distant : NamesNew sampleNames distantChain :=
  namesNew_of_no_inputs (by simp [distantChain, sampleRole])

theorem fusion_selection_sample : ∃ selected implementations resource,
    selectReadyFusion sampleNames distantChain [] distantContext = some selected ∧
    SafeFusion sampleNames distantContext [] distantChain selected implementations resource := by
  have hsome : (selectReadyFusion sampleNames distantChain [] distantContext).isSome = true := by decide +kernel
  obtain ⟨selected, hselected⟩ := Option.isSome_iff_exists.mp hsome
  obtain ⟨implementations, resource, hsafe⟩ :=
    fusion_selection_safe sampleNames distantContext [] distantChain namesNew_distant hselected
  exact ⟨selected, implementations, resource, hselected, hsafe⟩

/-! ## Options -/

/-- The prefix of this length passes the trigger test of the run. -/
def Triggers (e : Env) (context : FusionContext ℚ) (dependencyInputs : List ObjectId)
    (chain : List (LogicalRoleSpec ℚ)) (k : Nat) : Prop :=
  ∃ paths cross, separateChainPaths (((e.sub 1).sub k).sub 0) (chain.take k) dependencyInputs context = some paths ∧
    paths.bestCrossResource = some cross ∧ cross.hasFusionTriggerEdge = true

/-- A way to fuse a prefix of the chain: implementations whose requirements combine for a fusible prefix that passes the
trigger test, a resource on which their fused task is feasible, and what that saves. -/
structure FusionOption (e : Env) (context : FusionContext ℚ) (dependencyInputs : List ObjectId)
    (chain : List (LogicalRoleSpec ℚ)) (implementations : List (RoleImplementation ℚ)) (resource : ResourceDescriptor ℚ)
    (cost : PlacementBreakdown ℚ) (value : ℚ) : Prop where
  two : 2 ≤ implementations.length
  fusable : implementations.length ≤ fusablePrefixLen chain
  triggers : Triggers e context dependencyInputs chain implementations.length
  chosen : Chosen (chain.take implementations.length) implementations
  listed : resource ∈ context.resources
  fused : FusedOn e context dependencyInputs implementations resource cost
  saves : Saves e context dependencyInputs chain implementations resource.id cost.totalMs value

/-- The scheduler puts the fused task on this resource. -/
def ScheduledOn (e : Env) (context : FusionContext ℚ) (dependencyInputs : List ObjectId)
    (implementations : List (RoleImplementation ℚ)) (resource : ResourceDescriptor ℚ) (cost : PlacementBreakdown ℚ) :
    Prop :=
  ∃ task, fusedTask e implementations dependencyInputs = some task ∧
    context.scheduler.choose task context.resources context.objects context.topology = .ok ⟨resource.id, cost⟩

/-- The search offers every option that is no loss and where the scheduler puts the fused task. -/
theorem FusionOption.offered (hnew : NamesNew e chain) {implementations : List (RoleImplementation ℚ)}
    {resource : ResourceDescriptor ℚ} {cost : PlacementBreakdown ℚ} {value : ℚ}
    (h : FusionOption e context dependencyInputs chain implementations resource cost value)
    (hscheduled : ScheduledOn e context dependencyInputs implementations resource cost)
    (hfree : ¬ChainGetsStuck e context dependencyInputs chain) (hvalue : 0 ≤ value) :
    ∃ selected, Offered e chain dependencyInputs context selected ∧ selected.estimatedVsSeparateMs = value := by
  obtain ⟨separate, rest, hseparate, hrest, rfl⟩ := h.saves
  obtain ⟨paths, cross, hpaths, hcross, htrigger⟩ := h.triggers
  obtain ⟨way, hassigns, htotal⟩ := hseparate.1
  obtain ⟨full, hfull⟩ := Option.isSome_iff_exists.mp
    ((separateChainPaths_isSome (hnew.sub 0) hnew).mpr ⟨⟨way, separate, hassigns, htotal⟩, hfree⟩)
  have hbest : full.best.totalMs = separate := (separateChainPaths_least (hnew.sub 0) hnew hfull).1.unique hseparate
  obtain ⟨task, htask, hdecision⟩ := hscheduled
  obtain ⟨choice, hchoice, hpipeline⟩ := Option.bind_eq_some_iff.mp htask
  obtain ⟨i, hi⟩ := exists_mem_zipIdx (mem_fusedImplementationChoices.mpr ⟨implementations, h.chosen, hchoice⟩)
  obtain ⟨requirements, hrequirements, hchoiceis⟩ := Option.map_eq_some_iff.mp hchoice
  obtain ⟨last, hlast⟩ : ∃ last, implementations.getLast? = some last :=
    ⟨_, List.getLast?_eq_some_getLast (List.ne_nil_of_length_pos (by have := h.two; omega))⟩
  -- the world of the round in which the choice comes up
  generalize hround : (((e.sub 1).sub implementations.length).sub 1).sub i = round
  have hnew' : NamesNew round chain := hround ▸ (((hnew.sub 1).sub _).sub 1).sub i
  have hstuck := h.fused.not_stuck h.listed hnew h.chosen (by have := h.two; omega) hfree
  obtain ⟨projectedMs, hprojected⟩ : ∃ projectedMs, projectedTotal round chain implementations.length
      (implementations.map (·.task)) context ⟨resource.id, cost⟩ = some projectedMs :=
    exists_projectedTotal hnew' hnew hlast hrest.1 hstuck
  obtain ⟨rest', hrest', rfl⟩ := projectedTotal_least hnew' hnew hlast hprojected
  obtain rfl := hrest'.unique hrest
  refine ⟨_, ⟨full, implementations.length, hfull, h.two, h.fusable, paths, cross, (choice, i), hpaths, hcross, htrigger,
    hi, fusionCandidate_iff.mpr ⟨{ task with id := TaskId.new (round.sub 0) }, ⟨resource.id, cost⟩,
      cost.totalMs + rest', ?_, ?_, ?_, ?_, rfl⟩⟩, ?_⟩
  · rw [hround, fusedPipelineTask_env e, hpipeline]
    rfl
  · rw [choose_id, hdecision]
  · rw [hround, ← hchoiceis]
    exact hprojected
  · rw [hbest]
    exact decide_eq_false (not_lt.mpr hvalue)
  · dsimp only
    rw [hbest]

theorem tailTotals_nil (bytes : UInt64) (previous : ResourceId) : tailTotals e context bytes previous [] = {0} := by
  refine Set.eq_singleton_iff_unique_mem.mpr ⟨⟨[], .nil, rfl⟩, ?_⟩
  rintro total ⟨way, hassigns, htotal⟩
  cases hassigns
  exact (Option.some.inj htotal).symm

/-- When the whole chain is fused, the scheduler's resource saves no less than any other. -/
theorem FusionOption.scheduled {implementations : List (RoleImplementation ℚ)}
    {resource : ResourceDescriptor ℚ} {cost : PlacementBreakdown ℚ} {value : ℚ}
    (h : FusionOption e context dependencyInputs chain implementations resource cost value)
    (hwhole : implementations.length = chain.length) : ∃ resource' cost' value',
      FusionOption e context dependencyInputs chain implementations resource' cost' value' ∧
      ScheduledOn e context dependencyInputs implementations resource' cost' ∧ value ≤ value' := by
  obtain ⟨task, htask, hcost⟩ := h.fused
  obtain ⟨decision, hdecision⟩ := exists_choose h.listed hcost
  obtain ⟨resource', hlisted, hid, hcost'⟩ := choose_ok hdecision
  have hle := choose_le hdecision h.listed hcost
  obtain ⟨separate, rest, hseparate, hrest, rfl⟩ := h.saves
  rw [hwhole, List.drop_length, tailTotals_nil] at hrest
  obtain rfl : rest = 0 := hrest.1
  refine ⟨resource', decision.cost, separate - (decision.cost.totalMs + 0), ?_, ⟨task, htask, by rw [hdecision, hid]⟩, ?_⟩
  · refine { h with listed := hlisted, fused := ⟨task, htask, hcost'⟩, saves := ⟨separate, 0, hseparate, ?_, rfl⟩ }
    rw [hwhole, List.drop_length, tailTotals_nil]
    exact isLeast_singleton
  · exact sub_le_sub_left (add_le_add_left hle 0) separate

/-- **The best prefix.** No prefix and no choice of implementations for it saves more than the selection does, with the
fused task on the resource that the scheduler chooses for it, or on any resource if it is the whole chain; and when one
of these is no loss, there is a selection, unless the computation over the chain gets stuck. -/
theorem fusion_prefix_maximal (e : Env) (context : FusionContext ℚ) (dependencyInputs : List ObjectId)
    (chain : List (LogicalRoleSpec ℚ)) (hnew : NamesNew e chain) :
    (∀ selected, selectReadyFusion e chain dependencyInputs context = some selected →
      ∀ implementations resource cost value,
        FusionOption e context dependencyInputs chain implementations resource cost value →
        ScheduledOn e context dependencyInputs implementations resource cost ∨ implementations.length = chain.length →
        value ≤ selected.estimatedVsSeparateMs) ∧
    (¬ChainGetsStuck e context dependencyInputs chain →
      (∃ implementations resource cost value,
        FusionOption e context dependencyInputs chain implementations resource cost value ∧
        (ScheduledOn e context dependencyInputs implementations resource cost ∨
          implementations.length = chain.length) ∧ 0 ≤ value) →
      (selectReadyFusion e chain dependencyInputs context).isSome = true) := by
  have hbest : BestOf ReadyFusionSelection.estimatedVsSeparateMs (Offered e chain dependencyInputs context)
      (selectReadyFusion e chain dependencyInputs context) := selectReadyFusion_best hnew
  -- the search offers something that saves as much
  have hoffers : ¬ChainGetsStuck e context dependencyInputs chain → ∀ {implementations resource cost value},
      FusionOption e context dependencyInputs chain implementations resource cost value →
      ScheduledOn e context dependencyInputs implementations resource cost ∨ implementations.length = chain.length →
      0 ≤ value → ∃ found, selectReadyFusion e chain dependencyInputs context = some found ∧
        value ≤ found.estimatedVsSeparateMs := by
    intro hfree implementations resource cost value hoption hwhere hvalue
    rcases hwhere with hscheduled | hwhole
    · obtain ⟨offered, hoffered, rfl⟩ := hoption.offered hnew hscheduled hfree hvalue
      exact hbest.covered offered hoffered
    · obtain ⟨resource', cost', value', hoption', hscheduled, hle⟩ := hoption.scheduled hwhole
      obtain ⟨offered, hoffered, rfl⟩ := hoption'.offered hnew hscheduled hfree (hvalue.trans hle)
      obtain ⟨found, hfound, hle'⟩ := hbest.covered offered hoffered
      exact ⟨found, hfound, hle.trans hle'⟩
  constructor
  · intro selected hselected implementations resource cost value hoption hwhere
    by_cases hvalue : 0 ≤ value
    · obtain ⟨full, -, hfull, -⟩ := hbest.real selected hselected
      have hfree := ((separateChainPaths_isSome (hnew.sub 0) hnew).mp (by rw [hfull]; rfl)).2
      obtain ⟨found, hfound, hle⟩ := hoffers hfree hoption hwhere hvalue
      obtain rfl := Option.some.inj (hselected.symm.trans hfound)
      exact hle
    · obtain ⟨_, _, hsafe⟩ := (hbest.real selected hselected).safe hnew
      exact (le_of_not_ge hvalue).trans hsafe.gain
  · rintro hfree ⟨implementations, resource, cost, value, hoption, hwhere, hvalue⟩
    obtain ⟨found, hfound, -⟩ := hoffers hfree hoption hwhere hvalue
    rw [hfound]
    rfl

/-- Runs that show an option. -/
theorem option_of_runs (hnew : NamesNew e chain) {implementations : List (RoleImplementation ℚ)}
    {resource : ResourceDescriptor ℚ} {separate rest total : ℚ} (htwo : 2 ≤ implementations.length)
    (hfusable : implementations.length ≤ fusablePrefixLen chain)
    (htriggers : ((separateChainPaths (((e.sub 1).sub implementations.length).sub 0) (chain.take implementations.length)
      dependencyInputs context).bind (·.bestCrossResource)).any (·.hasFusionTriggerEdge) = true)
    (hchosen : Chosen (chain.take implementations.length) implementations) (hlisted : resource ∈ context.resources)
    (hcost : ((fusedTask e implementations dependencyInputs).bind fun task =>
      (placementCost context.scheduler task resource context.objects context.topology).map (·.totalMs)) = some total)
    (hseparate : (separateChainPaths e chain dependencyInputs context).map (·.best.totalMs) = some separate)
    (hrest : bestChainTailTotal e (chain.drop implementations.length) (lastOutputBytes implementations) resource.id 0
      context = some rest) :
    ∃ cost, FusionOption e context dependencyInputs chain implementations resource cost (separate - (total + rest)) := by
  obtain ⟨cross, hcross, htrigger⟩ := (Option.any_eq_true ..).mp htriggers
  obtain ⟨paths, hpaths, hcross⟩ := Option.bind_eq_some_iff.mp hcross
  obtain ⟨task, htask, hcost⟩ := Option.bind_eq_some_iff.mp hcost
  obtain ⟨cost, hplaced, rfl⟩ := Option.map_eq_some_iff.mp hcost
  obtain ⟨full, hfull, rfl⟩ := Option.map_eq_some_iff.mp hseparate
  have hsub := List.drop_subset implementations.length chain
  obtain ⟨least, hleast, hsum⟩ := bestChainTailTotal_least (hnew.of_subset hsub) (hnew.of_subset hsub) hrest
  rw [zero_add] at hsum
  subst hsum
  exact ⟨cost, htwo, hfusable, ⟨paths, cross, hpaths, hcross, htrigger⟩, hchosen, hlisted, ⟨task, htask, hplaced⟩, _,
    rest, (separateChainPaths_least hnew hnew hfull).1, hleast, rfl⟩

/-- The implementations of the first two roles. -/
def distantChoice : List (RoleImplementation ℚ) := (distantChain.take 2).flatMap (·.implementations)

theorem distant_chosen : Chosen (distantChain.take distantChoice.length) distantChoice :=
  .cons (List.mem_singleton_self _) (.cons (List.mem_singleton_self _) .nil)

/-- Fusing the first two roles on the second resource saves 50 ms, as the third need not move; the search selects the
first resource, where the two roles by themselves are cheaper, and saves less. -/
theorem distant_fusion : ∃ selected implementations resource cost value,
    selectReadyFusion sampleNames distantChain [] distantContext = some selected ∧
    FusionOption sampleNames distantContext [] distantChain implementations resource cost value ∧
    selected.estimatedVsSeparateMs < value := by
  have hselected : (selectReadyFusion sampleNames distantChain [] distantContext).any
      (fun selected => decide (selected.estimatedVsSeparateMs < 156 - (54 + 52))) = true := by decide +kernel
  obtain ⟨selected, hsome, hless⟩ := (Option.any_eq_true ..).mp hselected
  obtain ⟨cost, hoption⟩ : ∃ cost, FusionOption sampleNames distantContext [] distantChain distantChoice distantResource
      cost (156 - (54 + 52)) :=
    option_of_runs namesNew_distant (by decide) (by decide +kernel) (by decide +kernel) distant_chosen
      (List.mem_cons_of_mem _ (List.mem_singleton_self _)) (by decide +kernel) (by decide +kernel) (by decide +kernel)
  exact ⟨selected, distantChoice, distantResource, cost, _, hsome, hoption, of_decide_eq_true hless⟩

/-- The scheduler puts the task of the first two roles on the first resource. -/
theorem distant_scheduled {cost : PlacementBreakdown ℚ}
    (h : FusedOn sampleNames distantContext [] distantChoice nearResource cost) :
    ScheduledOn sampleNames distantContext [] distantChoice nearResource cost := by
  obtain ⟨task, htask, hcost⟩ := h
  have hchoice : ((fusedTask sampleNames distantChoice []).bind fun task => (distantContext.scheduler.choose task
      distantContext.resources distantContext.objects distantContext.topology).toOption).map (·.resourceId) = some ⟨1⟩ := by
    decide +kernel
  rw [htask, Option.bind_some] at hchoice
  cases hdecision : distantContext.scheduler.choose task distantContext.resources distantContext.objects
      distantContext.topology with
  | error error => rw [hdecision] at hchoice; cases hchoice
  | ok decision =>
    rw [hdecision] at hchoice
    obtain ⟨resource, hlisted, hid, hcost'⟩ := choose_ok hdecision
    have hone : decision.resourceId = ⟨1⟩ := Option.some.inj hchoice
    obtain rfl : resource = nearResource := by
      rcases List.mem_cons.mp hlisted with rfl | hlisted
      · rfl
      · cases List.mem_singleton.mp hlisted
        exact absurd (hid.trans hone) (by decide)
    obtain rfl := Option.some.inj (hcost.symm.trans hcost')
    exact ⟨task, htask, by rw [hdecision, hid]⟩

/-- The first two roles are fused on the first resource, and the third runs by itself. -/
theorem fusion_prefix_sample : ∃ selected cost,
    selectReadyFusion sampleNames distantChain [] distantContext = some selected ∧
    FusionOption sampleNames distantContext [] distantChain distantChoice nearResource cost (156 - (52 + 10258 / 125)) ∧
    ScheduledOn sampleNames distantContext [] distantChoice nearResource cost ∧
    156 - (52 + 10258 / 125) ≤ selected.estimatedVsSeparateMs := by
  obtain ⟨cost, hoption⟩ : ∃ cost, FusionOption sampleNames distantContext [] distantChain distantChoice nearResource cost
      (156 - (52 + 10258 / 125)) :=
    option_of_runs namesNew_distant (by decide) (by decide +kernel) (by decide +kernel) distant_chosen
      (List.mem_cons_self ..) (by decide +kernel) (by decide +kernel) (by decide +kernel)
  have hscheduled := distant_scheduled hoption.fused
  have hpaths : (separateChainPaths sampleNames distantChain [] distantContext).isSome = true := by decide +kernel
  have hfree := ((separateChainPaths_isSome namesNew_distant namesNew_distant).mp hpaths).2
  obtain ⟨hbest, hexists⟩ := fusion_prefix_maximal sampleNames distantContext [] distantChain namesNew_distant
  obtain ⟨selected, hselected⟩ := Option.isSome_iff_exists.mp
    (hexists hfree ⟨distantChoice, nearResource, cost, _, hoption, .inl hscheduled, by decide +kernel⟩)
  exact ⟨selected, cost, hselected, hoption, hscheduled,
    hbest selected hselected distantChoice nearResource cost _ hoption (.inl hscheduled)⟩

end Exact

end Plurifold
