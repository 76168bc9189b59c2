import Plurifold.Fabric.State
import Plurifold.Lib.List
import Plurifold.Planner.ShardSearch

/-!
# What the planner selects, and that the fabric accepts it

The four selections of the planner (one task, shards, a fused pipeline, a level of reducers) draw up tasks from the
templates of a job; `validateTask` checks every task before it is stored. For each selection: which template and which
inputs its tasks come from, that their identifiers are new, and that they are accepted.

Singles, shards and reducers are always accepted. A fused pipeline is accepted unless one of its templates has an
entrypoint other than `run`: the planner fuses Pure builtins and does not look at the entrypoint. `FusionSafe` says of
a job that no such template can end up in a pipeline.
-/

namespace Plurifold

open Lib

variable {F : Type}

/-! ## Tasks made from templates -/

/-- The task was drawn up from a template, with a new identifier. -/
structure MadeFrom (e : Env) (template : TaskTemplate F) (dependencyInputs : List ObjectId) (task : TaskSpec F) :
    Prop where
  minted : e.Mints task.id.uuid
  program : (task.artifact, task.entrypoint, task.arguments) =
    (template.artifact, template.entrypoint, template.arguments)
  inputs : task.inputs = template.inputs ++ dependencyInputs
  effects : task.effects = template.effects
  pipeline : task.pipeline = none

theorem madeFrom_instantiate (e : Env) (template : TaskTemplate F) (dependencyInputs : List ObjectId) :
    MadeFrom e template dependencyInputs (template.instantiate e dependencyInputs) :=
  ⟨e.mints_newUuid, rfl, rfl, rfl, rfl⟩

theorem MadeFrom.of_sub {e : Env} {i : Nat} {template : TaskTemplate F} {dependencyInputs : List ObjectId}
    {task : TaskSpec F} (h : MadeFrom (e.sub i) template dependencyInputs task) :
    MadeFrom e template dependencyInputs task := ⟨h.minted.of_sub, h.program, h.inputs, h.effects, h.pipeline⟩

/-- A task without shard context and pipeline is accepted. -/
theorem validateTask_plain {task : TaskSpec F} (hs : task.shard = none) (hp : task.pipeline = none) :
    validateTask task = .ok () := by
  simp only [validateTask, validateShard, validatePipeline, hs, hp]
  rfl

/-! ## One task -/

theorem selectReadyRole_spec [F64 F] {e : Env} {role : LogicalRoleSpec F} {dependencyInputs : List ObjectId}
    {scheduler : TopologyAwareScheduler F} {resources : List (ResourceDescriptor F)} {objects : Objects}
    {topology : TopologySnapshot F} {selected : ReadyRoleSelection F}
    (h : selectReadyRole e role dependencyInputs scheduler resources objects topology = some selected) :
    (∃ implementation ∈ role.implementations, MadeFrom e implementation.task dependencyInputs selected.task) ∧
      selected.task.shard = none := by
  let Drawn (selected : ReadyRoleSelection F) : Prop :=
    (∃ implementation ∈ role.implementations, MadeFrom e implementation.task dependencyInputs selected.task) ∧
      selected.task.shard = none
  suffices hall : ∀ selected, selectReadyRole e role dependencyInputs scheduler resources objects topology =
      some selected → Drawn selected from hall selected h
  unfold selectReadyRole
  refine List.foldlRecOn (motive := fun best => ∀ selected, best = some selected → Drawn selected) _ _
    (fun _ h => by cases h) ?_
  rintro best ih ⟨implementation, i⟩ hmem selected h
  dsimp only at h
  split at h
  · exact ih selected h
  · rcases replaced_or_kept h with rfl | h
    · exact ⟨⟨implementation, List.fst_mem_of_mem_zipIdx hmem, (madeFrom_instantiate _ _ _).of_sub⟩, rfl⟩
    · exact ih selected h

/-! ## Ranges -/

theorem rangeWithin_of_le {start length total : UInt64} (h : start.toNat + length.toNat ≤ total.toNat) :
    rangeWithin start length total = true := by
  have htotal := total.toNat_lt
  have hsum : (saturatingAdd start length).toNat = start.toNat + length.toNat := by
    rw [saturatingAdd, UInt64.toNat_ofNat']
    omega
  simp only [rangeWithin, Bool.and_eq_true, decide_eq_true_eq, UInt64.le_iff_toNat_le, hsum]
  omega

/-! ## Shards -/

theorem shard_in_range {index count : UInt32} (h : index < count) :
    ¬(decide (count = 0) || decide (count ≤ index)) = true := by
  have hlt := UInt32.lt_iff_toNat_lt.mp h
  simp only [Bool.or_eq_true, decide_eq_true_eq, not_or, UInt32.le_iff_toNat_le]
  refine ⟨fun h0 => ?_, by omega⟩
  rw [h0, UInt32.toNat_zero] at hlt
  omega

theorem concretePartition_accepted {template : TaskTemplate F} {partition : ShardPartitionSpec} {index count : UInt32}
    {objects : Objects} {concrete : TaskShardPartition} (hlt : index < count)
    (h : concretePartition template partition index count objects = some concrete) {task : TaskSpec F}
    {dependencyInputs : List ObjectId} (hinputs : task.inputs = template.inputs ++ dependencyInputs)
    (hshard : task.shard = some ⟨index, count, some concrete⟩) : validateShard task = .ok () := by
  have hin : ∀ {input : Nat} {o : ObjectId}, template.inputs[input]? = some o → input < task.inputs.length := by
    intro input o ho
    have := (List.getElem?_eq_some_iff.mp ho).1
    rw [hinputs, List.length_append]
    omega
  rw [validateShard, hshard]
  dsimp only
  rw [if_neg (shard_in_range hlt)]
  cases partition with
  | byteRange input =>
    simp only [concretePartition, Option.bind_eq_bind, Option.bind_eq_some_iff] at h
    obtain ⟨o, ho, object, -, hc⟩ := h
    cases hc
    exact if_pos (by simp [hin ho, rangeWithin_of_le (partitionBounds_le hlt)])
  | records input offsets =>
    simp only [concretePartition, Option.bind_eq_bind, Option.bind_eq_some_iff] at h
    obtain ⟨o, ho, object, -, hc⟩ := h
    split at hc
    · rename_i hvalid
      split at hc
      · simp only [Option.bind_some, Option.bind_eq_some_iff] at hc
        obtain ⟨offset, -, stop, hstop, hc⟩ := hc
        split at hc
        · rename_i hle
          cases hc
          have hbytes := (recordOffsets_of_valid hvalid).le_total hstop
          have hrange : offset.toNat + (stop - offset).toNat ≤ object.sizeBytes.toNat := by
            rw [UInt64.toNat_sub_of_le _ _ hle]
            have := UInt64.le_iff_toNat_le.mp hle
            omega
          exact if_pos (by simp [hin ho, rangeWithin_of_le (partitionBounds_le hlt), rangeWithin_of_le hrange])
        · cases hc
      · cases hc
    · cases hc

/-- A shard of a role: the template it comes from, its inputs, and its place among the shards. -/
structure ShardOf (e : Env) (role : LogicalRoleSpec F) (dependencyInputs : List ObjectId) (count : UInt32) (i : Nat)
    (selected : ReadyShardSelection F) : Prop where
  index : selected.index = UInt32.ofNat i
  made : ∃ implementation ∈ role.implementations, MadeFrom e implementation.task dependencyInputs selected.task
  shard : ∃ partition, selected.task.shard = some ⟨UInt32.ofNat i, count, partition⟩
  accepted : i < count.toNat → validateTask selected.task = .ok ()

theorem ShardOf.minted {e : Env} {role : LogicalRoleSpec F} {dependencyInputs : List ObjectId} {count : UInt32} {i : Nat}
    {selected : ReadyShardSelection F} (h : ShardOf e role dependencyInputs count i selected) :
    e.Mints selected.task.id.uuid := by
  obtain ⟨_, _, hm⟩ := h.made
  exact hm.minted

theorem instantiateShardTask_spec [F64 F] {e : Env} {template : TaskTemplate F} {dependencyInputs : List ObjectId}
    {index count : UInt32} {policy : Option (AutoShardPolicy F)} {objects : Objects} {task : TaskSpec F}
    (h : instantiateShardTask e template dependencyInputs index count policy objects = some task) :
    MadeFrom e template dependencyInputs task ∧ (∃ partition, task.shard = some ⟨index, count, partition⟩) ∧
      (index < count → validateTask task = .ok ()) := by
  unfold instantiateShardTask at h
  cases policy with
  | none =>
    cases h
    refine ⟨⟨e.mints_newUuid, rfl, rfl, rfl, rfl⟩, ⟨none, rfl⟩, fun hlt => ?_⟩
    have hshard : validateShard { template.instantiate e dependencyInputs with shard := some ⟨index, count, none⟩ } =
        .ok () := if_neg (shard_in_range hlt)
    rw [validateTask, hshard]
    rfl
  | some policy =>
    obtain ⟨partition, hpartition, rfl⟩ := Option.map_eq_some_iff.mp h
    refine ⟨⟨e.mints_newUuid, rfl, rfl, rfl, rfl⟩, ⟨some partition, rfl⟩, fun hlt => ?_⟩
    rw [validateTask, concretePartition_accepted hlt hpartition rfl rfl]
    rfl

section Shards

variable {role : LogicalRoleSpec F} {dependencyInputs : List ObjectId} {policy : Option (AutoShardPolicy F)}
  {readyMs : F} {context : ShardPlanningContext F}

variable [F64 F]

theorem ShardDrawn.shardOf {e : Env} {i : Nat} {count : UInt32} {objects : Objects} (hi : i < 2 ^ 32)
    {selected : ReadyShardSelection F} (h : ShardDrawn e role dependencyInputs count policy objects i selected) :
    ShardOf e role dependencyInputs count i selected := by
  obtain ⟨implementation, hmem, k, htask⟩ := h.task
  obtain ⟨hmade, hshard, haccepted⟩ := instantiateShardTask_spec htask
  refine ⟨h.index, ⟨implementation, hmem, hmade.of_sub⟩, hshard, fun hlt => ?_⟩
  refine haccepted (UInt32.lt_iff_toNat_lt.mpr ?_)
  rwa [UInt32.toNat_ofNat_of_lt' (by rw [UInt32.size]; omega)]

/-- The shards of a role: one for every index below the count. -/
structure ShardsOf (e : Env) (role : LogicalRoleSpec F) (dependencyInputs : List ObjectId) (count : UInt32)
    (selected : List (ReadyShardSelection F)) : Prop where
  positive : 0 < count.toNat
  each : List.Forall₂ (fun i shard => ShardOf (e.sub i) role dependencyInputs count i shard)
    (List.range count.toNat) selected

theorem chooseShards_spec {e : Env} {count : UInt32} (hpos : 0 < count.toNat) {available : Availability F}
    {selected : List (ReadyShardSelection F)}
    (h : (chooseShards e role dependencyInputs count policy readyMs available context).1 = some selected) :
    ShardsOf e role dependencyInputs count selected := by
  refine ⟨hpos, ?_⟩
  refine forall₂_imp_mem (chooseShardsLoop_drawn (Prod.ext h rfl)) fun i hi shard _ hdrawn => hdrawn.shardOf ?_
  have := List.mem_range.mp hi
  have := count.toNat_lt
  omega

theorem chooseAutoShards_spec {e : Env} {auto : AutoShardPolicy F} {available : Availability F}
    {selected : List (ReadyShardSelection F)}
    (h : (chooseAutoShards e role dependencyInputs auto readyMs available context).1 = some selected) :
    ∃ i count, ShardsOf (e.sub i) role dependencyInputs count selected := by
  obtain ⟨units, n, -, hpos, hmax, hchosen⟩ := chooseAutoShards_chosen (Prod.ext h rfl)
  have hlt := (maxAutoShards auto units).toNat_lt
  refine ⟨n, UInt32.ofNat n, chooseShards_spec ?_ (congrArg Prod.fst hchosen)⟩
  rw [UInt32.toNat_ofNat_of_lt' (by rw [UInt32.size]; omega)]
  omega

theorem selectReadyShards_spec {e : Env} {selected : List (ReadyShardSelection F)}
    (hfixed : role.shards.fixedCount ≠ some 0)
    (h : selectReadyShards e role dependencyInputs context = some selected) :
    ∃ e' count, (∀ n, e'.Mints n → e.Mints n) ∧ (e.Fresh → e'.Fresh) ∧
      ShardsOf e' role dependencyInputs count selected := by
  unfold selectReadyShards chooseRoleShards at h
  split at h
  · rename_i count hcount
    rw [hcount] at hfixed
    have hpos : 0 < count.toNat := by
      rw [Nat.pos_iff_ne_zero]
      intro h0
      exact hfixed (congrArg some (UInt32.toNat_inj.mp h0))
    exact ⟨e, count, fun _ hm => hm, id, chooseShards_spec hpos h⟩
  · obtain ⟨i, count, hshards⟩ := chooseAutoShards_spec h
    exact ⟨e.sub i, count, fun _ hm => hm.of_sub, fun hf => hf.sub i, hshards⟩

omit [F64 F] in
/-- The tasks of the shards have identifiers of their own. -/
theorem ShardsOf.nodup {e : Env} (he : e.Fresh) {count : UInt32} {selected : List (ReadyShardSelection F)}
    (h : ShardsOf e role dependencyInputs count selected) : (selected.map (·.task.id)).Nodup := by
  have hall : ∀ (indexes : List Nat) (selected : List (ReadyShardSelection F)), indexes.Nodup →
      List.Forall₂ (fun i shard => ShardOf (e.sub i) role dependencyInputs count i shard) indexes selected →
      (selected.map (·.task.id)).Nodup := by
    intro indexes selected hnodup hall
    induction hall with
    | nil => exact List.nodup_nil
    | @cons i shard indexes selected hshard hrest ih =>
      obtain ⟨hi, hnodup⟩ := List.nodup_cons.mp hnodup
      refine List.nodup_cons.mpr ⟨fun hmem => ?_, ih hnodup⟩
      obtain ⟨other, hother, hid⟩ := List.mem_map.mp hmem
      obtain ⟨k, hk, hof⟩ := forall₂_mem_right hrest hother
      have hid' : other.task.id = shard.task.id := hid
      have : k = i := he.sub_inj (hid' ▸ hof.minted) hshard.minted
      exact hi (this ▸ hk)
  exact hall _ _ List.nodup_range h.each

end Shards

/-! ## Fused pipelines -/

/-- The requirements of neighbouring implementations combine. -/
def RequirementsCombine (a b : RoleImplementation F) : Prop :=
  (combineRequirements a.task.requirements b.task.requirements).isSome

theorem combineArchitecture_right : ∀ {a b c : Option Architecture} {ab : Option Architecture},
    combineArchitecture a b = some ab → (combineArchitecture ab c).isSome → (combineArchitecture b c).isSome
  | _, none, none, _, _, _ | _, none, some _, _, _, _ | _, some _, none, _, _, _ => rfl
  | none, some b, some c, _, h, h' => by cases h; exact h'
  | some a, some b, some c, ab, h, h' => by
    change (if a = b then _ else _) = _ at h
    split at h
    · rename_i hab
      cases h
      rwa [← hab]
    · cases h

theorem combineAccelerator_right : ∀ {a b c : Option AcceleratorRequirement} {ab : Option AcceleratorRequirement},
    combineAccelerator a b = some ab → (combineAccelerator ab c).isSome → (combineAccelerator b c).isSome
  | _, none, none, _, _, _ | _, none, some _, _, _, _ | _, some _, none, _, _, _ => rfl
  | none, some b, some c, _, h, h' => by cases h; exact h'
  | some a, some b, some c, ab, h, h' => by
    change (if a.kind = b.kind then _ else _) = _ at h
    split at h
    · rename_i hab
      cases h
      change (if a.kind = c.kind then _ else _ : Option (Option AcceleratorRequirement)).isSome = true at h'
      change (if b.kind = c.kind then _ else _ : Option (Option AcceleratorRequirement)).isSome = true
      rw [← hab]
      split at h'
      · rename_i hc
        rw [if_pos hc]
        rfl
      · cases h'
    · cases h

theorem combineRequirements_isSome {a b : ResourceRequirements} : (combineRequirements a b).isSome ↔
    (combineArchitecture a.architecture b.architecture).isSome ∧
      (combineAccelerator a.accelerator b.accelerator).isSome := by
  unfold combineRequirements
  cases combineArchitecture a.architecture b.architecture <;>
    cases combineAccelerator a.accelerator b.accelerator <;> simp

/-- What combines with a combination combines with its second part. -/
theorem combineRequirements_right {a b ab c : ResourceRequirements} (hab : combineRequirements a b = some ab)
    (h : (combineRequirements ab c).isSome) : (combineRequirements b c).isSome := by
  rw [combineRequirements_isSome] at h ⊢
  obtain ⟨architecture, harch, hab⟩ := Option.bind_eq_some_iff.mp hab
  obtain ⟨accelerator, hacc, hab⟩ := Option.bind_eq_some_iff.mp hab
  cases hab
  exact ⟨combineArchitecture_right harch h.1, combineAccelerator_right hacc h.2⟩

/-- A choice of implementations, one for every role of a chain. -/
structure ChoiceOf (chain : List (LogicalRoleSpec F)) (choice : FusedImplementationChoice F)
    (implementations : List (RoleImplementation F)) : Prop where
  each : List.Forall₂ (fun role implementation => implementation ∈ role.implementations) chain implementations
  names : choice.names = implementations.map (·.name)
  tasks : choice.tasks = implementations.map (·.task)
  combine : implementations.IsChain RequirementsCombine
  /-- What combines with the whole choice combines with its last implementation. -/
  last : ∀ requirements, (combineRequirements choice.requirements requirements).isSome →
    ∀ implementation ∈ implementations.getLast?, (combineRequirements implementation.task.requirements requirements).isSome

theorem extendChoice_spec {chain : List (LogicalRoleSpec F)} {choice next : FusedImplementationChoice F}
    {implementations : List (RoleImplementation F)} (h : ChoiceOf chain choice implementations)
    {role : LogicalRoleSpec F} (hnext : next ∈ extendChoice role choice) :
    ∃ implementation, ChoiceOf (chain ++ [role]) next (implementations ++ [implementation]) := by
  obtain ⟨implementation, hmem, hnext⟩ := List.mem_filterMap.mp hnext
  obtain ⟨requirements, hreq, rfl⟩ := Option.map_eq_some_iff.mp hnext
  refine ⟨implementation, ⟨?_, by simp [h.names], by simp [h.tasks], ?_, ?_⟩⟩
  · exact List.rel_append h.each (.cons hmem .nil)
  · refine List.isChain_append.mpr ⟨h.combine, .singleton _, fun last hlast x hx => ?_⟩
    rw [List.head?_cons, Option.mem_some_iff] at hx
    subst hx
    exact h.last _ (by rw [hreq]; rfl) last hlast
  · intro other hother last hlast
    rw [List.getLast?_concat, Option.mem_some_iff] at hlast
    subst hlast
    exact combineRequirements_right hreq hother

theorem fusedImplementationChoices_spec {chain : List (LogicalRoleSpec F)} {choice : FusedImplementationChoice F}
    (h : choice ∈ fusedImplementationChoices chain) : ∃ implementations, ChoiceOf chain choice implementations := by
  have hall : ∀ (rest chosen : List (LogicalRoleSpec F)) (choices : List (FusedImplementationChoice F)),
      (∀ choice ∈ choices, ∃ implementations, ChoiceOf chosen choice implementations) →
      ∀ choice ∈ rest.foldl (fun choices role => choices.flatMap (extendChoice role)) choices,
        ∃ implementations, ChoiceOf (chosen ++ rest) choice implementations := by
    intro rest
    induction rest with
    | nil =>
      intro chosen choices hchoices choice hchoice
      rw [List.append_nil]
      exact hchoices choice hchoice
    | cons role rest ih =>
      intro chosen choices hchoices choice hchoice
      rw [List.foldl_cons] at hchoice
      have hnext : ∀ choice ∈ choices.flatMap (extendChoice role),
          ∃ implementations, ChoiceOf (chosen ++ [role]) choice implementations := by
        intro choice hchoice
        obtain ⟨before, hbefore, hchoice⟩ := List.mem_flatMap.mp hchoice
        obtain ⟨implementations, hof⟩ := hchoices before hbefore
        obtain ⟨implementation, hof⟩ := extendChoice_spec hof hchoice
        exact ⟨_, hof⟩
      have := ih (chosen ++ [role]) _ hnext choice hchoice
      rwa [List.append_assoc, List.singleton_append] at this
  cases chain with
  | nil => simp [fusedImplementationChoices] at h
  | cons first rest =>
    refine hall rest [first] _ (fun choice hchoice => ?_) choice h
    obtain ⟨implementation, hmem, rfl⟩ := List.mem_map.mp hchoice
    refine ⟨[implementation], ⟨.cons hmem .nil, rfl, rfl, .singleton _, ?_⟩⟩
    intro requirements hreq last hlast
    rw [List.getLast?_singleton, Option.mem_some_iff] at hlast
    subst hlast
    exact hreq

theorem badExternalIndex_none {inputCount : Nat} {inputs : List PipelineInput} :
    badExternalIndex inputCount inputs = none ↔ ∀ i, PipelineInput.external i ∈ inputs → i < inputCount := by
  rw [badExternalIndex, List.findSome?_eq_none_iff]
  constructor
  · intro h i hi
    by_contra hle
    have hsome := h _ hi
    dsimp only at hsome
    rw [if_pos (Nat.not_lt.mp hle)] at hsome
    cases hsome
  · intro h input hinput
    cases input with
    | previousOutput => rfl
    | external i => exact if_neg (Nat.not_le.mpr (h i hinput))

/-- A stage is accepted if it runs a builtin with entrypoint `run` and binds its inputs as its position allows. -/
theorem validateStage_ok_iff {inputCount stageIndex : Nat} {stage : TaskPipelineStage} :
    validateStage inputCount stageIndex stage = .ok () ↔
      stage.artifact.startsWith "builtin:" = true ∧ stage.entrypoint = "run" ∧
      stage.inputs.count .previousOutput = (if stageIndex = 0 then 0 else 1) ∧
      ∀ i, PipelineInput.external i ∈ stage.inputs → i < inputCount := by
  have hbind : ((decide (stageIndex = 0) && decide (stage.inputs.count .previousOutput ≠ 0)) ||
      (decide (0 < stageIndex) && decide (stage.inputs.count .previousOutput ≠ 1))) = true ↔
      ¬stage.inputs.count .previousOutput = if stageIndex = 0 then 0 else 1 := by
    by_cases h0 : stageIndex = 0
    · simp [h0]
    · simp [h0, Nat.pos_of_ne_zero h0]
  unfold validateStage
  dsimp only
  split
  · rename_i hartifact
    refine iff_of_false (fun h => by cases h) fun h => ?_
    rw [h.1] at hartifact
    cases hartifact
  rename_i hartifact
  rw [Bool.not_eq_true, Bool.not_eq_false'] at hartifact
  split
  · exact iff_of_false (fun h => by cases h) fun h => absurd h.2.1 ‹_›
  rename_i hentry
  split
  · exact iff_of_false (fun h => by cases h) fun h => absurd h.2.2.1 (hbind.mp ‹_›)
  rename_i hprevious
  rw [hbind, not_not] at hprevious
  rw [← badExternalIndex_none]
  split
  · rename_i i hbad
    refine iff_of_false (fun h => by cases h) fun h => ?_
    rw [h.2.2.2] at hbad
    cases hbad
  · exact iff_of_true rfl ⟨hartifact, not_not.mp hentry, hprevious, ‹_›⟩

/-- A pipeline task is accepted if all its stages are. -/
theorem validateTask_pipeline {task : TaskSpec F} {stages : List TaskPipelineStage} (hshard : task.shard = none)
    (hpipeline : task.pipeline = some ⟨stages⟩) (hartifact : task.artifact = "plurifold:pipeline")
    (hentry : task.entrypoint = "run") (heffects : task.effects = .pure) (hlength : 2 ≤ stages.length)
    (hstages : ∀ entry ∈ stages.zipIdx, validateStage task.inputs.length entry.2 entry.1 = .ok ()) :
    validateTask task = .ok () := by
  have hvalid : validatePipeline task = .ok () := by
    rw [validatePipeline, hpipeline]
    dsimp only
    rw [if_neg (by simp [hartifact, hentry]), if_neg (by simp [heffects]), if_neg (by omega)]
    exact forM_ok_iff.mpr hstages
  rw [validateTask, validateShard, hshard, hvalid]
  rfl

theorem count_previousOutput (indexes : List Nat) :
    (indexes.map PipelineInput.external).count .previousOutput = 0 := by
  rw [List.count_eq_zero]
  intro h
  obtain ⟨i, -, hi⟩ := List.mem_map.mp h
  cases hi

/-- The bound indexes are positions of the external inputs. -/
theorem external_lt {indexes : List Nat} {ids all : List ObjectId}
    (h : List.Forall₂ (fun i o => all[i]? = some o) indexes ids) {i : Nat}
    (hi : PipelineInput.external i ∈ indexes.map PipelineInput.external) : i < all.length := by
  obtain ⟨j, hj, hij⟩ := List.mem_map.mp hi
  cases hij
  obtain ⟨o, -, ho⟩ := forall₂_mem_right h.flip hj
  exact (List.getElem?_eq_some_iff.mp ho).1

/-- The later stages are built from their templates, with one binding of the previous output and external inputs that
lie among all of them. -/
theorem laterStages_spec : ∀ (tasks : List (TaskTemplate F)) (external : ExternalInputs), external.Indexed →
    external.1 <+: (laterStages tasks external).2.1 ∧
    ∀ stage ∈ (laterStages tasks external).1, (∃ task ∈ tasks, stage.artifact = task.artifact ∧
        stage.entrypoint = task.entrypoint) ∧ stage.inputs.count .previousOutput = 1 ∧
      ∀ i, PipelineInput.external i ∈ stage.inputs → i < (laterStages tasks external).2.1.length
  | [], external, _ => ⟨List.prefix_rfl, fun _ h => by cases h⟩
  | task :: tasks, external, h => by
    obtain ⟨hinit, hindexed, indexes, hbindings, hat⟩ := pipelineExternalBindings_spec task.inputs external h
    obtain ⟨hinit', hstages⟩ := laterStages_spec tasks _ hindexed
    refine ⟨hinit.trans hinit', fun stage hstage => ?_⟩
    rcases List.mem_cons.mp hstage with rfl | hstage
    · refine ⟨⟨task, List.mem_cons_self .., rfl, rfl⟩, ?_, fun i hi => ?_⟩
      · rw [hbindings, List.count_append, count_previousOutput]
        rfl
      · rw [hbindings] at hi
        rcases List.mem_append.mp hi with hi | hi
        · exact external_lt (hat.imp fun _ _ ho => getElem?_of_isPrefix hinit' ho) hi
        · cases List.mem_singleton.mp hi
    · obtain ⟨⟨t, ht, hfrom⟩, hrest⟩ := hstages stage hstage
      exact ⟨⟨t, List.mem_cons_of_mem _ ht, hfrom⟩, hrest⟩

variable [F64 F]

/-- The pipeline task of a chain: what its first stage reads, and that it is accepted if all its entrypoints are
`run`. -/
theorem fusedPipelineTask_spec {e : Env} {first second : TaskTemplate F} {rest : List (TaskTemplate F)}
    {dependencyInputs : List ObjectId} {requirements : ResourceRequirements} {task : TaskSpec F}
    (h : fusedPipelineTask e (first :: second :: rest) dependencyInputs requirements = some task) :
    e.Mints task.id.uuid ∧ task.effects = .pure ∧ task.shard = none ∧
    (∃ stage stages indexes, task.pipeline = some ⟨stage :: stages⟩ ∧
      (stage.artifact, stage.entrypoint, stage.arguments) = (first.artifact, first.entrypoint, first.arguments) ∧
      stage.inputs = indexes.map .external ∧
      List.Forall₂ (fun i o => task.inputs[i]? = some o) indexes (first.inputs ++ dependencyInputs)) ∧
    ((∀ template ∈ first :: second :: rest, template.artifact.startsWith "builtin:" = true ∧
      template.entrypoint = "run") → validateTask task = .ok ()) := by
  obtain ⟨-, hindexed, indexes, hbindings, hat⟩ :=
    pipelineExternalBindings_spec (first.inputs ++ dependencyInputs) ([], ∅) indexed_empty
  obtain ⟨hinit, hstages⟩ := laterStages_spec (second :: rest) _ hindexed
  have hat' := hat.imp fun _ _ ho => getElem?_of_isPrefix hinit ho
  cases h
  refine ⟨e.mints_newUuid, rfl, rfl, ⟨_, _, indexes, rfl, rfl, hbindings, hat'⟩, fun hall => ?_⟩
  have hfirst := hall first (List.mem_cons_self ..)
  have hstage : ∀ entry ∈ ((⟨first.artifact, first.entrypoint, first.arguments,
      (pipelineExternalBindings (first.inputs ++ dependencyInputs) ([], ∅)).1⟩ : TaskPipelineStage) ::
      (laterStages (second :: rest) (pipelineExternalBindings (first.inputs ++ dependencyInputs) ([], ∅)).2).1).zipIdx,
      validateStage (laterStages (second :: rest)
        (pipelineExternalBindings (first.inputs ++ dependencyInputs) ([], ∅)).2).2.1.length entry.2 entry.1 =
        .ok () := by
    rintro ⟨stage, i⟩ hmem
    rw [List.zipIdx_cons, List.mem_cons] at hmem
    rcases hmem with hmem | hmem
    · cases hmem
      refine validateStage_ok_iff.mpr ⟨hfirst.1, hfirst.2, ?_, fun i hi => ?_⟩
      · rw [hbindings, count_previousOutput]
        rfl
      · rw [hbindings] at hi
        exact external_lt hat' hi
    · obtain ⟨⟨template, htemplate, hartifact, hentry⟩, hcount, hexternal⟩ :=
        hstages stage (List.fst_mem_of_mem_zipIdx hmem)
      have hi : i ≠ 0 := by
        have := List.le_snd_of_mem_zipIdx hmem
        simp only at this
        omega
      have hrun := hall template (List.mem_cons_of_mem _ htemplate)
      exact validateStage_ok_iff.mpr ⟨hartifact ▸ hrun.1, hentry ▸ hrun.2, by rw [hcount, if_neg hi], hexternal⟩
  refine validateTask_pipeline rfl rfl rfl rfl rfl ?_ hstage
  rw [List.length_cons, List.length_cons]
  omega

/-- A fused selection: the implementations it chose for a prefix of the chain, all of Pure builtins whose requirements
combine, and the pipeline task built from them. -/
structure FusionOf (e : Env) (chain : List (LogicalRoleSpec F)) (dependencyInputs : List ObjectId)
    (selected : ReadyFusionSelection F) (implementations : List (RoleImplementation F)) : Prop where
  two : 2 ≤ implementations.length
  each : List.Forall₂ (fun role implementation => implementation ∈ role.implementations)
    (chain.take implementations.length) implementations
  fusable : ∀ role ∈ chain.take implementations.length, ∀ implementation ∈ role.implementations,
    fusableTemplate implementation.task = true
  combine : implementations.IsChain RequirementsCombine
  names : selected.implementations = implementations.map (·.name)
  task : ∃ e' requirements, (∀ n, e'.Mints n → e.Mints n) ∧
    fusedPipelineTask e' (implementations.map (·.task)) dependencyInputs requirements = some selected.task

theorem fusionCandidate_spec {e : Env} {chain : List (LogicalRoleSpec F)} {prefixLen : Nat}
    {dependencyInputs : List ObjectId} {context : FusionContext F} {separateMs avoidedMs : F}
    {choice : FusedImplementationChoice F} {selected : ReadyFusionSelection F}
    (h : fusionCandidate e chain prefixLen dependencyInputs context separateMs avoidedMs choice = some selected) :
    selected.implementations = choice.names ∧
      fusedPipelineTask (e.sub 0) choice.tasks dependencyInputs choice.requirements = some selected.task := by
  unfold fusionCandidate at h
  obtain ⟨task, htask, h⟩ := Option.bind_eq_some_iff.mp h
  split at h
  · cases h
  · rename_i decision hdecision
    have finish : ∀ projectedMs : F, (if F64.lt (separateMs - projectedMs) (F64.ofNat 0) = true then none
        else some { implementations := choice.names, task, resourceId := decision.resourceId, cost := decision.cost,
                    estimatedAvoidedTransferMs := avoidedMs, estimatedVsSeparateMs := separateMs - projectedMs }) =
        some selected → selected.implementations = choice.names ∧ selected.task = task := by
      intro projectedMs hs
      split at hs
      · cases hs
      · cases hs
        exact ⟨rfl, rfl⟩
    have hboth : selected.implementations = choice.names ∧ selected.task = task := by
      dsimp only at h
      split at h
      · exact finish _ h
      · obtain ⟨last, -, h⟩ := Option.bind_eq_some_iff.mp h
        obtain ⟨projectedMs, -, h⟩ := Option.bind_eq_some_iff.mp h
        exact finish _ h
    exact ⟨hboth.1, hboth.2 ▸ htask⟩

theorem bestFusionOfPrefix_spec {e : Env} {chain : List (LogicalRoleSpec F)} {prefixLen : Nat}
    (h2 : 2 ≤ prefixLen) (hlen : prefixLen ≤ fusablePrefixLen chain) {dependencyInputs : List ObjectId}
    {context : FusionContext F} {separateMs avoidedMs : F} {best : Option (ReadyFusionSelection F)}
    {selected : ReadyFusionSelection F}
    (h : bestFusionOfPrefix e chain prefixLen dependencyInputs context separateMs avoidedMs best = some selected) :
    best = some selected ∨ ∃ implementations, FusionOf e chain dependencyInputs selected implementations := by
  suffices hall : ∀ selected, bestFusionOfPrefix e chain prefixLen dependencyInputs context separateMs avoidedMs best =
      some selected → best = some selected ∨ ∃ implementations, FusionOf e chain dependencyInputs selected implementations
    from hall selected h
  unfold bestFusionOfPrefix
  refine List.foldlRecOn (motive := fun now => ∀ selected, now = some selected → best = some selected ∨
    ∃ implementations, FusionOf e chain dependencyInputs selected implementations) _ _ (fun _ h => .inl h) ?_
  rintro now ih ⟨choice, i⟩ hmem selected h
  dsimp only at h
  split at h
  · exact ih selected h
  · rename_i candidate hcandidate
    rcases replaced_or_kept h with rfl | h
    · right
      obtain ⟨hnames, htask⟩ := fusionCandidate_spec hcandidate
      obtain ⟨implementations, hof⟩ := fusedImplementationChoices_spec (List.fst_mem_of_mem_zipIdx hmem)
      have hlength : implementations.length = prefixLen := by
        have hle := fusablePrefixLen_le chain
        rw [← hof.each.length_eq, List.length_take]
        omega
      subst hlength
      exact ⟨implementations, h2, hof.each, fun role hrole => mem_fusablePrefix hlen hrole, hof.combine,
        hnames.trans hof.names, (e.sub i).sub 0, _, fun n hm => hm.of_sub.of_sub, hof.tasks ▸ htask⟩
    · exact ih selected h

theorem selectReadyFusion_spec {e : Env} {chain : List (LogicalRoleSpec F)} {dependencyInputs : List ObjectId}
    {context : FusionContext F} {selected : ReadyFusionSelection F}
    (h : selectReadyFusion e chain dependencyInputs context = some selected) :
    ∃ implementations, FusionOf e chain dependencyInputs selected implementations := by
  unfold selectReadyFusion at h
  split at h
  · cases h
  · obtain ⟨separate, -, h⟩ := Option.bind_eq_some_iff.mp h
    obtain ⟨best, hbest, h⟩ := Option.bind_eq_some_iff.mp h
    refine foldlM_some_inv (I := fun best => ∀ selected, best = some selected →
      ∃ implementations, FusionOf e chain dependencyInputs selected implementations) _ (fun _ h => by cases h) ?_ hbest
      selected h
    intro now prefixLen next hmem ih hnext selected hselected
    have hrange := List.mem_range'_1.mp hmem
    obtain ⟨paths, -, hnext⟩ := Option.bind_eq_some_iff.mp hnext
    split at hnext
    · cases hnext
      exact ih selected hselected
    · split at hnext
      · cases hnext
        rcases bestFusionOfPrefix_spec (by omega) (by omega) hselected with hkept | ⟨implementations, hof⟩
        · exact ih selected hkept
        · obtain ⟨e', requirements, hmints, htask⟩ := hof.task
          exact ⟨implementations, { hof with
            task := ⟨e', requirements, fun n hm => (hmints n hm).of_sub.of_sub.of_sub, htask⟩ }⟩
      · cases hnext
        exact ih selected hselected

/-! ## Levels of a reduction -/

/-- What a group of a level becomes: its one object carried on, or a task that reduces it. -/
def ItemOf (e : Env) (reduction : RoleReductionSpec F) (group : List ObjectId) : ReadyReductionItem F → Prop
  | .carry o => group = [o]
  | .reduce selected => MadeFrom e reduction.task group selected.task ∧ selected.task.shard = none

/-- The items of a level, one for every group of consecutive inputs; some group has at least two members. -/
structure LevelOf (e : Env) (reduction : RoleReductionSpec F) (inputs : List ObjectId)
    (items : List (ReadyReductionItem F)) (groups : List (List ObjectId)) : Prop where
  inputs : groups.flatten = inputs
  each : List.Forall₂ (fun entry item => ItemOf (e.sub entry.2) reduction entry.1 item) groups.zipIdx items
  progress : ∃ group ∈ groups, 2 ≤ group.length

theorem reduceGroups_spec {e : Env} {reduction : RoleReductionSpec F} {readyMs : F} {context : ShardPlanningContext F} :
    ∀ (groups : List (List ObjectId)) (i : Nat) {available available' : Availability F} {items : List (ReadyReductionItem F)},
    reduceGroups e reduction readyMs context i groups available = (some items, available') →
    List.Forall₂ (fun entry item => ItemOf (e.sub entry.2) reduction entry.1 item) (groups.zipIdx i) items
  | [], _, _, _, items, h => by
    cases h
    exact .nil
  | group :: groups, i, available, available', items, h => by
    rw [List.zipIdx_cons]
    rcases reduceGroups_cons h with ⟨object, rest, rfl, hrest, rfl⟩ | ⟨selected, rest, -, hselected, hrest, rfl⟩
    · exact .cons rfl (reduceGroups_spec groups (i + 1) hrest)
    · refine .cons ?_ (reduceGroups_spec groups (i + 1) hrest)
      show MadeFrom _ _ _ _ ∧ _
      rw [(bestReduction_spec hselected).1]
      exact ⟨madeFrom_instantiate _ _ _, rfl⟩

theorem selectReductionLevel_spec {e : Env} {reduction : RoleReductionSpec F} {inputs : List ObjectId}
    (h2 : 2 ≤ inputs.length) {readyMs : F} {available : Availability F} {context : ShardPlanningContext F}
    {items : List (ReadyReductionItem F)}
    (h : (selectReductionLevel e reduction inputs readyMs available context).1 = some items) :
    ∃ groups, LevelOf e reduction inputs items groups := by
  obtain ⟨groups, hgroups, hrun⟩ := selectReductionLevel_groups h2 (Prod.ext h rfl)
  exact ⟨groups, hgroups.flatten, reduceGroups_spec _ 0 hrun, hgroups.progress⟩

end Plurifold
