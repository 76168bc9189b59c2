import Plurifold.Fabric.Lease
import Plurifold.Fabric.Objects
import Plurifold.Fabric.Tiling
import Plurifold.Fabric.View

/-!
# How tasks are drawn up

A task that works for a role is what the definition of the job says: the role's program as it stands, a shard of it, a
pipeline of a chain of roles, or the reducer (`DrawnUp`). Role handling draws tasks up from the definition that the job
has and the objects that are known at that moment. Definitions and identities of objects do not change, so every task that
works for a role is drawn up so in every state of every run (`Made`, `final_made`), whatever else happens to it.
-/

namespace Plurifold

open Lib Attempt Fabric

variable {F : Type} {s s' : Fabric F} {j : JobId} {r : String} {t : TaskId} {definition : JobDefinition F}
  {spec : TaskSpec F} {known known' : ObjectId → Option ObjectMetadata}

/-! ## Tasks of roles -/

variable [F64 F]

/-- The context of a shard: one of a fixed number, or a part of the input that an automatic policy partitions. -/
inductive ShardPlan (known : ObjectId → Option ObjectMetadata) (role : LogicalRoleSpec F) (shard : TaskShard) : Prop
  | fixed : role.shards = .fixed shard.count → shard.partition = none → ShardPlan known role shard
  | auto {policy : AutoShardPolicy F} {o : ObjectId} {object : ObjectMetadata} {part : TaskShardPartition} :
      role.shards = .policy (.auto policy) →
      shard.count.toNat ≤ min policy.maxShards.toNat (max 1 (unitCount policy.partition object)) →
      (∀ implementation ∈ role.implementations, implementation.task.inputs[policy.partition.input]? = some o) →
      known o = some object.identity → OffsetsFit policy.partition object → shard.partition = some part →
      PartAt policy.partition object shard.count.toNat shard.index.toNat part → ShardPlan known role shard

/-- The task runs the program of a template, on its own and as a whole. -/
structure RunsWhole (spec : TaskSpec F) (template : TaskTemplate F) : Prop where
  program : (spec.artifact, spec.entrypoint, spec.arguments) = (template.artifact, template.entrypoint, template.arguments)
  pipeline : spec.pipeline = none
  shard : spec.shard = none

/-- The task is the pipeline of a chain of roles of the job, with an implementation of each. -/
structure FusedPlan (job : LogicalJobSpec F) (spec : TaskSpec F) (chain : List (LogicalRoleSpec F)) : Prop where
  roles : ∀ role ∈ chain, role ∈ job.roles
  follows : chain.IsChain (Follows job)
  made : ∃ (e : Env) (implementations : List (RoleImplementation F)) (inputs : List ObjectId)
    (requirements : ResourceRequirements), 2 ≤ implementations.length ∧
    List.Forall₂ (fun role implementation => implementation ∈ role.implementations) chain implementations ∧
    fusedPipelineTask e (implementations.map (·.task)) inputs requirements = some spec

/-- How a task that works for roles is drawn up. -/
inductive DrawnUp (known : ObjectId → Option ObjectMetadata) (definition : JobDefinition F) (spec : TaskSpec F) :
    TaskRoleBinding → Prop
  | cooperative {job : CooperativeJobSpec F} {role : CooperativeRoleSpec F} {j : JobId} : definition = .cooperative job →
      role ∈ job.roles → RunsWhole spec role.task → DrawnUp known definition spec (.single j role.name)
  | single {job : LogicalJobSpec F} {role : LogicalRoleSpec F} {implementation : RoleImplementation F} {j : JobId} :
      definition = .logical job → role ∈ job.roles → role.shards.mayFanOut = false →
      implementation ∈ role.implementations → RunsWhole spec implementation.task →
      DrawnUp known definition spec (.single j role.name)
  | shard {job : LogicalJobSpec F} {role : LogicalRoleSpec F} {shard : TaskShard} {j : JobId} :
      definition = .logical job → role ∈ job.roles → role.shards.mayFanOut = true → spec.pipeline = none →
      spec.shard = some shard → ShardPlan known role shard → DrawnUp known definition spec (.shard j role.name)
  | fusedChain {job : LogicalJobSpec F} {chain : List (LogicalRoleSpec F)} {j : JobId} : definition = .logical job →
      FusedPlan job spec chain → DrawnUp known definition spec (.fusedChain j (chain.map (·.name)))
  | reduction {reduction : RoleReductionSpec F} {j : JobId} {r : String} :
      logicalRoleReduction definition r = some reduction → RunsWhole spec reduction.task →
      DrawnUp known definition spec (.reduction j r)

omit [F64 F] in
theorem ShardPlan.mono {role : LogicalRoleSpec F} {shard : TaskShard} (h : ShardPlan known role shard)
    (hknown : ∀ o object, known o = some object → known' o = some object) : ShardPlan known' role shard := by
  cases h with
  | fixed hfixed hnone => exact .fixed hfixed hnone
  | auto hauto hcount hinputs ho hfit hpart hat => exact .auto hauto hcount hinputs (hknown _ _ ho) hfit hpart hat

/-- Objects that become known change nothing. -/
theorem DrawnUp.mono {b : TaskRoleBinding} (h : DrawnUp known definition spec b)
    (hknown : ∀ o object, known o = some object → known' o = some object) : DrawnUp known' definition spec b := by
  cases h with
  | cooperative hd hrole hruns => exact .cooperative hd hrole hruns
  | single hd hrole hshards himplementation hruns => exact .single hd hrole hshards himplementation hruns
  | shard hd hrole hshards hpipeline hshard hplan => exact .shard hd hrole hshards hpipeline hshard (hplan.mono hknown)
  | fusedChain hd hplan => exact .fusedChain hd hplan
  | reduction hreduction hruns => exact .reduction hreduction hruns

/-! ## What the selections draw up -/

omit [F64 F] in
theorem MadeFrom.runsWhole {e : Env} {template : TaskTemplate F} {inputs : List ObjectId}
    (h : MadeFrom e template inputs spec) (hshard : spec.shard = none) : RunsWhole spec template :=
  ⟨h.program, h.pipeline, hshard⟩

/-- The identities of a table. -/
def identities (objects : Objects) (o : ObjectId) : Option ObjectMetadata := (objects.lookup o).map (·.identity)

section Shards

variable {e : Env} {role : LogicalRoleSpec F} {inputs : List ObjectId} {objects : Objects} {i n : Nat}
  {shard : ReadyShardSelection F}

/-- A shard without a policy. -/
theorem ShardDrawn.fixedPlan {count : UInt32} (h : ShardDrawn e role inputs count none objects i shard)
    (hfixed : role.shards = .fixed count) :
    ∃ context, shard.task.shard = some context ∧ shard.task.pipeline = none ∧ ShardPlan known role context := by
  obtain ⟨implementation, -, k, htask⟩ := h.task
  rw [← Option.some.inj htask]
  exact ⟨⟨UInt32.ofNat i, count, none⟩, rfl, rfl, .fixed hfixed rfl⟩

/-- A shard of an automatic policy. -/
theorem ShardDrawn.autoPlan {policy : AutoShardPolicy F} {o : ObjectId} {object : ObjectMetadata}
    (h : ShardDrawn e role inputs (UInt32.ofNat n) (some policy) objects i shard)
    (hauto : role.shards = .policy (.auto policy))
    (hinputs : ∀ implementation ∈ role.implementations, implementation.task.inputs[policy.partition.input]? = some o)
    (hobject : objects.lookup o = some object) (hfit : OffsetsFit policy.partition object) (hi : i < n) (hn : n < 2 ^ 32)
    (hcount : n ≤ min policy.maxShards.toNat (max 1 (unitCount policy.partition object))) :
    ∃ context, shard.task.shard = some context ∧ shard.task.pipeline = none ∧
      ShardPlan (identities objects) role context := by
  have hin : (UInt32.ofNat i).toNat = i := UInt32.toNat_ofNat_of_lt' (by rw [UInt32.size]; omega)
  have hnn : (UInt32.ofNat n).toNat = n := UInt32.toNat_ofNat_of_lt' (by rw [UInt32.size]; omega)
  obtain ⟨part, hat, hwith⟩ := h.part hinputs hobject hfit hi hn
  obtain ⟨implementation, -, k, htask⟩ := h.task
  have hpipeline : shard.task.pipeline = none := by
    obtain ⟨part', -, hmade⟩ := Option.map_eq_some_iff.mp htask
    rw [← hmade]
    rfl
  refine ⟨_, hwith.place, hpipeline, .auto hauto ?_ hinputs ?_ hfit rfl ?_⟩
  · dsimp only
    rwa [hnn]
  · rw [identities, hobject]
    rfl
  · dsimp only
    rwa [h.index, hin, hnn]

end Shards

/-- All shards that are selected for a role of an accepted job. -/
theorem selectReadyShards_plan {e : Env} {role : LogicalRoleSpec F} (hvalid : validateLogicalRole role = .ok ())
    {inputs : List ObjectId} {context : ShardPlanningContext F} {selected : List (ReadyShardSelection F)}
    (h : selectReadyShards e role inputs context = some selected) {shard : ReadyShardSelection F} (hmem : shard ∈ selected) :
    ∃ context', shard.task.shard = some context' ∧ shard.task.pipeline = none ∧
      ShardPlan (identities context.objects) role context' := by
  cases hshards : role.shards with
  | fixed count =>
    simp only [selectReadyShards, chooseRoleShards, hshards] at h
    obtain ⟨i, -, hdrawn⟩ := forall₂_mem_right (chooseShardsLoop_drawn (Prod.ext h rfl)) hmem
    exact hdrawn.fixedPlan hshards
  | policy policy =>
    obtain ⟨policy⟩ := policy
    have hauto : role.shards.auto = some policy := by rw [hshards]; rfl
    obtain ⟨o, hhead, hinputs⟩ := partitionInput_of_valid hvalid hauto
    simp only [selectReadyShards, chooseRoleShards, hshards] at h
    obtain ⟨units, n, hunits, hpos, hmax, hchosen⟩ := chooseAutoShards_chosen (Prod.ext h rfl)
    obtain ⟨object, hobject, hfit, hcount⟩ := partitionUnits_some hhead hunits
    have hn := Nat.lt_of_le_of_lt hmax (maxAutoShards policy units).toNat_lt
    have hbound : n ≤ min policy.maxShards.toNat (max 1 (unitCount policy.partition object)) := by
      rw [← hcount]
      rwa [← maxAutoShards_eq hvalid hauto]
    have hdrawn := chooseShardsLoop_drawn hchosen
    rw [UInt32.toNat_ofNat_of_lt' (by rw [UInt32.size]; omega)] at hdrawn
    obtain ⟨i, hi, hdrawn⟩ := forall₂_mem_right hdrawn hmem
    exact hdrawn.autoPlan hshards hinputs hobject hfit (List.mem_range.mp hi) hn hbound

/-- The pipeline that is selected for a chain. -/
theorem FusionOf.plan {e : Env} {job : LogicalJobSpec F} {statuses : Map String CooperativeRoleStatus}
    {role : LogicalRoleSpec F} (hrole : role ∈ job.roles) {inputs : List ObjectId} {selected : ReadyFusionSelection F}
    {implementations : List (RoleImplementation F)}
    (h : FusionOf e (fusionChain job statuses role) inputs selected implementations) :
    FusedPlan job selected.task ((fusionChain job statuses role).take selected.implementations.length) := by
  obtain ⟨rest, hchain, hlinked⟩ := fusionChain_linked job statuses role
  obtain ⟨e', requirements, -, htask⟩ := h.task
  have hlength : selected.implementations.length = implementations.length := by rw [h.names, List.length_map]
  rw [hlength]
  refine ⟨fun role' hmem => ?_, ?_, e', implementations, inputs, requirements, h.two, h.each, htask⟩
  · rw [hchain] at hmem
    exact hlinked.mem hrole role' (List.mem_of_mem_take hmem)
  · rw [hchain]
    exact hlinked.isChain.take _

/-- The reducers that are selected for a level. -/
theorem selectReductionLevel_runs {e : Env} {reduction : RoleReductionSpec F} {inputs : List ObjectId}
    (h2 : 2 ≤ inputs.length) {readyMs : F} {available : Availability F} {context : ShardPlanningContext F}
    {items : List (ReadyReductionItem F)}
    (h : (selectReductionLevel e reduction inputs readyMs available context).1 = some items)
    {selected : ReadyReductionSelection F} (hmem : .reduce selected ∈ items) : RunsWhole selected.task reduction.task := by
  obtain ⟨groups, hlevel⟩ := selectReductionLevel_spec h2 h
  obtain ⟨entry, -, hmade, hshard⟩ := forall₂_mem_right hlevel.each hmem
  exact hmade.runsWhole hshard

/-! ## What is remembered -/

/-- Objects keep their identities and tasks their specifications. -/
structure Remembers (s s' : Fabric F) : Prop where
  identities : ∀ o known, s.identityOf o = some known → s'.identityOf o = some known
  specs : ∀ t spec, s.taskSpec t = some spec → s'.taskSpec t = some spec

instance : IsPreorder (Fabric F) Remembers where
  refl _ := ⟨fun _ _ h => h, fun _ _ h => h⟩
  trans _ _ _ hab hbc :=
    ⟨fun o known h => hbc.identities o known (hab.identities o known h), fun t spec h => hbc.specs t spec (hab.specs t spec h)⟩

omit [F64 F] in
theorem taskSpec_of_lookup {t : TaskId} {record : TaskRecord F} (h : s.tasks.lookup t = some record) :
    s.taskSpec t = some record.spec := by rw [Fabric.taskSpec, h]; rfl

theorem event_remembers (e : Env) (s : Fabric F) (op : Op F) : Remembers s (Event.of e s op).after where
  identities _ _ h := (event_evolves e s op).identityOf h
  specs t spec h := by
    obtain ⟨record, hl, rfl⟩ := Option.map_eq_some_iff.mp h
    have hmoves := event_moves e s op t
    rw [hl] at hmoves
    obtain ⟨status, hafter⟩ := hmoves.spec
    have hspec := taskSpec_of_lookup hafter
    exact hspec

/-! ## The invariant -/

/-- The task is drawn up for the roles that it is bound to. -/
def Drawn (s : Fabric F) (t : TaskId) (b : TaskRoleBinding) : Prop :=
  ∃ spec definition, s.ledger.spec t = some spec ∧ s.ledger.definition b.job = some definition ∧
    DrawnUp s.identityOf definition spec b

/-- Jobs have been accepted, and tasks are drawn up for the roles that they are bound to. -/
structure Made (s : Fabric F) : Prop where
  accepted : ∀ j definition, s.ledger.definition j = some definition → definition.Accepted
  drawn : ∀ t b, s.ledger.binding t = some b → Drawn s t b

/-- A task stays drawn up. -/
theorem Made.grow (h : Made s) (hremembers : Remembers s s')
    (hkept : ∀ j definition, s.ledger.definition j = some definition → s'.ledger.definition j = some definition)
    (hnew : ∀ j definition, s'.ledger.definition j = some definition →
      s.ledger.definition j = some definition ∨ definition.Accepted)
    (hbinding : ∀ t b, s'.ledger.binding t = some b → s.ledger.binding t = some b ∨ Drawn s' t b) : Made s' where
  accepted j definition hd := (hnew j definition hd).elim (h.accepted j definition) id
  drawn t b hb := by
    rcases hbinding t b hb with hold | hdrawn
    · obtain ⟨spec, definition, hspec, hd, hdrawn⟩ := h.drawn t b hold
      exact ⟨spec, definition, hremembers.specs t spec hspec, hkept _ _ hd, hdrawn.mono hremembers.identities⟩
    · exact hdrawn

/-- Jobs and bindings are the same. -/
structure SameRoles (s s' : Fabric F) : Prop where
  binding : s'.ledger.binding = s.ledger.binding
  definition : s'.ledger.definition = s.ledger.definition

instance : IsPreorder (Fabric F) SameRoles where
  refl _ := ⟨rfl, rfl⟩
  trans _ _ _ hab hbc := ⟨hbc.binding.trans hab.binding, hbc.definition.trans hab.definition⟩

theorem Made.same (h : Made s) (hremembers : Remembers s s') (hsame : SameRoles s s') : Made s' :=
  h.grow hremembers (fun j definition hd => by rwa [hsame.definition])
    (fun j definition hd => .inl (by rwa [hsame.definition] at hd))
    (fun t b hb => .inl (by rwa [hsame.binding] at hb))

/-- What the handling of a role of job `j` relies on: the definition of the job, and the table of objects. -/
structure Building (j : JobId) (definition : JobDefinition F) (objects : Objects) (s : Fabric F) : Prop
    extends Made s where
  job : s.ledger.definition j = some definition
  objects : s.objects = objects

omit [F64 F] in
theorem definition_modifyJob_same {f : CooperativeJobRecord F → CooperativeJobRecord F}
    (hf : ∀ job, (f job).definition = job.definition) : (s.modifyJob j f).ledger.definition = s.ledger.definition := by
  funext j'
  simp only [ledger, modifyJob_lookup]
  split
  · rw [Option.map_map]
    exact congrArg (Option.map · _) (funext hf)
  · rfl

namespace Fabric

section Walk

variable {objects : Objects}

/-- A task that is drawn up is submitted and bound. -/
theorem create_building {task : TaskSpec F} {b : TaskRoleBinding} (hb : b.job = j)
    (hdrawn : DrawnUp (identities objects) definition task b) :
    (submit task >>= fun _ => update (bindTask task.id b)).Along (Preserves (Building j definition objects)) := by
  intro s hs
  rcases submit_cases task s with ⟨err, hrun⟩ | ⟨-, hn, hrun⟩
  · rw [bind_error hrun]
    exact hs
  · rw [bind_ok hrun, update_apply]
    have hledger := ledger_bindNew hn b
    change Building j definition objects (bindTask task.id b (s.insertTask task))
    refine ⟨hs.toMade.grow ⟨fun o object ho => ho, fun t spec hspec => ?_⟩ (fun j' definition' hd => ?_)
      (fun j' definition' hd => .inl ?_) (fun t b' hb' => ?_), ?_, hs.objects⟩
    · change (bindTask task.id b (s.insertTask task)).ledger.spec t = some spec
      rw [hledger, addAll_spec_of_not_mem]
      · exact hspec
      · rintro hmem
        obtain rfl : t = task.id := List.mem_singleton.mp hmem
        rw [taskSpec, hn] at hspec
        cases hspec
    · rwa [hledger]
    · rwa [hledger] at hd
    · rw [hledger, Ledger.addAll_binding] at hb'
      split at hb'
      · rename_i hmem
        obtain rfl : t = task.id := List.mem_singleton.mp hmem
        cases hb'
        refine .inr ⟨task, definition, ?_, ?_, ?_⟩
        · have hnodup : (([task] : List (TaskSpec F)).map (·.id)).Nodup := List.nodup_singleton task.id
          rw [hledger]
          exact addAll_spec_of_mem hnodup (List.mem_singleton_self task)
        · rw [hledger, hb]
          exact hs.job
        · refine hdrawn.mono fun o object ho => ?_
          rw [← hs.objects] at ho
          exact ho
      · exact .inl hb'
    · rw [hledger]
      exact hs.job

theorem modifyJob_building (j' : JobId) {f : CooperativeJobRecord F → CooperativeJobRecord F}
    (hf : ∀ job, (f job).definition = job.definition) :
    (update (modifyJob j' f) : FabricM F Unit).Along (Preserves (Building j definition objects)) := by
  refine along_update fun s hs => ?_
  have hdefinition := definition_modifyJob_same (s := s) (j := j') hf
  exact ⟨hs.toMade.same ⟨fun _ _ h => h, fun _ _ h => h⟩ ⟨rfl, hdefinition⟩, hdefinition ▸ hs.job, hs.objects⟩

theorem setRole_building (r : String) (status : CooperativeRoleStatus) :
    (update (setRole j r status) : FabricM F Unit).Along (Preserves (Building j definition objects)) :=
  modifyJob_building j fun _ => rfl

theorem setSelection_building (r : String) (selection : RoleSelection F) :
    (update (setSelection j r selection) : FabricM F Unit).Along (Preserves (Building j definition objects)) :=
  modifyJob_building j fun _ => rfl

theorem submitSingle_building {name : String} {task : TaskSpec F}
    (hdrawn : DrawnUp (identities objects) definition task (.single j name)) (selection : Option (RoleSelection F)) :
    (submitSingle j name task selection).Along (Preserves (Building j definition objects)) := by
  refine along_bind_bind (create_building rfl hdrawn) fun _ _ => along_bind (setRole_building _ _) fun _ => ?_
  cases selection with
  | none => exact along_pure _
  | some selection => exact setSelection_building _ _

theorem submitShards_building {name : String} {selected : List (ReadyShardSelection F)}
    (hdrawn : ∀ shard ∈ selected, DrawnUp (identities objects) definition shard.task (.shard j name)) :
    (submitShards j name selected).Along (Preserves (Building j definition objects)) :=
  along_bind (along_eachFrom_mem _ 0 fun _ shard hmem => create_building rfl (hdrawn shard hmem)) fun _ =>
    along_bind (setRole_building _ _) fun _ => setSelection_building _ _

theorem submitFused_building {chain : List (LogicalRoleSpec F)} {selected : ReadyFusionSelection F}
    (hdrawn : DrawnUp (identities objects) definition selected.task
      (.fusedChain j ((chain.take selected.implementations.length).map (·.name)))) :
    (submitFused j chain selected).Along (Preserves (Building j definition objects)) :=
  along_bind_bind (create_building rfl hdrawn) fun _ _ => along_each _ fun _ _ =>
    along_bind (setRole_building _ _) fun _ => setSelection_building _ _

variable (haccepted : definition.Accepted)

include haccepted

theorem materializeRole_building {e e' : Env} {job : CooperativeJobRecord F} (hd : job.definition = definition)
    {item : ReadyRole F} (hitem : item ∈ readyRoles e' job) :
    (materializeRole e j item).Along (Preserves (Building j definition objects)) := by
  rcases readyRoles_cases hitem with ⟨spec, role, i, inputs, hspec, hmem, rfl⟩ | ⟨spec, role, inputs, hspec, hmem, rfl⟩
  · exact submitSingle_building (.cooperative (hd.symm.trans hspec) hmem ⟨rfl, rfl, rfl⟩) none
  · have hlogical := hd.symm.trans hspec
    refine along_state_preserves fun s hs => ?_
    dsimp only
    split
    · rename_i hshards
      split
      · exact setRole_building _ _
      · rename_i selected hselected
        rw [hlogical] at haccepted
        refine submitShards_building fun shard hshard => ?_
        obtain ⟨context, hcontext, hpipeline, hplan⟩ :=
          selectReadyShards_plan (validateLogicalJob_role haccepted hmem) hselected hshard
        exact .shard hlogical hmem hshards hpipeline hcontext (hs.objects ▸ hplan)
    · rename_i hshards
      split
      · rename_i selected hselected
        obtain ⟨implementations, hfusion⟩ := selectReadyFusion_spec hselected
        exact submitFused_building (.fusedChain hlogical (hfusion.plan hmem))
      · split
        · exact setRole_building _ _
        · rename_i selected hselected
          obtain ⟨⟨implementation, himplementation, hmade⟩, hshard⟩ := selectReadyRole_spec hselected
          exact submitSingle_building (.single hlogical hmem (by simpa using hshards) himplementation
            (hmade.runsWhole hshard)) _

omit haccepted in
/-- A job of known definition. -/
theorem Building.definition_eq (hs : Building j definition objects s) {job : CooperativeJobRecord F}
    (hj : s.jobs.lookup j = some job) : job.definition = definition :=
  Option.some.inj ((definition_of_lookup hj).symm.trans hs.job)

theorem materializeReadyRoles_building (e : Env) :
    (materializeReadyRoles (F := F) e j).Along (Preserves (Building j definition objects)) :=
  along_state_preserves fun _ hs => along_okOr_bind fun _ hj => along_eachFrom_mem _ 0 fun _ _ hitem =>
    materializeRole_building haccepted (Building.definition_eq hs hj) hitem

omit haccepted in
theorem submitReducers_building {reduction : RoleReductionSpec F} (hreduction : logicalRoleReduction definition r = some reduction)
    {items : List (ReadyReductionItem F)}
    (hitems : ∀ selected, .reduce selected ∈ items → RunsWhole selected.task reduction.task) :
    (submitReducers j r items).Along (Preserves (Building j definition objects)) := by
  refine along_eachFrom_mem _ 0 fun _ item hitem => ?_
  cases item with
  | carry _ => exact along_pure _
  | reduce selected => exact create_building rfl (.reduction hreduction (hitems selected hitem))

theorem materializeReductionLevel_building (e : Env) (r : String) :
    (materializeReductionLevel (F := F) e j r).Along (Preserves (Building j definition objects)) := by
  refine along_state_preserves fun s hs => along_okOr_bind fun job hj => along_okOr_bind fun reduction hreduction =>
    along_okOr_bind fun active _ => ?_
  rw [Building.definition_eq hs hj] at hreduction
  split
  · exact along_pure _
  split
  · exact along_bind (modifyJob_building j fun _ => rfl) fun _ => along_bind (setRole_building _ _) fun _ =>
      materializeReadyRoles_building haccepted _
  rename_i hseveral
  split
  · exact setRole_building _ _
  · rename_i items hitems
    refine along_bind (submitReducers_building hreduction fun selected hmem =>
      selectReductionLevel_runs (by omega) hitems hmem) fun _ => ?_
    dsimp only
    split
    · exact along_fail _
    · exact along_bind (modifyJob_building j fun _ => rfl) fun _ => setRole_building _ _

theorem startRoleReduction_building (e : Env) (r : String) (inputs : List ObjectId) :
    (startRoleReduction (F := F) e j r inputs).Along (Preserves (Building j definition objects)) :=
  along_bind along_state fun _ => along_bind (along_okOr _ _) fun _ => along_bind (modifyJob_building j fun _ => rfl) fun _ =>
    along_bind (setRole_building _ _) fun _ => materializeReductionLevel_building haccepted e r

theorem advanceReductionLevel_building (e : Env) (r : String) :
    (advanceReductionLevel (F := F) e j r).Along (Preserves (Building j definition objects)) := by
  refine along_bind along_state fun _ => along_bind (along_okOr _ _) fun _ => along_bind (along_okOr _ _) fun _ =>
    along_bind (along_lift _) fun _ => ?_
  split
  · exact setRole_building _ _
  · exact along_bind (modifyJob_building j fun _ => rfl) fun _ => materializeReductionLevel_building haccepted e r

theorem completeSingle_building (e : Env) (r : String) (outputs : List ObjectId) :
    (completeSingle (F := F) e j r outputs).Along (Preserves (Building j definition objects)) :=
  along_bind along_state fun _ => along_bind (requireRole_along _ _ _ _) fun _ => along_bind (setRole_building _ _) fun _ =>
    materializeReadyRoles_building haccepted e

theorem completeFusedChain_building (e : Env) (roles : List String) (outputs : List ObjectId) :
    (completeFusedChain (F := F) e j roles outputs).Along (Preserves (Building j definition objects)) := by
  refine along_bind along_state fun _ => along_bind (along_okOr _ _) fun _ => ?_
  split
  · exact along_fail _
  · refine along_bind (along_each _ fun _ _ => along_bind along_state fun _ =>
      along_bind (requireRole_along _ _ _ _) fun _ => setRole_building _ _) fun _ => ?_
    exact along_bind along_state fun _ => along_bind (requireRole_along _ _ _ _) fun _ =>
      along_bind (setRole_building _ _) fun _ => materializeReadyRoles_building haccepted e

theorem completeShard_building (e : Env) (r : String) :
    (completeShard (F := F) e j r).Along (Preserves (Building j definition objects)) := by
  refine along_bind along_state fun _ => ?_
  split
  · refine along_bind (along_okOr _ _) fun _ => ?_
    split
    · exact startRoleReduction_building haccepted e r _
    · exact along_bind (setRole_building _ _) fun _ => materializeReadyRoles_building haccepted e
  · exact along_pure _
  · exact along_fail _

end Walk

/-! ## Calls -/

/-- What is about one job keeps the invariant if it does so once the job is found. -/
theorem made_of_building {m : FabricM F Unit} (hnone : ∀ s, s.jobs.lookup j = none → (m s).2 = s)
    (h : ∀ definition objects, definition.Accepted → m.Along (Preserves (Building j definition objects))) :
    m.Along (Preserves Made) := by
  intro s hs
  cases hj : s.jobs.lookup j with
  | none =>
    rw [hnone s hj]
    exact hs
  | some job =>
    have hd := definition_of_lookup hj
    exact (h _ _ (hs.accepted j _ hd) s ⟨hs, hd, rfl⟩).toMade

theorem materializeReadyRoles_made (e : Env) (j : JobId) : (materializeReadyRoles (F := F) e j).Along (Preserves Made) :=
  made_of_building (fun s hj => by rw [materializeReadyRoles, state_bind, hj]; rfl) fun _ _ haccepted =>
    materializeReadyRoles_building haccepted e

theorem refreshReadyRoles_made (e : Env) : (refreshReadyRoles (F := F) e).Along (Preserves Made) := by
  have hlevel : ∀ e j r, (materializeReductionLevel (F := F) e j r).Along (Preserves Made) := fun e j r =>
    made_of_building (fun s hj => by rw [materializeReductionLevel, state_bind, hj]; rfl) fun _ _ haccepted =>
      materializeReductionLevel_building haccepted e r
  exact along_bind (along_bind along_state fun _ => along_each _ fun _ due => hlevel _ due.1 due.2) fun _ =>
    along_bind along_state fun _ => along_each _ fun _ j => materializeReadyRoles_made _ j

theorem acceptJob_made (e : Env) (j : JobId) (haccepted : definition.Accepted) :
    (acceptJob e j definition).Along (Preserves Made) := by
  refine along_state_bind fun s => ?_
  split
  · exact refl_of (Preserves Made) s
  · rename_i hnew
    rw [update_bind, bind_pure_state]
    intro hs
    refine materializeReadyRoles_made e j _ (hs.grow ⟨fun _ _ h => h, fun _ _ h => h⟩ (fun j' definition' hd => ?_)
      (fun j' definition' hd => ?_) (fun _ _ h => .inl h))
    all_goals simp only [ledger, Map.lookup_insert_eq] at hd ⊢
    · split
      · rename_i hsame
        obtain ⟨job, hj, -⟩ := Option.map_eq_some_iff.mp hd
        rw [hsame] at hj
        exact absurd (Option.isSome_of_eq_some hj) hnew
      · exact hd
    · split at hd
      · cases hd
        exact .inr haccepted
      · exact .inl hd

theorem completeCooperativeRole_made (e : Env) (t : TaskId) (outputs : List ObjectId) :
    (completeCooperativeRole (F := F) e t outputs).Along (Preserves Made) := by
  intro s hs
  unfold completeCooperativeRole
  rw [state_bind]
  cases hb : s.taskRoles.lookup t with
  | none => exact hs
  | some b =>
    obtain ⟨spec, definition, -, hd, -⟩ := hs.drawn t b hb
    have haccepted := hs.accepted _ definition hd
    have hbuilding : Building b.job definition s.objects s := ⟨hs, hd, rfl⟩
    cases b with
    | single j r => exact (completeSingle_building haccepted e r outputs s hbuilding).toMade
    | fusedChain j roles => exact (completeFusedChain_building haccepted e roles outputs s hbuilding).toMade
    | shard j r => exact (completeShard_building haccepted e r s hbuilding).toMade
    | reduction j r =>
      dsimp only
      split
      · exact hs
      · exact (advanceReductionLevel_building haccepted e r s hbuilding).toMade

/-- What leaves jobs and bindings alone, and forgets nothing. -/
theorem made_of_same {α : Type} {m : FabricM F α} (hsame : m.Along SameRoles) (hremembers : m.Along Remembers) :
    m.Along (Preserves Made) := fun s hs => hs.same (hremembers s) (hsame s)

theorem publishObject_made (object : ObjectMetadata) : (publishObject (F := F) object).Along (Preserves Made) := by
  refine made_of_same (publishObject_along (fun _ _ => ⟨rfl, rfl⟩) object) fun s => ?_
  have hspecs : (publishObject object s).2.tasks = s.tasks :=
    publishObject_along (R := fun s s' : Fabric F => s'.tasks = s.tasks) (fun _ _ => rfl) object s
  exact ⟨fun _ _ h => (publishObject_retains object s).identityOf h, fun t spec h => by rwa [taskSpec, hspecs]⟩

theorem commitOutputs_made (e : Env) (t : TaskId) (outputs : List ObjectMetadata) :
    (commitOutputs (F := F) e t outputs).Along (Preserves Made) :=
  along_bind (along_each _ fun _ object => publishObject_made object) fun _ => completeCooperativeRole_made _ _ _

theorem completeExecution_made (e : Env) (lease : ExecutionLease) (outputs : List ObjectMetadata) :
    (completeExecution (F := F) e lease outputs).Along (Preserves Made) := by
  intro s hs
  rcases completeExecution_cases e lease outputs s with ⟨err, hrun⟩ | ⟨current, -, -, -, hrun⟩
  · rw [hrun]
    exact hs
  · rw [hrun]
    refine commitOutputs_made e lease.taskId outputs _ (hs.same ⟨fun _ _ h => h, fun t spec h => ?_⟩ ⟨rfl, rfl⟩)
    obtain ⟨record, hl, rfl⟩ := Option.map_eq_some_iff.mp h
    rw [taskSpec, setStatus_lookup]
    split
    · rw [hl]
      rfl
    · rw [hl]
      rfl

omit [F64 F] in
theorem markCooperativeRoleUncertain_sameRoles (t : TaskId) (s : Fabric F) :
    SameRoles s (s.markCooperativeRoleUncertain t) := by
  have hone : ∀ (s : Fabric F) j r, SameRoles s (s.overwriteRole j r .uncertain) := fun s j r =>
    ⟨rfl, definition_modifyJob_same fun _ => rfl⟩
  unfold markCooperativeRoleUncertain
  split
  · exact refl_of SameRoles s
  · exact hone ..
  · exact hone ..
  · exact hone ..
  · refine List.foldlRecOn (motive := SameRoles s) _ _ (refl_of SameRoles s) fun s' h r _ => ?_
    exact trans_of SameRoles h (hone ..)

omit [F64 F] in
theorem reapExpiredExecutionsAt_sameRoles (e : Env) (unixMs : UInt64) (s : Fabric F) :
    SameRoles s (s.reapExpiredExecutionsAt e unixMs).2 := by
  unfold reapExpiredExecutionsAt
  refine List.foldlRecOn (motive := SameRoles s) _ _ ⟨rfl, rfl⟩ fun s' h t _ => ?_
  exact trans_of SameRoles h (markCooperativeRoleUncertain_sameRoles t s')

end Fabric

/-- **Every call keeps the invariant**, whether it succeeds or fails. -/
theorem event_made (e : Env) (op : Op F) (h : Made s) : Made (Event.of e s op).after := by
  have hremembers := event_remembers e s op
  have same : SameRoles s (exec e op s).2 → Made (Event.of e s op).after := h.same hremembers
  have plain : ∀ {α : Type} {m : FabricM F α} {g : α → Reply}, m.Along SameRoles →
      exec e op = (m >>= fun a => pure (g a)) → Made (Event.of e s op).after := fun hm hx =>
    same (by rw [hx]; exact along_bind hm (fun _ => along_pure _) s)
  have made : ∀ {α : Type} {m : FabricM F α} {g : α → Reply}, m.Along (Preserves Made) →
      exec e op = (m >>= fun a => pure (g a)) → Made (Event.of e s op).after := fun hm hx => by
    change Made (exec e op s).2
    rw [hx]
    exact along_bind hm (fun _ => along_pure _) s h
  cases op with
  | setTopology topology => exact same ⟨rfl, rfl⟩
  | upsertLink link => exact same ⟨rfl, rfl⟩
  | removeLink a b => exact same ⟨rfl, rfl⟩
  | registerResource descriptor => exact same ⟨rfl, rfl⟩
  | heartbeat r epoch => exact plain (heartbeat_along (fun _ _ => ⟨rfl, rfl⟩) e r epoch) rfl
  | unregisterResource r => exact same ⟨rfl, rfl⟩
  | expireResourcesAt unixMs =>
    refine same ?_
    change SameRoles s (s.expireResourcesAt e unixMs).2
    refine List.foldlRecOn (motive := SameRoles s) _ _ (refl_of SameRoles s) fun s' h id _ => ?_
    exact ⟨h.binding, h.definition⟩
  | publishObject object => exact made (g := fun _ => .unit) (publishObject_made object) rfl
  | addObjectLocation o r => exact plain (g := fun _ => .unit) (addObjectLocation_along (fun _ _ => ⟨rfl, rfl⟩) o r) rfl
  | submit task => exact plain (submit_along task fun _ _ => ⟨rfl, rfl⟩) rfl
  | submitCooperative job =>
    refine made (m := submitCooperative e job) (fun s hs => ?_) rfl
    unfold submitCooperative
    cases hvalid : validateCooperativeJob job with
    | error error => exact hs
    | ok _ =>
      have haccepted : JobDefinition.Accepted (.cooperative job) := hvalid
      exact acceptJob_made e job.id haccepted s hs
  | submitLogical job =>
    refine made (m := submitLogical e job) (fun s hs => ?_) rfl
    unfold submitLogical
    cases hvalid : validateLogicalJob job with
    | error error => exact hs
    | ok _ =>
      have haccepted : JobDefinition.Accepted (.logical job) := hvalid
      exact along_bind along_state (fun s => along_bind (along_lift _) fun _ => acceptJob_made e job.id haccepted) s hs
  | beginExecution t r => exact plain (beginExecution_along (fun _ _ _ => ⟨rfl, rfl⟩) e t r) rfl
  | renewExecution lease => exact plain (renewExecution_along (fun _ _ _ => ⟨rfl, rfl⟩) e lease) rfl
  | completeExecution lease outputs => exact made (g := fun _ => .unit) (completeExecution_made e lease outputs) rfl
  | reapExpiredExecutionsAt unixMs => exact same (reapExpiredExecutionsAt_sameRoles e unixMs s)
  | refreshReadyRoles => exact made (g := fun _ => .unit) (refreshReadyRoles_made e) rfl

theorem made_new (m x : UInt64) : Made (Fabric.new m x : Fabric F) where
  accepted _ _ h := by cases h
  drawn _ _ h := by cases h

/-- **Tasks are drawn up as the definitions say**, in every state of every run. -/
theorem final_made (e : Env) (m x : UInt64) (ops : List (Op F)) : Made (final e (Fabric.new m x) ops) := by
  obtain ⟨_, h⟩ := final_rule (I := fun _ _ s => Made s) (C := fun _ => True)
    (fun e _ s op hs _ => event_made (e.sub 0) op hs) ops e [] _ (made_new m x) fun _ _ => trivial
  exact h

end Plurifold
