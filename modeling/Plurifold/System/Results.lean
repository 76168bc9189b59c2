import Plurifold.Fabric.Chains
import Plurifold.Fabric.Delivery
import Plurifold.System.Meaning
import Plurifold.System.Safety

/-!
# Roles do what they mean

Whatever resources there are, however roles are placed, cut, fused and reduced, whichever attempts are lost or repeated: a
completed role makes its outputs of those of its dependencies as the definition of its job says (`delivered_comesTo`).

What the tasks of a role read are the contents of its dependencies' outputs (`Fed`), so a single task does what its role
means, the task of a chain does what its roles mean one after the other, and shards that have been reduced have been combined
in groups of neighbours (`combines_of_yields`).
-/

namespace Plurifold

open Lib Fabric

variable {F : Type} {s : Fabric F} {contents : ObjectId → Bytes → Prop} {executors : Set Executor} {j : JobId}
  {r : String} {t : TaskId} {definition : JobDefinition F} {outputs : List ObjectId}

/-! ## What is true of objects and tasks -/

/-- Objects have contents, and completed tasks are what executing them on these gives. -/
structure TrueTo (contents : ObjectId → Bytes → Prop) (executors : Set Executor) (s : Fabric F) : Prop where
  unique : ∀ {o b b'}, contents o b → contents o b' → b = b'
  known : ∀ {o object}, s.identityOf o = some object → ∃ b, contents o b ∧ object.sizeBytes.toNat = b.length
  right : ∀ {t outputs}, s.taskStatus t = some (.completed outputs) → ∃ spec o output executor read,
    s.taskSpec t = some spec ∧ outputs = [o] ∧ contents o output ∧ executor ∈ executors ∧
    ReadsOf contents spec.shard 0 spec.inputs read ∧ executeTaskWithPolicy executor spec read = .ok output

theorem TrueTo.all_unique (h : TrueTo contents executors s) {objects : List ObjectId} {values values' : List Bytes}
    (hvalues : List.Forall₂ contents objects values) (hvalues' : List.Forall₂ contents objects values') : values = values' :=
  forall₂_agree hvalues hvalues' fun _ _ _ _ hb hb' => h.unique hb hb'

/-- The task has one first stage. -/
theorem RunsFirst.same {spec : TaskSpec F} {template template' : TaskTemplate F} {inputs inputs' : List ObjectId}
    (h : RunsFirst spec template inputs) (h' : RunsFirst spec template' inputs') : template.artifact = template'.artifact ∧
      template.entrypoint = template'.entrypoint ∧ template.arguments = template'.arguments ∧
      template.inputs ++ inputs = template'.inputs ++ inputs' := by
  have hprogram := Option.some.inj (h.program.symm.trans h'.program)
  have hinputs := Option.some.inj (h.inputs.symm.trans h'.inputs)
  obtain ⟨hartifact, hrest⟩ := Prod.mk.inj hprogram
  obtain ⟨hentrypoint, harguments⟩ := Prod.mk.inj hrest
  exact ⟨hartifact, hentrypoint, harguments, hinputs⟩

/-! ## Roles by name -/

theorem RoleOf.mem_jobRoles {dependencies : List String} {templates : List (TaskTemplate F)}
    (h : RoleOf definition r dependencies templates) : (r, dependencies) ∈ jobRoles definition := by
  cases h with
  | cooperative hrole => exact List.mem_map.mpr ⟨_, hrole, rfl⟩
  | logical hrole => exact List.mem_map.mpr ⟨_, hrole, rfl⟩

theorem roleOf_cooperative {job : CooperativeJobSpec F} {dependencies : List String} {templates : List (TaskTemplate F)}
    (h : RoleOf (.cooperative job) r dependencies templates) :
    ∃ role ∈ job.roles, role.name = r ∧ role.dependsOn = dependencies ∧ templates = [role.task] := by
  cases h with
  | cooperative hrole => exact ⟨_, hrole, rfl, rfl, rfl⟩

theorem roleOf_logical {job : LogicalJobSpec F} {dependencies : List String} {templates : List (TaskTemplate F)}
    (h : RoleOf (.logical job) r dependencies templates) : ∃ role ∈ job.roles, role.name = r ∧
      role.dependsOn = dependencies ∧ templates = role.implementations.map (·.task) := by
  cases h with
  | logical hrole => exact ⟨_, hrole, rfl, rfl, rfl⟩

variable [F64 F]

/-- A name stands for one role of an accepted job. -/
theorem logicalRole_eq {job : LogicalJobSpec F} (haccepted : (JobDefinition.logical job).Accepted)
    {role role' : LogicalRoleSpec F} (hrole : role ∈ job.roles) (hrole' : role' ∈ job.roles) (hname : role.name = role'.name) :
    role = role' := by
  have hvalid : validateLogicalJob job = .ok () := haccepted
  exact eq_of_name (validateLogicalJob_ok hvalid).1 hrole hrole' hname

theorem cooperativeRole_eq {job : CooperativeJobSpec F} (haccepted : (JobDefinition.cooperative job).Accepted)
    {role role' : CooperativeRoleSpec F} (hrole : role ∈ job.roles) (hrole' : role' ∈ job.roles)
    (hname : role.name = role'.name) : role = role' := by
  have hnodup := haccepted.nodup
  rw [jobRoles, List.map_map] at hnodup
  exact List.inj_on_of_nodup_map hnodup hrole hrole' hname

theorem RoleOf.unique (haccepted : definition.Accepted) {dependencies dependencies' : List String}
    {templates templates' : List (TaskTemplate F)} (h : RoleOf definition r dependencies templates)
    (h' : RoleOf definition r dependencies' templates') : dependencies = dependencies' ∧ templates = templates' := by
  cases definition with
  | cooperative job =>
    obtain ⟨role, hrole, rfl, rfl, rfl⟩ := roleOf_cooperative h
    obtain ⟨role', hrole', hname, rfl, rfl⟩ := roleOf_cooperative h'
    obtain rfl := cooperativeRole_eq haccepted hrole hrole' hname.symm
    exact ⟨rfl, rfl⟩
  | logical job =>
    obtain ⟨role, hrole, rfl, rfl, rfl⟩ := roleOf_logical h
    obtain ⟨role', hrole', hname, rfl, rfl⟩ := roleOf_logical h'
    obtain rfl := logicalRole_eq haccepted hrole hrole' hname.symm
    exact ⟨rfl, rfl⟩

section Results

variable (htrue : TrueTo contents executors s) (haccounted : Accounted s)

include htrue

omit [F64 F] in
/-- What a task gives that runs its template by itself. -/
theorem RunsFirst.gives {spec : TaskSpec F} {template : TaskTemplate F} {inputs : List ObjectId} {values : List Bytes}
    (hfirst : RunsFirst spec template inputs) (hspec : s.taskSpec t = some spec) (hpipeline : spec.pipeline = none)
    (hvalues : List.Forall₂ contents inputs values)
    (hwhole : ∀ i, template.inputs.length ≤ i → shardRange spec.shard i = none)
    (hdone : s.taskStatus t = some (.completed outputs)) :
    ∃ o output, outputs = [o] ∧ contents o output ∧ Gives contents executors template spec.shard values output := by
  obtain ⟨spec', o, output, executor, read, hspec', rfl, hcontents, hexecutor, hread, hrun⟩ := htrue.right hdone
  rw [hspec] at hspec'
  cases hspec'
  have hinputs : spec.inputs = template.inputs ++ inputs := by
    have h := hfirst.inputs
    rw [firstInputs, hpipeline] at h
    exact Option.some.inj h
  have hprogram := hfirst.program
  rw [firstProgram, hpipeline] at hprogram
  obtain ⟨hartifact, hentrypoint, harguments⟩ : spec.artifact = template.artifact ∧ spec.entrypoint = template.entrypoint ∧
      spec.arguments = template.arguments := by simpa using hprogram
  rw [hinputs] at hread
  obtain ⟨own, rest, rfl, hown, hrest⟩ := readsOf_append hread
  have hsame := htrue.all_unique (hrest.whole fun i hi => hwhole i (by omega)) hvalues
  subst hsame
  refine ⟨o, output, rfl, hcontents, ⟨own, hown, executor, hexecutor, ?_⟩⟩
  rw [executeTaskWithPolicy, hpipeline, hartifact, hentrypoint, harguments] at hrun
  exact hrun

/-! ## What roles read -/

/-- The values of a role are the contents of its outputs, if it has finished outside chains. -/
def HoldsOf (contents : ObjectId → Bytes → Prop) (s : Fabric F) (j : JobId) (r : String) (values : List Bytes) : Prop :=
  ∀ outputs, s.ledger.role j r = some (.completed outputs) → ¬s.ledger.Interior j r → List.Forall₂ contents outputs values

/-- The tasks that start the role read the outputs of its dependencies, which have finished outside chains. -/
structure Fed (contents : ObjectId → Bytes → Prop) (s : Fabric F) (j : JobId) (definition : JobDefinition F) (r : String)
    (dependencies : List String) (templates : List (TaskTemplate F)) (value : String → List Bytes) : Prop where
  role : RoleOf definition r dependencies templates
  finished : ∀ d ∈ dependencies, ∃ outputs, s.ledger.role j d = some (.completed outputs) ∧ ¬s.ledger.Interior j d ∧
    List.Forall₂ contents outputs (value d)
  reads : ∀ t, s.ledger.Starts t j r → ∃ template ∈ templates, ∃ spec inputs, s.taskSpec t = some spec ∧
    RunsFirst spec template inputs ∧ List.Forall₂ contents inputs (dependencies.map value).flatten

/-- What a role has come to: it has made the contents of its outputs of what its dependencies have come to. -/
def ComesTo (contents : ObjectId → Bytes → Prop) (executors : Set Executor) (definition : JobDefinition F) (r : String)
    (dependencies : List String) (value : String → List Bytes) (outputs : List ObjectId) : Prop :=
  ∃ values, Makes contents executors definition r dependencies (dependencies.map value) values ∧
    List.Forall₂ contents outputs values

include haccounted in
omit htrue in
/-- A role that has been started is fed, if the outputs of the roles before it have contents. -/
theorem fed_of_starts (hd : s.ledger.definition j = some definition) {value : String → List Bytes}
    (hbefore : ∀ d, DependsOn (jobRoles definition) d r → HoldsOf contents s j d (value d))
    (hstarts : s.ledger.Starts t j r) :
    ∃ dependencies templates, Fed contents s j definition r dependencies templates value := by
  obtain ⟨definition', dependencies, templates, -, inputs, -, hd', hrole, hgather, -⟩ :=
    (haccounted.wired t j r hstarts).reads
  rw [hd] at hd'
  cases hd'
  have hfinished : ∀ d ∈ dependencies, ∃ outputs, s.ledger.role j d = some (.completed outputs) ∧
      ¬s.ledger.Interior j d ∧ List.Forall₂ contents outputs (value d) := by
    intro d hmem
    obtain ⟨outputs, hdone⟩ := gather_completed hgather d hmem
    have houter := haccounted.sound.dependency_not_interior hd hrole hstarts hmem
    exact ⟨outputs, hdone, houter, hbefore d ⟨dependencies, hrole.mem_jobRoles, hmem⟩ outputs hdone houter⟩
  refine ⟨dependencies, templates, hrole, hfinished, fun t' hstarts' => ?_⟩
  obtain ⟨definition', dependencies', templates', template, inputs', spec, hd', hrole', hgather', hspec, htemplate, hfirst⟩ :=
    (haccounted.wired t' j r hstarts').reads
  rw [hd] at hd'
  cases hd'
  obtain ⟨rfl, rfl⟩ := hrole.unique (haccounted.accepted j definition hd) hrole'
  refine ⟨template, htemplate, spec, inputs', hspec, hfirst, ?_⟩
  rw [gather_eq hgather', List.flatMap_def]
  refine List.rel_flatten (List.forall₂_map_left_iff.mpr (List.forall₂_map_right_iff.mpr
    (List.forall₂_same.mpr fun d hmem => ?_)))
  obtain ⟨outputs, hdone, -, hvalues⟩ := hfinished d hmem
  rwa [hdone]

/-! ## A single task -/

section Fed

variable {dependencies : List String} {templates : List (TaskTemplate F)} {value : String → List Bytes}
  (hd : s.ledger.definition j = some definition)
  (hfed : Fed contents s j definition r dependencies templates value)

include haccounted hd hfed

/-- **A single task does what its role means.** -/
theorem comesTo_of_single (hb : s.ledger.binding t = some (.single j r))
    (hdone : s.taskStatus t = some (.completed outputs)) :
    ComesTo contents executors definition r dependencies value outputs := by
  obtain ⟨template, htemplate, spec, inputs, hspec, hfirst, hvalues⟩ := hfed.reads t (.inl hb)
  obtain ⟨spec', definition', hspec', hd', hdrawn⟩ := haccounted.drawn t _ hb
  obtain rfl : spec = spec' := Option.some.inj (hspec.symm.trans hspec')
  obtain rfl : definition = definition' := Option.some.inj (hd.symm.trans hd')
  have alone : ∀ {own : TaskTemplate F}, RunsWhole spec own → ∃ o output, outputs = [o] ∧ contents o output ∧
      Gives contents executors template none (dependencies.map value).flatten output := fun hruns => by
    have hgives := hfirst.gives htrue hspec hruns.pipeline hvalues (fun i _ => by rw [hruns.shard]; rfl) hdone
    rwa [hruns.shard] at hgives
  cases hdrawn with
  | cooperative hjob _ hruns =>
    subst hjob
    obtain ⟨o, output, rfl, hcontents, hgives⟩ := alone hruns
    obtain ⟨role, hrole, hname, rfl, rfl⟩ := roleOf_cooperative hfed.role
    obtain rfl := List.mem_singleton.mp htemplate
    refine ⟨[output], ?_, .cons hcontents .nil⟩
    rw [← hname]
    exact .cooperative rfl hrole hgives
  | single hjob hrole hshards _ hruns =>
    subst hjob
    obtain ⟨o, output, rfl, hcontents, hgives⟩ := alone hruns
    obtain ⟨role, hrole', hname, rfl, rfl⟩ := roleOf_logical hfed.role
    obtain ⟨implementation, himplementation, rfl⟩ := List.mem_map.mp htemplate
    obtain rfl := logicalRole_eq (haccounted.accepted j _ hd) hrole' hrole hname
    exact ⟨[output], .whole rfl hrole' hshards himplementation hgives, .cons hcontents .nil⟩

/-! ## A chain -/

/-- **The task of a chain does what its roles mean**, one after the other. -/
theorem staged_of_fusedChain {rest : List String} (hb : s.ledger.binding t = some (.fusedChain j (r :: rest)))
    (hdone : s.taskStatus t = some (.completed outputs)) : ∃ previous output stages,
    Makes contents executors definition r dependencies (dependencies.map value) [previous] ∧
      Staged contents executors definition (r :: rest) previous output stages ∧ List.Forall₂ contents outputs [output] := by
  obtain ⟨template, htemplate, spec, inputs, hspec, hfirst, hvalues⟩ := hfed.reads t (.inr (.inr ⟨rest, hb⟩))
  obtain ⟨spec', definition', hspec', hd', hdrawn⟩ := haccounted.drawn t _ hb
  obtain rfl : spec = spec' := Option.some.inj (hspec.symm.trans hspec')
  obtain rfl : definition = definition' := Option.some.inj (hd.symm.trans hd')
  obtain ⟨spec', o, output, executor, read, hspec', rfl, hcontents, hexecutor, hread, hrun⟩ := htrue.right hdone
  obtain rfl : spec = spec' := Option.some.inj (hspec.symm.trans hspec')
  generalize hbinding : TaskRoleBinding.fusedChain j (r :: rest) = b at hdrawn
  cases hdrawn with
  | @fusedChain job chain _ hjob hplan =>
    subst hjob
    obtain ⟨-, hnames⟩ := TaskRoleBinding.fusedChain.inj hbinding
    obtain ⟨e, implementations, planned, requirements, htwo, himplementations, hfused⟩ := hplan.made
    cases himplementations with
    | nil => cases hnames
    | @cons first own chain others hown hothers =>
      obtain ⟨rfl, rfl⟩ := List.cons.inj hnames
      cases hothers with
      | nil => exact absurd htwo (by simp)
      | @cons second following chain others hfollowing hothers =>
        -- the first stage is the task of the first role
        obtain ⟨hartifact, hentrypoint, harguments, hinputs⟩ := hfirst.same (runsFirst_of_fused hfused)
        have hshard : spec.shard = none := (fusedPipelineTask_spec hfused).2.2.1
        obtain ⟨firstRead, next, hfirstRead, hnext, hpiped⟩ :=
          piped_of_fused hfused (hread.whole fun i _ => by rw [hshard]; rfl) hrun
        rw [← hinputs] at hfirstRead
        obtain ⟨ownRead, rest, rfl, hownRead, hrest⟩ := forall₂_append_left hfirstRead
        obtain rfl := htrue.all_unique hrest hvalues
        obtain ⟨role, hrole, hname, rfl, rfl⟩ := roleOf_logical hfed.role
        obtain ⟨implementation, himplementation, rfl⟩ := List.mem_map.mp htemplate
        obtain rfl := logicalRole_eq (haccounted.accepted j _ hd) hrole (hplan.roles first (List.mem_cons_self ..)) hname
        have hsingle := (List.isChain_cons_cons.mp hplan.follows).1.unshardedFirst
        have hgives : Gives contents executors implementation.task none (role.dependsOn.map value).flatten next := by
          refine ⟨ownRead, readsOf_whole hownRead, executor, hexecutor, ?_⟩
          rw [hartifact, hentrypoint, harguments]
          exact hnext
        obtain ⟨stages, hstaged⟩ := staged_of_piped hexecutor hplan.follows (.cons hfollowing hothers) hpiped
        exact ⟨next, output, stages, .whole rfl hrole (mayFanOut_of_one hsingle) himplementation hgives, hstaged,
          .cons hcontents .nil⟩
  | _ => cases hbinding

end Fed

/-! ## Shards -/

omit htrue in
theorem PartAt.of_size {partition : ShardPartitionSpec} {object object' : ObjectMetadata} {n i : Nat}
    {part : TaskShardPartition} (h : PartAt partition object n i part) (hsize : object.sizeBytes = object'.sizeBytes) :
    PartAt partition object' n i part := by
  have hbyte : ∀ i, byteAt partition object n i = byteAt partition object' n i := fun i => by
    cases partition <;> simp only [byteAt, hsize]
  have hunits : unitCount partition object = unitCount partition object' := by
    cases partition <;> simp only [unitCount, hsize]
  exact ⟨h.input, by rw [h.bytes, hbyte, hbyte], by rw [h.units, hunits], by rw [h.total, hunits]⟩

omit htrue in
theorem shard_eq {shard : TaskShard} {index count : UInt32} {partition : Option TaskShardPartition}
    (hindex : shard.index = index) (hcount : shard.count = count) (hpartition : shard.partition = partition) :
    shard = ⟨index, count, partition⟩ := by
  subst hindex hcount hpartition
  rfl

omit [F64 F] in
/-- **Shards that are drawn up as the role says cut it.** -/
theorem cutInto_of_plans {role : LogicalRoleSpec F} {shards : List TaskShard} (himplementations : role.implementations ≠ [])
    (hshards : shards ≠ []) (hplans : ∀ i shard, shards[i]? = some shard → shard.index.toNat = i ∧
      shard.count.toNat = shards.length ∧ ShardPlan s.identityOf role shard) : CutInto contents role shards := by
  have hpos : 0 < shards.length := List.length_pos_iff.mpr hshards
  have hnumbers : ∀ {i : Nat} {shard : TaskShard}, shards[i]? = some shard → shard.index = UInt32.ofNat i ∧
      shard.count = UInt32.ofNat shards.length := fun hi => by
    obtain ⟨hat, hcount, -⟩ := hplans _ _ hi
    rw [← hat, ← hcount]
    exact ⟨UInt32.ofNat_toNat.symm, UInt32.ofNat_toNat.symm⟩
  obtain ⟨first, hfirst⟩ : ∃ first, shards[0]? = some first := ⟨_, List.getElem?_eq_getElem hpos⟩
  obtain ⟨-, hcount, hplan⟩ := hplans 0 first hfirst
  cases hplan with
  | fixed hfixed _ =>
    have heq : shards = (List.range first.count.toNat).map fun i => ⟨UInt32.ofNat i, first.count, none⟩ := by
      refine List.ext_getElem (by simp [hcount]) fun i hi hi' => ?_
      have hat := List.getElem?_eq_getElem hi
      obtain ⟨hindex, hsame⟩ := hnumbers hat
      rw [List.getElem_map, List.getElem_range]
      refine shard_eq hindex (hsame.trans (hnumbers hfirst).2.symm) ?_
      cases (hplans i _ hat).2.2 with
      | fixed _ hnone => exact hnone
      | auto hauto => cases hfixed.symm.trans hauto
    rw [heq]
    exact .fixed hfixed
  | @auto policy o object part hauto hle hinputs hknown hfit _ _ =>
    -- all shards are parts of the same content
    have hparts : ∀ i ∈ List.range shards.length, ∃ part, PartAt policy.partition object shards.length i part ∧
        shards[i]? = some ⟨UInt32.ofNat i, UInt32.ofNat shards.length, some part⟩ := by
      intro i hi
      have hat := List.getElem?_eq_getElem (List.mem_range.mp hi)
      obtain ⟨hindex, hsame⟩ := hnumbers hat
      obtain ⟨hindex', hcount', hplan⟩ := hplans i _ hat
      cases hplan with
      | fixed hfixed => cases hfixed.symm.trans hauto
      | @auto policy' o' object' part hauto' _ hinputs' hknown' _ hpartition hpart =>
        cases hauto.symm.trans hauto'
        obtain ⟨implementation, himplementation⟩ := List.exists_mem_of_ne_nil _ himplementations
        obtain rfl : o = o' :=
          Option.some.inj ((hinputs _ himplementation).symm.trans (hinputs' _ himplementation))
        have hidentity : object.identity = object'.identity := Option.some.inj (hknown.symm.trans hknown')
        have hsize : object'.sizeBytes = object.sizeBytes := (congrArg ObjectMetadata.sizeBytes hidentity).symm
        rw [hindex', hcount'] at hpart
        exact ⟨part, hpart.of_size hsize, hat.trans (congrArg some (shard_eq hindex hsame hpartition))⟩
    obtain ⟨parts, hparts⟩ := exists_forall₂ hparts
    have hlength : parts.length = shards.length := by rw [← hparts.length_eq, List.length_range]
    rw [hcount] at hle
    have htiling := autoTiling hfit hpos (Nat.le_trans hle (Nat.min_le_right _ _)) (hparts.imp fun _ _ h => h.1)
    have heq : shards = parts.zipIdx.map fun entry => ⟨UInt32.ofNat entry.2, UInt32.ofNat parts.length, some entry.1⟩ := by
      refine List.ext_getElem (by simp [hlength]) fun i hi hi' => ?_
      obtain ⟨part, hpart, -, hat⟩ := forall₂_getElem? hparts (List.getElem?_range hi)
      rw [List.getElem_map, List.getElem_zipIdx, Nat.zero_add]
      obtain ⟨hlt, rfl⟩ := List.getElem?_eq_some_iff.mp hpart
      rw [← hlength] at hat
      exact Option.some.inj ((List.getElem?_eq_getElem hi).symm.trans hat)
    obtain ⟨b, hb, hsize⟩ := htrue.known hknown
    have hlong : object.sizeBytes.toNat = b.length := hsize
    rw [heq]
    refine .auto hauto hinputs hb hlong hfit htiling (List.ne_nil_of_length_pos (by rwa [hlength])) ?_
    rw [hlength]
    exact Nat.le_trans hle (Nat.min_le_left _ _)

omit htrue in
theorem inputByteRange_of_ne {part : TaskShardPartition} {input i : Nat} {range : UInt64 × UInt64}
    (h : part.inputByteRange input = some range) (hne : input ≠ i) : part.inputByteRange i = none := by
  cases part <;>
  · simp only [TaskShardPartition.inputByteRange] at h ⊢
    split at h
    · rename_i hown
      exact if_neg fun hsame => hne (hown.symm.trans hsame)
    · cases h

omit [F64 F] in
omit htrue in
/-- Outside the partitioned input, inputs are read as they are. -/
theorem ShardPlan.whole {known : ObjectId → Option ObjectMetadata} {role : LogicalRoleSpec F} {shard : TaskShard}
    (h : ShardPlan known role shard) {implementation : RoleImplementation F}
    (himplementation : implementation ∈ role.implementations) {i : Nat} (hi : implementation.task.inputs.length ≤ i) :
    shardRange (some shard) i = none := by
  cases h with
  | fixed _ hnone =>
    change shard.partition.bind _ = none
    rw [hnone]
    rfl
  | @auto policy o object part _ _ hinputs _ _ hpartition hpart =>
    change shard.partition.bind _ = none
    rw [hpartition, Option.bind_some]
    have hlt : policy.partition.input < implementation.task.inputs.length :=
      (List.getElem?_eq_some_iff.mp (hinputs implementation himplementation)).1
    exact inputByteRange_of_ne hpart.input (by omega)

section Fed

variable {job : LogicalJobSpec F} {role : LogicalRoleSpec F} {value : String → List Bytes}
  (hd : s.ledger.definition j = some (.logical job)) (hrole : role ∈ job.roles)
  (hfed : Fed contents s j (.logical job) role.name role.dependsOn (role.implementations.map (·.task)) value)

include haccounted hd hrole hfed

/-- A shard gives what one of the role's templates gives on it. -/
theorem shard_gives (hb : s.ledger.binding t = some (.shard j role.name)) {spec : TaskSpec F}
    (hspec : s.taskSpec t = some spec) {shard : TaskShard} (hshard : spec.shard = some shard)
    (hdone : s.taskStatus t = some (.completed outputs)) :
    role.shards.mayFanOut = true ∧ ShardPlan s.identityOf role shard ∧ ∃ o output, outputs = [o] ∧ contents o output ∧
      ∃ implementation ∈ role.implementations,
        Gives contents executors implementation.task (some shard) (role.dependsOn.map value).flatten output := by
  obtain ⟨template, htemplate, spec', inputs, hspec', hfirst, hvalues⟩ := hfed.reads t (.inr (.inl hb))
  obtain rfl : spec = spec' := Option.some.inj (hspec.symm.trans hspec')
  obtain ⟨spec', definition', hspec', hd', hdrawn⟩ := haccounted.drawn t _ hb
  obtain rfl : spec = spec' := Option.some.inj (hspec.symm.trans hspec')
  obtain rfl : JobDefinition.logical job = definition' := Option.some.inj (hd.symm.trans hd')
  generalize hbinding : TaskRoleBinding.shard j role.name = b at hdrawn
  cases hdrawn with
  | @shard job' role' shard' _ hjob hrole' hfan hpipeline hshard' hplan =>
    obtain ⟨-, hname⟩ := TaskRoleBinding.shard.inj hbinding
    obtain rfl := JobDefinition.logical.inj hjob
    obtain rfl := logicalRole_eq (haccounted.accepted j _ hd) hrole hrole' hname
    obtain rfl : shard = shard' := Option.some.inj (hshard.symm.trans hshard')
    obtain ⟨implementation, himplementation, rfl⟩ := List.mem_map.mp htemplate
    obtain ⟨o, output, rfl, hcontents, hgives⟩ := hfirst.gives htrue hspec hpipeline hvalues
      (fun i hi => by rw [hshard]; exact hplan.whole himplementation hi) hdone
    rw [hshard] at hgives
    exact ⟨hfan, hplan, o, output, rfl, hcontents, implementation, himplementation, hgives⟩
  | _ => cases hbinding

end Fed

/-! ## Reductions -/

omit [F64 F] in
/-- The run of a task by itself, on the contents of all its inputs. -/
theorem TrueTo.runs {spec : TaskSpec F} {values : List Bytes}
    (hspec : s.taskSpec t = some spec) (hpipeline : spec.pipeline = none) (hshard : spec.shard = none)
    (hvalues : List.Forall₂ contents spec.inputs values) {o : ObjectId} (hdone : s.taskStatus t = some (.completed [o])) :
    ∃ output executor, contents o output ∧ executor ∈ executors ∧
      executeOperation executor spec.artifact spec.entrypoint spec.arguments values none = .ok output := by
  obtain ⟨spec', o', output, executor, read, hspec', houtputs, hcontents, hexecutor, hread, hrun⟩ := htrue.right hdone
  obtain rfl : spec = spec' := Option.some.inj (hspec.symm.trans hspec')
  obtain rfl := List.singleton_inj.mp houtputs
  obtain rfl := htrue.all_unique (hread.whole fun i _ => by rw [hshard]; rfl) hvalues
  refine ⟨output, executor, hcontents, hexecutor, ?_⟩
  rwa [executeTaskWithPolicy, hpipeline, hshard] at hrun

include haccounted in
/-- **A reduction combines neighbours**: what objects were made from has been combined into their contents. -/
theorem combines_of_yields (hd : s.ledger.definition j = some definition) {reduction : RoleReductionSpec F}
    (hreduction : logicalRoleReduction definition r = some reduction) {objects made : List ObjectId}
    (h : Yields s.ledger j r objects made) : ∀ {values : List Bytes}, List.Forall₂ contents made values →
    ∃ results, List.Forall₂ contents objects results ∧
      Combines (Gives contents executors reduction.task none) values results := by
  induction h with
  | nil =>
    intro values hvalues
    cases hvalues
    exact ⟨[], .nil, .nil⟩
  | shard _ _ _ _ ih =>
    intro values hvalues
    cases hvalues with
    | cons hfirst hrest =>
      obtain ⟨results, hresults, hcombines⟩ := ih hrest
      exact ⟨_, .cons hfirst hresults, .keep hcombines⟩
  | @reducer t spec o rest xs ys hb hp hspec _ _ ih ih' =>
    intro values hvalues
    obtain ⟨front, back, rfl, hfront, hback⟩ := forall₂_append_left hvalues
    obtain ⟨group, hgroup, hcombines⟩ := ih hfront
    obtain ⟨results, hresults, hcombines'⟩ := ih' hback
    obtain ⟨spec', definition', hspec', hd', hdrawn⟩ := haccounted.drawn t _ hb
    obtain rfl : spec = spec' := Option.some.inj (hspec.symm.trans hspec')
    obtain rfl : definition = definition' := Option.some.inj (hd.symm.trans hd')
    cases hdrawn with
    | reduction hreduction' hruns =>
      obtain rfl := Option.some.inj (hreduction.symm.trans hreduction')
      obtain ⟨output, executor, hcontents, hexecutor, hrun⟩ :=
        htrue.runs hspec hruns.pipeline hruns.shard hgroup (taskStatus_completed.mpr hp)
      have hinputs := (logicalRoleReduction_valid (haccounted.accepted j _ hd) hreduction).inputs
      obtain ⟨hartifact, hprogram⟩ := Prod.mk.inj hruns.program
      obtain ⟨hentrypoint, harguments⟩ := Prod.mk.inj hprogram
      rw [hartifact, hentrypoint, harguments] at hrun
      refine ⟨output :: results, .cons hcontents hresults, .reduce hcombines ⟨[], ?_, executor, hexecutor, hrun⟩ hcombines'⟩
      rw [hinputs]
      exact .nil

/-! ## Sharded roles -/

omit htrue in
theorem logicalRoleReduction_eq {job : LogicalJobSpec F} (haccepted : (JobDefinition.logical job).Accepted)
    {role : LogicalRoleSpec F} (hrole : role ∈ job.roles) :
    logicalRoleReduction (.logical job) role.name = role.reduction := by
  have hfound : (job.roles.find? fun role' => role'.name = role.name).isSome = true :=
    List.find?_isSome.mpr ⟨role, hrole, decide_eq_true rfl⟩
  obtain ⟨found, hfound⟩ := Option.isSome_iff_exists.mp hfound
  have hname : found.name = role.name := by simpa using List.find?_some hfound
  obtain rfl := logicalRole_eq haccepted (List.mem_of_find?_eq_some hfound) hrole hname
  rw [logicalRoleReduction, hfound, Option.bind_some]

omit [F64 F] in
omit htrue in
theorem doneOutputs_of_forall₂ {L : Ledger F} {tasks : List TaskId} {done : List (List ObjectId)}
    (h : List.Forall₂ (fun t outputs => L.progress t = .completed outputs) tasks done) : L.doneOutputs tasks = done := by
  induction h with
  | nil => rfl
  | cons hfirst _ ih =>
    rw [Ledger.doneOutputs, List.filterMap_cons, hfirst]
    exact congrArg _ ih

/-- A completed shard: its place, its output, and what that contains. -/
structure DoneShard where
  shard : TaskShard
  object : ObjectId
  output : Bytes

include haccounted in
/-- **Shards come to what their role means.** -/
theorem comesTo_of_shards {job : LogicalJobSpec F} {role : LogicalRoleSpec F} {value : String → List Bytes}
    (hd : s.ledger.definition j = some (.logical job)) (hrole : role ∈ job.roles)
    (hfed : Fed contents s j (.logical job) role.name role.dependsOn (role.implementations.map (·.task)) value)
    (hb : s.ledger.binding t = some (.shard j role.name)) {tasks : List TaskId}
    (hcompletes : CompletesOk s.ledger j role.name outputs tasks) :
    ComesTo contents executors (.logical job) role.name role.dependsOn value outputs := by
  have hfound : ∀ t ∈ tasks, ∃ found : DoneShard, (∃ spec, s.taskSpec t = some spec ∧ spec.shard = some found.shard) ∧
      s.ledger.progress t = .completed [found.object] ∧ contents found.object found.output ∧
      role.shards.mayFanOut = true ∧ ShardPlan s.identityOf role found.shard ∧ ∃ implementation ∈ role.implementations,
        Gives contents executors implementation.task (some found.shard) (role.dependsOn.map value).flatten found.output := by
    intro t ht
    obtain ⟨i, hi⟩ := List.mem_iff_getElem?.mp ht
    obtain ⟨hbinding, spec, hspec, shard, hshard, -⟩ := hcompletes.done.shards i t hi
    obtain ⟨done, hdone⟩ := hcompletes.done.done t ht
    obtain ⟨hfan, hplan, o, output, rfl, hcontents, hgives⟩ :=
      shard_gives htrue haccounted hd hrole hfed hbinding hspec hshard (taskStatus_completed.mpr hdone)
    exact ⟨⟨shard, o, output⟩, ⟨spec, hspec, hshard⟩, hdone, hcontents, hfan, hplan, hgives⟩
  obtain ⟨found, hfound⟩ := exists_forall₂ hfound
  obtain ⟨first, hfirst, -, -, -, hfan, -, implementation, himplementation, -⟩ :=
    forall₂_mem_left hfound (hcompletes.done.all t hb)
  have hlength : tasks.length = found.length := hfound.length_eq
  have houtputs : (s.ledger.doneOutputs tasks).flatten = found.map (·.object) := by
    rw [doneOutputs_of_forall₂ (List.forall₂_map_right_iff.mpr (hfound.imp fun _ _ h => h.2.1)), ← List.flatMap_def]
    exact List.map_eq_flatMap.symm
  have hcontents : List.Forall₂ contents (found.map (·.object)) (found.map (·.output)) := by
    refine List.forall₂_map_left_iff.mpr (List.forall₂_map_right_iff.mpr (List.forall₂_same.mpr fun x hx => ?_))
    obtain ⟨-, -, -, -, hcontents, -⟩ := forall₂_mem_right hfound hx
    exact hcontents
  have hgives : List.Forall₂ (fun shard output => ∃ implementation ∈ role.implementations,
      Gives contents executors implementation.task (some shard) (role.dependsOn.map value).flatten output)
      (found.map (·.shard)) (found.map (·.output)) := by
    refine List.forall₂_map_left_iff.mpr (List.forall₂_map_right_iff.mpr (List.forall₂_same.mpr fun x hx => ?_))
    obtain ⟨-, -, -, -, -, -, -, hgives⟩ := forall₂_mem_right hfound hx
    exact hgives
  have hcut : CutInto contents role (found.map (·.shard)) := by
    refine cutInto_of_plans htrue (List.ne_nil_of_mem himplementation) (List.ne_nil_of_mem (List.mem_map_of_mem hfirst))
      fun i shard hi => ?_
    rw [List.getElem?_map] at hi
    obtain ⟨x, hx, rfl⟩ := Option.map_eq_some_iff.mp hi
    obtain ⟨t, ht, ⟨spec, hspec, hshard⟩, -, -, -, hplan, -⟩ := forall₂_getElem? hfound.flip hx
    obtain ⟨-, spec', hspec', shard', hshard', hindex, hcount⟩ := hcompletes.done.shards i t ht
    obtain rfl : spec = spec' := Option.some.inj (hspec.symm.trans hspec')
    obtain rfl := Option.some.inj (hshard.symm.trans hshard')
    rw [List.length_map, ← hlength]
    exact ⟨hindex, hcount, hplan⟩
  have hreduction := logicalRoleReduction_eq (haccounted.accepted j _ hd) hrole
  have makes : ∀ {results : List Bytes}, JoinedTo contents executors role (found.map (·.output)) results →
      Makes contents executors (.logical job) role.name role.dependsOn (role.dependsOn.map value) results := fun hjoined =>
    .shards rfl hrole hfan hcut hgives hjoined
  by_cases hplain : role.reduction = none ∨ (found.map (·.output)).length ≤ 1
  · have hresult := hcompletes.plain _ hd (by rw [hreduction, houtputs, List.length_map]; rwa [List.length_map] at hplain)
    rw [hresult, houtputs]
    exact ⟨_, makes (.plain hplain), hcontents⟩
  · rw [not_or, Nat.not_le] at hplain
    obtain ⟨reduction, hsome⟩ := Option.ne_none_iff_exists'.mp hplain.1
    obtain ⟨o, rfl, hyields⟩ := hcompletes.reduced _ hd (by rw [hreduction, hsome]; rfl)
      (by rw [houtputs, List.length_map]; simpa using hplain.2)
    rw [houtputs] at hyields
    obtain ⟨results, hresults, hcombines⟩ :=
      combines_of_yields htrue haccounted hd (hreduction.trans hsome) hyields hcontents
    cases hresults with
    | @cons _ result _ _ hresult hnil =>
      cases hnil
      exact ⟨[result], makes (.reduced hsome hplain.2 hcombines), .cons hresult .nil⟩

/-! ## All roles -/

section Roles

variable (hd : s.ledger.definition j = some definition)

include haccounted hd

/-- **Completed roles do what they mean.** A role that is not inside a fused chain has its outputs from a chain that it ends,
or has made them itself. -/
theorem delivered_comesTo {value : String → List Bytes}
    (hbefore : ∀ d, DependsOn (jobRoles definition) d r → HoldsOf contents s j d (value d))
    (hdone : s.ledger.role j r = some (.completed outputs)) (houter : ¬s.ledger.Interior j r) :
    (∃ dependencies templates, Fed contents s j definition r dependencies templates value ∧
      ComesTo contents executors definition r dependencies value outputs) ∨
    ∃ t front, s.ledger.binding t = some (.fusedChain j (front ++ [r])) ∧ s.ledger.progress t = .completed outputs := by
  have fed : ∀ {t : TaskId}, s.ledger.Starts t j r → ∃ dependencies templates,
      Fed contents s j definition r dependencies templates value := fed_of_starts haccounted hd hbefore
  rcases haccounted.delivered j r outputs hdone with ⟨t, hdelivers⟩ | ⟨t, hb⟩
  · cases hdelivers with
    | whole hb hp =>
      obtain ⟨dependencies, templates, hfed⟩ := fed (.inl hb)
      exact .inl ⟨dependencies, templates, hfed, comesTo_of_single htrue haccounted hd hfed hb (taskStatus_completed.mpr hp)⟩
    | @last front hb hp => exact .inr ⟨t, front, hb, hp⟩
    | inside hb hr => exact absurd ⟨t, _, hb, hr⟩ houter
  · obtain ⟨dependencies, templates, hfed⟩ := fed (.inr (.inl hb))
    obtain ⟨tasks, hcompletes⟩ := haccounted.fanIn.completed t j r outputs hb hdone
    refine .inl ⟨dependencies, templates, hfed, ?_⟩
    cases definition with
    | cooperative job =>
      -- only logical jobs have shards
      obtain ⟨spec, definition', -, hd', hdrawn⟩ := haccounted.drawn t _ hb
      obtain rfl := Option.some.inj (hd.symm.trans hd')
      cases hdrawn with
      | shard hjob => cases hjob
    | logical job =>
      obtain ⟨role, hrole, rfl, rfl, rfl⟩ := roleOf_logical hfed.role
      exact comesTo_of_shards htrue haccounted hd hrole hfed hb hcompletes

end Roles

end Results

end Plurifold
