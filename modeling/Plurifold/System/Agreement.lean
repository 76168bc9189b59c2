import Plurifold.System.Totals

/-!
# Runs agree

A definition is rigid if it leaves no choice: a role has one implementation and a fixed number of shards, and nothing is
reduced. Its roles have one meaning (`Means.agree`), so any two completed runs of it come to the same outputs, however
different the runs are (`completed_runs_agree`).
-/

namespace Plurifold

open Lib Attempt Fabric CoordinatorState Site

variable {F : Type} [F64 F]

/-! ## Rigid definitions -/

/-- There is no choice in the definition. -/
def JobDefinition.Rigid : JobDefinition F → Prop
  | .cooperative _ => True
  | .logical job => ∀ role ∈ job.roles, role.implementations.length ≤ 1 ∧ role.shards.auto = none ∧ role.reduction = none

/-- The templates of the roles. -/
def JobDefinition.templates : JobDefinition F → List (TaskTemplate F)
  | .cooperative job => job.roles.map (·.task)
  | .logical job => job.roles.flatMap fun role => role.implementations.map (·.task)

omit [F64 F] in
theorem mem_templates {job : LogicalJobSpec F} {role : LogicalRoleSpec F} (hrole : role ∈ job.roles)
    {implementation : RoleImplementation F} (himplementation : implementation ∈ role.implementations) :
    implementation.task ∈ (JobDefinition.logical job).templates :=
  List.mem_flatMap.mpr ⟨role, hrole, List.mem_map_of_mem himplementation⟩

theorem eq_of_length_le_one {α : Type} {l : List α} (h : l.length ≤ 1) {a b : α} (ha : a ∈ l) (hb : b ∈ l) : a = b := by
  obtain ⟨c, rfl⟩ := List.length_eq_one_iff.mp (Nat.le_antisymm h (List.length_pos_of_mem ha))
  rw [List.mem_singleton.mp ha, List.mem_singleton.mp hb]

section Meaning

variable {contents contents' : ObjectId → Bytes → Prop} {executors executors' : Set Executor} {definition : JobDefinition F}

/-- The executors run programs alike. -/
def Alike (executors executors' : Set Executor) : Prop := ∀ executor ∈ executors, ∀ executor' ∈ executors', executor = executor'

/-- The objects that templates name are the same. -/
def SameInputs (contents contents' : ObjectId → Bytes → Prop) (templates : List (TaskTemplate F)) : Prop :=
  ∀ template ∈ templates, ∀ o ∈ template.inputs, ∀ b b', contents o b → contents' o b' → b = b'

omit [F64 F] in
theorem Gives.agree (halike : Alike executors executors') {templates : List (TaskTemplate F)}
    (hsame : SameInputs contents contents' templates) {template : TaskTemplate F} (htemplate : template ∈ templates)
    {shard : Option TaskShard} {inputs : List Bytes} {output output' : Bytes}
    (h : Gives contents executors template shard inputs output) (h' : Gives contents' executors' template shard inputs output') :
    output = output' := by
  obtain ⟨own, hown, executor, hexecutor, hrun⟩ := h.runs
  obtain ⟨own', hown', executor', hexecutor', hrun'⟩ := h'.runs
  obtain rfl := halike executor hexecutor executor' hexecutor'
  have hreads : own = own' := by
    refine forall₂_agree hown hown' ?_
    rintro ⟨o, i⟩ hentry bytes bytes' ⟨b, hb, hbytes⟩ ⟨b', hb', hbytes'⟩
    obtain rfl := hsame template htemplate o (List.fst_mem_of_mem_zipIdx hentry) b b' hb hb'
    rw [hbytes.bytes, hbytes'.bytes]
  subst hreads
  exact Except.ok.inj (hrun.symm.trans hrun')

omit [F64 F] in
theorem CutInto.agree {role : LogicalRoleSpec F} (hauto : role.shards.auto = none) {shards shards' : List TaskShard}
    (h : CutInto contents role shards) (h' : CutInto contents' role shards') : shards = shards' := by
  cases h with
  | auto hpolicy =>
    rw [hpolicy] at hauto
    cases hauto
  | fixed hcount =>
    cases h' with
    | auto hpolicy => cases hcount.symm.trans hpolicy
    | fixed hcount' =>
      cases hcount.symm.trans hcount'
      rfl

omit [F64 F] in
theorem JoinedTo.agree {role : LogicalRoleSpec F} (hreduction : role.reduction = none) {outputs result : List Bytes}
    (h : JoinedTo contents executors role outputs result) : result = outputs := by
  cases h with
  | plain => rfl
  | reduced hreduction' => cases hreduction.symm.trans hreduction'

/-- A role of a rigid definition makes the same of the same. -/
theorem Makes.agree (haccepted : definition.Accepted) (hrigid : definition.Rigid) (halike : Alike executors executors')
    (hsame : SameInputs contents contents' definition.templates) {r : String} {dependencies dependencies' : List String}
    {inputs inputs' : List (List Bytes)} {outputs outputs' : List Bytes}
    (h : Makes contents executors definition r dependencies inputs outputs)
    (h' : Makes contents' executors' definition r dependencies' inputs' outputs') :
    dependencies = dependencies' ∧ (inputs = inputs' → outputs = outputs') := by
  cases h with
  | @cooperative job role _ output hdefinition hrole hgives =>
    subst hdefinition
    generalize hname : role.name = r at h'
    cases h' with
    | cooperative hdefinition' hrole' hgives' =>
      cases hdefinition'
      obtain rfl := cooperativeRole_eq haccepted hrole hrole' hname
      refine ⟨rfl, fun hinputs => ?_⟩
      subst hinputs
      rw [hgives.agree halike hsame (List.mem_map_of_mem hrole) hgives']
    | whole hdefinition' => cases hdefinition'
    | shards hdefinition' => cases hdefinition'
  | @whole job role implementation _ output hdefinition hrole hfan himplementation hgives =>
    subst hdefinition
    obtain ⟨hone, -, -⟩ := hrigid role hrole
    generalize hname : role.name = r at h'
    cases h' with
    | cooperative hdefinition' => cases hdefinition'
    | whole hdefinition' hrole' _ himplementation' hgives' =>
      cases hdefinition'
      obtain rfl := logicalRole_eq haccepted hrole hrole' hname
      refine ⟨rfl, fun hinputs => ?_⟩
      subst hinputs
      obtain rfl := eq_of_length_le_one hone himplementation himplementation'
      rw [hgives.agree halike hsame (mem_templates hrole himplementation) hgives']
    | shards hdefinition' hrole' hfan' =>
      cases hdefinition'
      obtain rfl := logicalRole_eq haccepted hrole hrole' hname
      cases hfan.symm.trans hfan'
  | @shards job role shards _ outputs _ hdefinition hrole hfan hcut hgives hjoined =>
    subst hdefinition
    obtain ⟨hone, hauto, hreduction⟩ := hrigid role hrole
    generalize hname : role.name = r at h'
    cases h' with
    | cooperative hdefinition' => cases hdefinition'
    | whole hdefinition' hrole' hfan' =>
      cases hdefinition'
      obtain rfl := logicalRole_eq haccepted hrole hrole' hname
      cases hfan.symm.trans hfan'
    | shards hdefinition' hrole' _ hcut' hgives' hjoined' =>
      cases hdefinition'
      obtain rfl := logicalRole_eq haccepted hrole hrole' hname
      refine ⟨rfl, fun hinputs => ?_⟩
      subst hinputs
      obtain rfl := hcut.agree hauto hcut'
      rw [hjoined.agree hreduction, hjoined'.agree hreduction]
      refine forall₂_agree hgives hgives' ?_
      rintro shard - output output' ⟨implementation, himplementation, hgives⟩ ⟨implementation', himplementation', hgives'⟩
      obtain rfl := eq_of_length_le_one hone himplementation himplementation'
      exact hgives.agree halike hsame (mem_templates hrole himplementation) hgives'

/-- **A rigid definition has one meaning.** -/
theorem Means.agree (haccepted : definition.Accepted) (hrigid : definition.Rigid) (halike : Alike executors executors')
    (hsame : SameInputs contents contents' definition.templates) {r : String} {outputs outputs' : List Bytes}
    (h : Means contents executors definition r outputs) (h' : Means contents' executors' definition r outputs') :
    outputs = outputs' :=
  Flow.agree (fun _ _ _ _ _ _ _ hmakes hmakes' => hmakes.agree haccepted hrigid halike hsame hmakes') h h'

end Meaning

/-! ## Two runs -/

namespace Sample

/-- A role of two shards, whose outputs are not reduced. -/
def halvesJob : LogicalJobSpec ℚ where
  id := ⟨1⟩
  roles := [{ foldRole with reduction := none }]
  outputs := ["fold"]

/-- Two agents. -/
def halvesDeployment : Deployment ℚ := { tallyDeployment with sha := foldSha }

/-- One agent executes both shards. -/
def alone : List (Party × Chance ℚ) :=
  joins ⟨1⟩ 0 ++ asks (.autoSubmit (.ok ()) halvesJob) 2 0 1 ++ polls ⟨1⟩ 2 ++ works 2 3 ++ polls ⟨1⟩ 4 ++ works 4 5

/-- Each agent executes one of the shards. -/
def together : List (Party × Chance ℚ) :=
  joins ⟨2⟩ 0 ++ joins ⟨1⟩ 1 ++ asks (.autoSubmit (.ok ()) halvesJob) 2 0 2 ++ polls ⟨1⟩ 3 ++ polls ⟨2⟩ 4 ++ works 4 5 ++
    works 3 6

def doneAlone : Site ℚ :=
  (reached foldDeployment (Env.numbered fun _ => 0) (Env.numbered fun _ => 0) 100 100 alone).shared

def doneTogether : Site ℚ :=
  (reached halvesDeployment (Env.numbered fun _ => 0) (Env.numbered fun _ => 0) 100 100 together).shared

theorem doneAlone_ended : Ended doneAlone [[58, 48, 58, 50], [58, 49, 58, 50]] (.logical halvesJob) [⟨4⟩, ⟨2⟩] := by
  decide +kernel

theorem doneTogether_ended : Ended doneTogether [[58, 49, 58, 50], [58, 48, 58, 50]] (.logical halvesJob) [⟨2⟩, ⟨4⟩] := by
  decide +kernel

theorem doneAlone_sane : Sane foldDeployment.sha doneAlone :=
  sane_of_written doneAlone_ended.1 (by decide +kernel) (by decide)

theorem doneTogether_sane : Sane halvesDeployment.sha doneTogether :=
  sane_of_written doneTogether_ended.1 (by decide +kernel) (by decide)

theorem rigid_halvesJob : (JobDefinition.logical halvesJob).Rigid := by
  intro role hrole
  cases List.mem_singleton.mp hrole
  exact ⟨Nat.le_refl _, rfl, rfl⟩

theorem sameInputs_halvesJob (contents contents' : ObjectId → Bytes → Prop) :
    SameInputs contents contents' (JobDefinition.logical halvesJob).templates := by
  intro template htemplate o ho
  cases List.mem_singleton.mp htemplate
  cases ho

end Sample

/-! ## Completed jobs -/

section Runs

variable {d d' : Deployment F} {e e' ids ids' : Env} {m m' x x' : UInt64} {events events' : List (Party × Chance F)}

/-- **Completed runs agree.** Two runs, of one deployment or of two whose agents run programs alike, that have completed a job
of one rigid definition on the same inputs have come to the same outputs; however different the agents, their placement, the
clocks, the losses and the order of events. -/
theorem completed_runs_agree (hsane : Sane d.sha (reached d e ids m x events).shared)
    (hsane' : Sane d'.sha (reached d' e' ids' m' x' events').shared)
    (hfresh : FreshRequests e (reached d e ids m x events).shared.log)
    (hfresh' : FreshRequests e' (reached d' e' ids' m' x' events').shared.log)
    (halike : ∀ r r', d.executor r = d'.executor r') {j j' : JobId} {job job' : CooperativeJobRecord F}
    (hjob : (reached d e ids m x events).shared.coordinator.fabric.jobs.lookup j = some job)
    (hjob' : (reached d' e' ids' m' x' events').shared.coordinator.fabric.jobs.lookup j' = some job')
    (hdefinition : job.definition = job'.definition) (hrigid : job.definition.Rigid)
    (hsame : SameInputs ((reached d e ids m x events).shared.Contents d)
      ((reached d' e' ids' m' x' events').shared.Contents d') job.definition.templates) {result result' : List ObjectId}
    (hcompleted : (reached d e ids m x events).shared.coordinator.fabric.cooperativeJobStatus j = some (.completed result))
    (hcompleted' : (reached d' e' ids' m' x' events').shared.coordinator.fabric.cooperativeJobStatus j' =
      some (.completed result')) :
    ∃ outputs, List.Forall₂ ((reached d e ids m x events).shared.Contents d) result outputs ∧
      List.Forall₂ ((reached d' e' ids' m' x' events').shared.Contents d') result' outputs := by
  have hok := reached_ok hsane
  obtain ⟨value, -, hmeans, hresult⟩ := hok.means hsane hfresh hjob hcompleted
  obtain ⟨value', -, hmeans', hresult'⟩ := (reached_ok hsane').means hsane' hfresh' hjob' hcompleted'
  have haccepted := (hok.accounted hfresh).accepted j _ (definition_of_lookup hjob)
  have hexecutors : Alike (Set.range d.executor) (Set.range d'.executor) := by
    rintro _ ⟨r, rfl⟩ _ ⟨r', rfl⟩
    exact halike r r'
  rw [← hdefinition] at hmeans' hresult'
  have hvalues : (jobOutputs job.definition).map value = (jobOutputs job.definition).map value' :=
    List.map_congr_left fun r hr => (hmeans r hr).agree haccepted hrigid hexecutors hsame (hmeans' r hr)
  refine ⟨_, hresult, ?_⟩
  rwa [List.flatMap_def, hvalues, ← List.flatMap_def]

theorem completed_runs_agree_halves : ∃ outputs,
    List.Forall₂ (Sample.doneAlone.Contents Sample.foldDeployment) [⟨4⟩, ⟨2⟩] outputs ∧
    List.Forall₂ (Sample.doneTogether.Contents Sample.halvesDeployment) [⟨2⟩, ⟨4⟩] outputs := by
  obtain ⟨job, hjob, hdefinition⟩ := Sample.doneAlone_ended.job
  obtain ⟨job', hjob', hdefinition'⟩ := Sample.doneTogether_ended.job
  have hresults := @completed_runs_agree _ _ Sample.foldDeployment Sample.halvesDeployment (Env.numbered fun _ => 0)
    (Env.numbered fun _ => 0) (Env.numbered fun _ => 0) (Env.numbered fun _ => 0) 100 100 100 100 Sample.alone Sample.together
  rw [← Sample.doneAlone, ← Sample.doneTogether] at hresults
  exact hresults Sample.doneAlone_sane Sample.doneTogether_sane Sample.doneAlone_ended.fresh Sample.doneTogether_ended.fresh
    (fun _ _ => rfl) hjob hjob' (hdefinition.trans hdefinition'.symm) (by rw [hdefinition]; exact Sample.rigid_halvesJob)
    (by rw [hdefinition]; exact Sample.sameInputs_halvesJob _ _) Sample.doneAlone_ended.completed
    Sample.doneTogether_ended.completed

end Runs

end Plurifold
