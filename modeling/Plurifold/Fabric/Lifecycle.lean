import Plurifold.Fabric.Graph
import Plurifold.Fabric.Run

/-!
# What one call can do to a task

A relation between the states before and after a call holds if the updates of the call keep it (`LaunchKeeps`,
`RolesKeep`, and `completeExecution_along` and its like for whole calls).

Whatever a call does to the jobs, it touches task records in few ways. Role handling only adds pending tasks
(`keptByRoles_grows`); `event_moves` lists the moves of a single record over one call:

    absent ─→ Pending ─→ Running ─→ Completed
                 ↑          │  ↺ renew
                 └──────────┴─→ Uncertain

No move leaves `Completed` or `Uncertain`, and only an expired lease leads back to `Pending`.
-/

namespace Plurifold

open Lib Attempt

variable {F : Type}

namespace Fabric

/-! ## Ready roles -/

/-- The role that a round of materialization is about. -/
def ReadyRole.name : ReadyRole F → String
  | .cooperative name _ => name
  | .logical name _ _ _ => name

/-- The roles that starting this one may touch. -/
def ReadyRole.names : ReadyRole F → List String
  | .cooperative name _ => [name]
  | .logical _ _ _ chain => chain.map (·.name)

/-- Where a ready role comes from. -/
theorem readyRoles_cases {e : Env} {job : CooperativeJobRecord F} {item : ReadyRole F} (h : item ∈ readyRoles e job) :
    (∃ (spec : CooperativeJobSpec F) (role : CooperativeRoleSpec F) (i : Nat) (inputs : List ObjectId),
      job.definition = .cooperative spec ∧ role ∈ spec.roles ∧
      item = .cooperative role.name (role.task.instantiate (e.sub i) inputs)) ∨
    ∃ (spec : LogicalJobSpec F) (role : LogicalRoleSpec F) (inputs : List ObjectId),
      job.definition = .logical spec ∧ role ∈ spec.roles ∧
      item = .logical role.name role inputs (fusionChain spec job.roles role) := by
  unfold readyRoles at h
  cases hd : job.definition with
  | cooperative spec =>
    rw [hd] at h
    obtain ⟨⟨role, i⟩, hmem, hentry⟩ := List.mem_filterMap.mp h
    unfold readyCooperative at hentry
    dsimp only at hentry
    split at hentry
    · obtain ⟨inputs, -, rfl⟩ := Option.map_eq_some_iff.mp hentry
      exact .inl ⟨spec, role, i, inputs, rfl, List.fst_mem_of_mem_zipIdx hmem, rfl⟩
    · cases hentry
  | logical spec =>
    rw [hd] at h
    obtain ⟨role, hmem, hrole⟩ := List.mem_filterMap.mp h
    unfold readyLogical at hrole
    split at hrole
    · obtain ⟨inputs, -, rfl⟩ := Option.map_eq_some_iff.mp hrole
      exact .inr ⟨spec, role, inputs, rfl, hmem, rfl⟩
    · cases hrole

/-- A ready role is among the roles that starting it may touch. -/
theorem readyRoles_name {e : Env} {job : CooperativeJobRecord F} {item : ReadyRole F} (h : item ∈ readyRoles e job) :
    item.name ∈ item.names := by
  rcases readyRoles_cases h with ⟨_, role, i, inputs, -, -, rfl⟩ | ⟨_, role, inputs, -, -, rfl⟩
  · exact List.mem_singleton_self _
  · exact List.mem_cons_self ..

/-- All of these are roles of the job. -/
theorem readyRoles_names {e : Env} {job : CooperativeJobRecord F} {item : ReadyRole F} (h : item ∈ readyRoles e job) :
    ∀ r ∈ item.names, r ∈ (jobRoles job.definition).map Prod.fst := by
  rcases readyRoles_cases h with ⟨spec, role, i, inputs, hd, hmem, rfl⟩ | ⟨spec, role, inputs, hd, hmem, rfl⟩
  · intro r hr
    rw [List.mem_singleton.mp hr, hd, jobRoles, List.map_map]
    exact List.mem_map.mpr ⟨role, hmem, rfl⟩
  · obtain ⟨rest, hchain, hlinked⟩ := fusionChain_linked spec job.roles role
    intro r hr
    rw [ReadyRole.names, hchain] at hr
    obtain ⟨role', hrole', rfl⟩ := List.mem_map.mp hr
    rw [hd, jobRoles, List.map_map]
    exact List.mem_map.mpr ⟨role', hlinked.mem hmem role' hrole', rfl⟩

theorem mem_jobRoles_of_reduction {definition : JobDefinition F} {r : String} {reduction : RoleReductionSpec F}
    (h : logicalRoleReduction definition r = some reduction) : r ∈ (jobRoles definition).map Prod.fst := by
  cases definition with
  | cooperative spec => cases h
  | logical spec =>
    obtain ⟨role, hfind, -⟩ := Option.bind_eq_some_iff.mp h
    rw [jobRoles, List.map_map]
    have hname : role.name = r := by simpa using List.find?_some hfind
    exact List.mem_map.mpr ⟨role, List.mem_of_find?_eq_some hfind, hname⟩

/-! ## Materialization, for any relation its updates keep -/

/-- The status of a role that is tried or worked on. -/
def launched : CooperativeRoleStatus → Bool
  | .ready | .submitted _ | .sharded _ _ | .reducing _ _ _ => true
  | _ => false

/-- A relation on states that the updates of a materialization of the named roles of job `j` keep. A task is submitted
and bound in one go: what follows a refused submission is not reached. -/
structure LaunchKeeps (j : JobId) (named : String → Prop) (R : Fabric F → Fabric F → Prop) : Prop where
  create : ∀ task b, b.job = j → (∀ r ∈ b.roles, named r) →
    (submit task >>= fun _ => update (bindTask task.id b)).Along R
  launch : ∀ r status s, named r → launched status = true → R s (setRole j r status s)
  selection : ∀ r selection s, named r → R s (setSelection j r selection s)

/-- All roles of the job are named, or the relation says nothing about the state. -/
def NamesJob (j : JobId) (named : String → Prop) (R : Fabric F → Fabric F → Prop) : Prop :=
  ∀ s job, s.jobs.lookup j = some job →
    (∀ r ∈ (jobRoles job.definition).map Prod.fst, named r) ∨ ∀ s', R s s'

/-- A relation on states that the updates of materialization keep. -/
structure KeptByLaunch (R : Fabric F → Fabric F → Prop) : Prop where
  submit : ∀ task, (submit task).Along R
  bind : ∀ t b s, R s (bindTask t b s)
  role : ∀ j r status s, launched status = true → R s (setRole j r status s)
  selection : ∀ j r selection s, R s (setSelection j r selection s)

section Launch

variable {R : Fabric F → Fabric F → Prop} [IsPreorder (Fabric F) R]

theorem KeptByLaunch.of_job (h : KeptByLaunch R) (j : JobId) : LaunchKeeps j (fun _ => True) R where
  create task _ _ _ := along_bind (h.submit task) fun _ => along_update (h.bind _ _)
  launch r status s _ hs := h.role j r status s hs
  selection r selection s _ := h.selection j r selection s

omit [IsPreorder (Fabric F) R] in
theorem namesJob_true (j : JobId) : NamesJob j (fun _ => True) R := fun _ _ _ => .inl fun _ _ => trivial

variable {j : JobId} {named : String → Prop} (h : LaunchKeeps j named R)

include h

theorem submitSingle_along {name : String} (hname : named name) (task : TaskSpec F)
    (selection : Option (RoleSelection F)) : (submitSingle j name task selection).Along R := by
  refine along_bind_bind (h.create task (.single j name) rfl (List.forall_mem_singleton.mpr hname)) fun _ _ =>
    along_bind (along_update fun s => h.launch name _ s hname rfl) fun _ => ?_
  cases selection with
  | none => exact along_pure _
  | some selection => exact along_update fun s => h.selection name selection s hname

theorem submitShards_along {name : String} (hname : named name) (selected : List (ReadyShardSelection F)) :
    (submitShards j name selected).Along R :=
  along_bind (along_each _ fun _ shard =>
      h.create shard.task (.shard j name) rfl (List.forall_mem_singleton.mpr hname)) fun _ =>
    along_bind (along_update fun s => h.launch name _ s hname rfl) fun _ =>
      along_update fun s => h.selection name _ s hname

theorem submitFused_along {chain : List (LogicalRoleSpec F)} (hchain : ∀ r ∈ chain.map (·.name), named r)
    (selected : ReadyFusionSelection F) : (submitFused j chain selected).Along R := by
  have htake : ∀ r ∈ (chain.take selected.implementations.length).map (·.name), named r := by
    intro r hr
    obtain ⟨role, hrole, rfl⟩ := List.mem_map.mp hr
    exact hchain _ (List.mem_map.mpr ⟨role, List.mem_of_mem_take hrole, rfl⟩)
  refine along_bind_bind (h.create selected.task (.fusedChain j _) rfl htake) fun _ _ => ?_
  refine along_eachFrom_mem _ 0 fun i entry hentry => ?_
  have hentry := htake _ (List.of_mem_zip hentry).1
  exact along_bind (along_update fun s => h.launch _ _ s hentry rfl) fun _ =>
    along_update fun s => h.selection _ _ s hentry

theorem materializeRole_along [F64 F] (e : Env) (item : ReadyRole F) (hname : named item.name)
    (hnames : ∀ r ∈ item.names, named r) : (materializeRole e j item).Along R := by
  cases item with
  | cooperative name task => exact submitSingle_along h hname task none
  | logical name role inputs chain =>
    refine along_bind along_state fun s => ?_
    dsimp only
    split
    · split
      · exact along_update fun s => h.launch name _ s hname rfl
      · exact submitShards_along h hname _
    · split
      · exact submitFused_along h hnames _
      · split
        · exact along_update fun s => h.launch name _ s hname rfl
        · exact submitSingle_along h hname _ _

theorem materializeReadyRoles_along [F64 F] (hjob : NamesJob j named R) (e : Env) :
    (materializeReadyRoles (F := F) e j).Along R := by
  refine along_state_bind fun s => ?_
  cases hj : s.jobs.lookup j with
  | none => exact refl_of R s
  | some job =>
    rcases hjob s job hj with hnamed | hfree
    · refine along_eachFrom_mem _ 0 (fun i item hitem => ?_) s
      exact materializeRole_along h _ item (hnamed _ (readyRoles_names hitem _ (readyRoles_name hitem))) fun r hr =>
        hnamed r (readyRoles_names hitem r hr)
    · exact hfree _

theorem submitReducers_along (role : String) (hrole : named role) (items : List (ReadyReductionItem F)) :
    (submitReducers j role items).Along R := by
  refine along_each _ fun _ item => ?_
  cases item with
  | carry _ => exact along_pure _
  | reduce selected => exact h.create selected.task (.reduction j role) rfl (List.forall_mem_singleton.mpr hrole)

end Launch

/-! ## Role handling, for any relation its updates keep -/

/-- A relation on states that the updates of role handling for job `j` keep. -/
structure RolesKeep (j : JobId) (named : String → Prop) (R : Fabric F → Fabric F → Prop) : Prop
    extends LaunchKeeps j named R where
  job : ∀ f s, (∀ job, (f job).definition = job.definition) → R s (modifyJob j f s)
  namesJob : NamesJob j named R

/-- A relation on states that the updates of role handling keep. -/
structure KeptByRoles (R : Fabric F → Fabric F → Prop) : Prop where
  submit : ∀ task, (submit task).Along R
  bind : ∀ t b s, R s (bindTask t b s)
  job : ∀ j f s, (∀ job, (f job).definition = job.definition) → R s (modifyJob j f s)

theorem KeptByRoles.mono {R R' : Fabric F → Fabric F → Prop} (h : KeptByRoles R) (himp : ∀ s s', R s s' → R' s s') :
    KeptByRoles R' where
  submit task s := himp _ _ (h.submit task s)
  bind t b s := himp _ _ (h.bind t b s)
  job j f s hf := himp _ _ (h.job j f s hf)

theorem KeptByRoles.launch {R : Fabric F → Fabric F → Prop} (h : KeptByRoles R) : KeptByLaunch R where
  submit := h.submit
  bind := h.bind
  role j _ _ s _ := h.job j _ s fun _ => rfl
  selection j _ _ s := h.job j _ s fun _ => rfl

section Walk

variable {R : Fabric F → Fabric F → Prop} [IsPreorder (Fabric F) R]

theorem KeptByRoles.of_job (h : KeptByRoles R) (j : JobId) : RolesKeep j (fun _ => True) R where
  toLaunchKeeps := h.launch.of_job j
  job := h.job j
  namesJob := namesJob_true j

variable {j : JobId} {named : String → Prop} (h : RolesKeep j named R)

include h

omit [IsPreorder (Fabric F) R] in
theorem RolesKeep.setRole (r : String) (status : CooperativeRoleStatus) :
    (update (setRole j r status) : FabricM F Unit).Along R := along_update fun s => h.job _ s fun _ => rfl

variable [F64 F]

theorem RolesKeep.materialize (e : Env) : (materializeReadyRoles (F := F) e j).Along R :=
  materializeReadyRoles_along h.toLaunchKeeps h.namesJob e

theorem materializeReductionLevel_along (e : Env) (role : String) :
    (materializeReductionLevel (F := F) e j role).Along R := by
  refine along_state_bind fun s => ?_
  cases hj : s.jobs.lookup j with
  | none => exact refl_of R s
  | some job =>
    rw [okOr_some, pure_bind']
    cases hred : logicalRoleReduction job.definition role with
    | none => exact refl_of R s
    | some reduction =>
      rw [okOr_some, pure_bind']
      rcases h.namesJob s job hj with hnamed | hfree
      · have hrole := hnamed role (mem_jobRoles_of_reduction hred)
        refine along_bind (along_okOr _ _) (fun active => ?_) s
        split
        · exact along_pure _
        split
        · exact along_bind (along_update fun s => h.job _ s fun _ => rfl) fun _ =>
            along_bind (h.setRole _ _) fun _ => h.materialize _
        split
        · exact h.setRole _ _
        · refine along_bind (submitReducers_along h.toLaunchKeeps role hrole _) fun _ => ?_
          dsimp only
          split
          · exact along_fail _
          · exact along_bind (along_update fun s => h.job _ s fun _ => rfl) fun _ => h.setRole _ _
      · exact hfree _

theorem startRoleReduction_along (e : Env) (role : String) (inputs : List ObjectId) :
    (startRoleReduction (F := F) e j role inputs).Along R :=
  along_bind along_state fun _ => along_bind (along_okOr _ _) fun _ =>
    along_bind (along_update fun s => h.job _ s fun _ => rfl) fun _ => along_bind (h.setRole _ _) fun _ =>
      materializeReductionLevel_along h e role

theorem advanceReductionLevel_along (e : Env) (role : String) :
    (advanceReductionLevel (F := F) e j role).Along R := by
  refine along_bind along_state fun _ => along_bind (along_okOr _ _) fun _ => along_bind (along_okOr _ _) fun _ =>
    along_bind (along_lift _) fun _ => ?_
  split
  · exact h.setRole _ _
  · exact along_bind (along_update fun s => h.job _ s fun _ => rfl) fun _ => materializeReductionLevel_along h e role

omit [F64 F] in
omit h in
theorem requireRole_along (s : Fabric F) (j : JobId) (role : String) (error : FabricError) :
    (requireRole s j role error).Along R :=
  along_bind (along_okOr _ _) fun _ => along_bind (along_okOr _ _) fun _ => along_pure _

theorem completeSingle_along (e : Env) (role : String) (outputs : List ObjectId) :
    (completeSingle (F := F) e j role outputs).Along R :=
  along_bind along_state fun _ => along_bind (requireRole_along _ _ _ _) fun _ =>
    along_bind (h.setRole _ _) fun _ => h.materialize e

theorem completeFusedChain_along (e : Env) (roles : List String) (outputs : List ObjectId) :
    (completeFusedChain (F := F) e j roles outputs).Along R := by
  refine along_bind along_state fun _ => along_bind (along_okOr _ _) fun _ => ?_
  split
  · exact along_fail _
  · refine along_bind (along_each _ fun _ _ => along_bind along_state fun _ =>
      along_bind (requireRole_along _ _ _ _) fun _ => h.setRole _ _) fun _ => ?_
    exact along_bind along_state fun _ => along_bind (requireRole_along _ _ _ _) fun _ =>
      along_bind (h.setRole _ _) fun _ => h.materialize e

theorem completeShard_along (e : Env) (role : String) : (completeShard (F := F) e j role).Along R := by
  refine along_bind along_state fun _ => ?_
  split
  · refine along_bind (along_okOr _ _) fun _ => ?_
    split
    · exact startRoleReduction_along h e role _
    · exact along_bind (h.setRole _ _) fun _ => h.materialize e
  · exact along_pure _
  · exact along_fail _

omit h in
/-- The completion of a task works on the job the task is bound to. -/
theorem completeCooperativeRole_bound {s : Fabric F} {t : TaskId} {b : TaskRoleBinding}
    (hb : s.taskRoles.lookup t = some b) (h : RolesKeep b.job named R) (e : Env) (outputs : List ObjectId) :
    R s (completeCooperativeRole e t outputs s).2 := by
  unfold completeCooperativeRole
  rw [state_bind, hb]
  cases b with
  | single j role => exact completeSingle_along h e role outputs s
  | fusedChain j roles => exact completeFusedChain_along h e roles outputs s
  | shard j role => exact completeShard_along h e role s
  | reduction j role =>
    dsimp only
    split
    · exact refl_of R s
    · exact advanceReductionLevel_along h e role s

omit h in
theorem completeCooperativeRole_along (h : KeptByRoles R) (e : Env) (t : TaskId) (outputs : List ObjectId) :
    (completeCooperativeRole (F := F) e t outputs).Along R := by
  intro s
  cases hb : s.taskRoles.lookup t with
  | none =>
    unfold completeCooperativeRole
    rw [state_bind, hb]
    exact refl_of R s
  | some b => exact completeCooperativeRole_bound hb (h.of_job b.job) e outputs

omit h in
theorem refreshReadyRoles_along (h : KeptByRoles R) (e : Env) : (refreshReadyRoles (F := F) e).Along R :=
  along_bind (along_bind along_state fun _ =>
      along_each _ fun _ due => materializeReductionLevel_along (h.of_job due.1) _ _) fun _ =>
    along_bind along_state fun _ => along_each _ fun _ j => (h.of_job j).materialize _

end Walk

/-! ## Role handling only adds pending tasks -/

/-- Tasks were only added, and the new ones are pending; resources are as before. -/
structure Grows (s s' : Fabric F) : Prop where
  tasks : ∀ t, s'.tasks.lookup t = s.tasks.lookup t ∨
    (s.tasks.lookup t = none ∧ ∃ spec, spec.id = t ∧ s'.tasks.lookup t = some ⟨spec, .pending⟩)
  resources : s'.resources = s.resources

instance : IsPreorder (Fabric F) Grows where
  refl _ := ⟨fun _ => .inl rfl, rfl⟩
  trans a b c hab hbc := by
    refine ⟨fun t => ?_, hbc.resources.trans hab.resources⟩
    rcases hab.tasks t with h | ⟨hn, spec, hid, hs⟩
    · rcases hbc.tasks t with h' | ⟨hn', spec, hid, hs⟩
      · exact .inl (h'.trans h)
      · exact .inr ⟨h ▸ hn', spec, hid, hs⟩
    · rcases hbc.tasks t with h' | ⟨hn', _⟩
      · exact .inr ⟨hn, spec, hid, h'.trans hs⟩
      · rw [hs] at hn'; cases hn'

/-- A submission is refused without effect, or adds the task. -/
theorem submit_cases (task : TaskSpec F) (s : Fabric F) :
    (∃ err, submit task s = (.error err, s)) ∨
    (validateTask task = .ok () ∧ s.tasks.lookup task.id = none ∧
      submit task s = (.ok task.id, { s with tasks := s.tasks.insert task.id ⟨task, .pending⟩ })) := by
  unfold submit
  cases hv : validateTask task with
  | error err => exact .inl ⟨err, rfl⟩
  | ok u =>
    cases hl : s.tasks.lookup task.id with
    | some record => exact .inl ⟨.duplicateTask task.id, by simp [bind_apply, state, hl]⟩
    | none => exact .inr ⟨rfl, rfl, by simp [bind_apply, state, hl, update]⟩

theorem grows_insert {task : TaskSpec F} {s : Fabric F} (h : s.tasks.lookup task.id = none) :
    Grows s { s with tasks := s.tasks.insert task.id ⟨task, .pending⟩ } := by
  refine ⟨fun t => ?_, rfl⟩
  by_cases ht : t = task.id
  · subst ht
    exact .inr ⟨h, task, rfl, AList.lookup_insert _⟩
  · exact .inl (AList.lookup_insert_ne ht)

/-- A submission adds a pending task, or does nothing. -/
theorem submit_along {R : Fabric F → Fabric F → Prop} [IsPreorder (Fabric F) R] (task : TaskSpec F)
    (h : ∀ s : Fabric F, s.tasks.lookup task.id = none →
      R s { s with tasks := s.tasks.insert task.id ⟨task, .pending⟩ }) : (submit task).Along R := by
  intro s
  rcases submit_cases task s with ⟨err, hrun⟩ | ⟨-, hn, hrun⟩
  · rw [hrun]
    exact refl_of R s
  · rw [hrun]
    exact h s hn

theorem keptByRoles_grows : KeptByRoles (Grows (F := F)) where
  submit task := submit_along task fun _ => grows_insert
  bind _ _ _ := ⟨fun _ => .inl rfl, rfl⟩
  job _ _ _ _ := ⟨fun _ => .inl rfl, rfl⟩

/-! ## Execution leases -/

theorem mem_pendingTaskIds {e : Env} {s : Fabric F} {t : TaskId} :
    t ∈ s.pendingTaskIds e ↔ ∃ record, s.tasks.lookup t = some record ∧ record.status = .pending := by
  simp only [pendingTaskIds, List.mem_map, List.mem_filter, Env.mem_iter, decide_eq_true_eq]
  constructor
  · rintro ⟨⟨t', record⟩, ⟨hmem, hp⟩, rfl⟩
    exact ⟨record, Map.mem_pairs.mp hmem, hp⟩
  · rintro ⟨record, hl, hp⟩
    exact ⟨(t, record), ⟨Map.mem_pairs.mpr hl, hp⟩, rfl⟩

/-- An active resource can begin a pending task. -/
theorem beginExecution_of_pending {e : Env} {t : TaskId} {r : ResourceId} {s : Fabric F} {record : TaskRecord F}
    {resource : RegisteredResource F} (hr : s.activeResource e.clock r = some resource)
    (ht : s.tasks.lookup t = some record) (hp : record.status = .pending) :
    let lease : ExecutionLease :=
      { taskId := t, executionId := ExecutionId.new e, resourceId := r, resourceEpoch := resource.descriptor.epoch,
        expiresAtUnixMs := saturatingAdd e.clock s.executionTtlMs }
    beginExecution e t r s = (.ok lease, s.setStatus t (.running lease)) := by
  unfold beginExecution
  simp [hr, ht, hp]

/-- An execution begins without effect, or turns a pending task into a running one. -/
theorem beginExecution_cases (e : Env) (t : TaskId) (r : ResourceId) (s : Fabric F) :
    (∃ err, beginExecution e t r s = (.error err, s)) ∨
    ∃ lease record resource, beginExecution e t r s = (.ok lease, s.setStatus t (.running lease)) ∧
      s.tasks.lookup t = some record ∧ record.status = .pending ∧ s.activeResource e.clock r = some resource ∧
      lease = { taskId := t, executionId := ExecutionId.new e, resourceId := r,
                resourceEpoch := resource.descriptor.epoch,
                expiresAtUnixMs := saturatingAdd e.clock s.executionTtlMs } := by
  cases hr : s.activeResource e.clock r with
  | none => exact .inl ⟨.resourceNotActive r, by simp [beginExecution, hr]⟩
  | some resource =>
    cases ht : s.tasks.lookup t with
    | none => exact .inl ⟨.unknownTask t, by simp [beginExecution, hr, ht]⟩
    | some record =>
      by_cases hp : record.status = .pending
      · exact .inr ⟨_, record, resource, beginExecution_of_pending hr ht hp, rfl, hp, rfl, rfl⟩
      · exact .inl ⟨.taskNotPending t, by simp [beginExecution, hr, ht, hp]⟩

/-- What a presented lease must agree with to be current. -/
theorem currentLease_ok {s : Fabric F} {now : UInt64} {lease current : ExecutionLease}
    (h : s.currentLease now lease = .ok current) :
    ∃ resource record, s.activeResource now lease.resourceId = some resource ∧
      resource.descriptor.epoch = lease.resourceEpoch ∧ s.tasks.lookup lease.taskId = some record ∧
      record.status = .running current ∧ current.executionId = lease.executionId ∧ now < current.expiresAtUnixMs ∧
      current.resourceId = lease.resourceId ∧ current.resourceEpoch = lease.resourceEpoch := by
  unfold currentLease at h
  cases hr : s.activeResource now lease.resourceId with
  | none => rw [hr] at h; cases h
  | some resource =>
    rw [hr] at h
    dsimp only at h
    split at h
    · cases h
    rename_i hep
    cases ht : s.tasks.lookup lease.taskId with
    | none => rw [ht] at h; cases h
    | some record =>
      rw [ht] at h
      dsimp only at h
      split at h
      · rename_i stored hst
        split at h
        · cases h
        split at h
        · cases h
        split at h
        · cases h
        rename_i hx hexp hown
        cases h
        rw [not_or, not_ne_iff, not_ne_iff] at hown
        exact ⟨resource, record, rfl, not_ne_iff.mp hep, rfl, hst, not_ne_iff.mp hx, UInt64.not_le.mp hexp, hown⟩
      · cases h

/-- A renewal has no effect, or writes a new deadline for the stored attempt. -/
theorem renewExecution_cases (e : Env) (lease : ExecutionLease) (s : Fabric F) :
    (∃ err, renewExecution e lease s = (.error err, s) ∧ s.currentLease e.clock lease = .error err) ∨
    ∃ current, s.currentLease e.clock lease = .ok current ∧
      renewExecution e lease s = (.ok { current with expiresAtUnixMs := saturatingAdd e.clock s.executionTtlMs },
        s.setStatus lease.taskId
          (.running { current with expiresAtUnixMs := saturatingAdd e.clock s.executionTtlMs })) := by
  unfold renewExecution
  cases hc : s.currentLease e.clock lease with
  | error err => exact .inl ⟨err, by simp [bind_apply, state, hc], rfl⟩
  | ok current => exact .inr ⟨current, rfl, by simp [bind_apply, state, hc, update]⟩

/-- What follows once a completion has been accepted. -/
def commitOutputs [F64 F] (e : Env) (t : TaskId) (outputs : List ObjectMetadata) : FabricM F Unit := do
  each outputs fun _ object => publishObject object
  completeCooperativeRole (e.sub 0) t (outputs.map (·.id))

/-- A completion is refused without effect, or the task is completed and its outputs are committed. -/
theorem completeExecution_cases [F64 F] (e : Env) (lease : ExecutionLease) (outputs : List ObjectMetadata) (s : Fabric F) :
    (∃ err, completeExecution e lease outputs s = (.error err, s)) ∨
    ∃ current, s.currentLease e.clock lease = .ok current ∧
      (isReduction (s.taskRoles.lookup lease.taskId) = true → outputs.length = 1) ∧
      s.conflictingOutput outputs = none ∧
      completeExecution e lease outputs s =
        commitOutputs e lease.taskId outputs (s.setStatus lease.taskId (.completed (outputs.map (·.id)))) := by
  unfold completeExecution
  simp only [state_bind]
  cases hc : s.currentLease e.clock lease with
  | error err => exact .inl ⟨err, rfl⟩
  | ok current =>
    simp only [lift_ok, pure_bind']
    split
    · exact .inl ⟨_, rfl⟩
    · rename_i hred
      cases hk : s.conflictingOutput outputs with
      | some output => exact .inl ⟨_, rfl⟩
      | none =>
        refine .inr ⟨current, rfl, fun h => ?_, rfl, rfl⟩
        simpa [h] using hred

/-! ## Whole calls, for any relation their updates keep -/

section Calls

variable {R : Fabric F → Fabric F → Prop} [IsPreorder (Fabric F) R]

theorem heartbeat_along (h : ∀ (s : Fabric F) resources, R s { s with resources := resources }) (e : Env)
    (r : ResourceId) (epoch : UInt64) : (heartbeat (F := F) e r epoch).Along R := by
  refine along_bind along_state fun s => along_bind (along_okOr _ _) fun registered => ?_
  split
  · exact along_fail _
  · exact along_bind (along_update fun s => h s _) fun _ => along_pure _

theorem publishObject_along (h : ∀ (s : Fabric F) objects, R s { s with objects := objects })
    (object : ObjectMetadata) : (publishObject (F := F) object).Along R := by
  refine along_bind along_state fun s => ?_
  split
  · split
    · exact along_fail _
    · exact along_update fun s => h s _
  · exact along_update fun s => h s _

theorem addObjectLocation_along (h : ∀ (s : Fabric F) objects, R s { s with objects := objects }) (o : ObjectId)
    (r : ResourceId) : (addObjectLocation (F := F) o r).Along R :=
  along_bind along_state fun _ => along_bind (along_okOr _ _) fun _ => along_update fun s => h s _

variable [F64 F]

theorem acceptJob_along (hjobs : ∀ (s : Fabric F) jobs, R s { s with jobs := jobs }) (h : KeptByRoles R) (e : Env)
    (j : JobId) (definition : JobDefinition F) : (acceptJob e j definition).Along R := by
  refine along_bind along_state fun s => ?_
  split
  · exact along_fail _
  · exact along_bind (along_update fun s => hjobs s _) fun _ =>
      along_bind ((h.of_job j).materialize e) fun _ => along_pure _

theorem submitCooperative_along (hjobs : ∀ (s : Fabric F) jobs, R s { s with jobs := jobs }) (h : KeptByRoles R)
    (e : Env) (job : CooperativeJobSpec F) : (submitCooperative e job).Along R :=
  along_bind (along_lift _) fun _ => acceptJob_along hjobs h e _ _

theorem submitLogical_along (hjobs : ∀ (s : Fabric F) jobs, R s { s with jobs := jobs }) (h : KeptByRoles R)
    (e : Env) (job : LogicalJobSpec F) : (submitLogical e job).Along R :=
  along_bind (along_lift _) fun _ => along_bind along_state fun _ => along_bind (along_lift _) fun _ =>
    acceptJob_along hjobs h e _ _

omit [F64 F] in
theorem beginExecution_along (hset : ∀ (s : Fabric F) t status, R s (s.setStatus t status)) (e : Env) (t : TaskId)
    (r : ResourceId) : (beginExecution (F := F) e t r).Along R := by
  intro s
  rcases beginExecution_cases e t r s with ⟨err, h⟩ | ⟨lease, record, resource, h, -⟩
  · rw [h]
    exact refl_of R s
  · rw [h]
    exact hset s t _

omit [F64 F] in
theorem renewExecution_along (hset : ∀ (s : Fabric F) t status, R s (s.setStatus t status)) (e : Env)
    (lease : ExecutionLease) : (renewExecution (F := F) e lease).Along R := by
  intro s
  rcases renewExecution_cases e lease s with ⟨err, h, -⟩ | ⟨current, -, h⟩
  · rw [h]
    exact refl_of R s
  · rw [h]
    exact hset s lease.taskId _

theorem commitOutputs_along (hpublish : ∀ object, (publishObject (F := F) object).Along R) (h : KeptByRoles R) (e : Env)
    (t : TaskId) (outputs : List ObjectMetadata) : (commitOutputs (F := F) e t outputs).Along R :=
  along_bind (along_each _ fun _ object => hpublish object) fun _ => completeCooperativeRole_along h _ _ _

theorem completeExecution_along (hset : ∀ (s : Fabric F) t outputs, R s (s.setStatus t (.completed outputs)))
    (hpublish : ∀ object, (publishObject (F := F) object).Along R) (h : KeptByRoles R) (e : Env)
    (lease : ExecutionLease) (outputs : List ObjectMetadata) :
    (completeExecution (F := F) e lease outputs).Along R := by
  intro s
  rcases completeExecution_cases e lease outputs s with ⟨err, hrun⟩ | ⟨current, -, -, -, hrun⟩
  · rw [hrun]
    exact refl_of R s
  · rw [hrun]
    exact trans_of R (hset s lease.taskId _) (commitOutputs_along hpublish h e lease.taskId outputs _)

end Calls

theorem publishObject_grows (object : ObjectMetadata) : (publishObject (F := F) object).Along Grows :=
  publishObject_along (fun _ _ => ⟨fun _ => .inl rfl, rfl⟩) object

theorem submitCooperative_grows [F64 F] (e : Env) (job : CooperativeJobSpec F) : (submitCooperative e job).Along Grows :=
  submitCooperative_along (fun _ _ => ⟨fun _ => .inl rfl, rfl⟩) keptByRoles_grows e job

theorem submitLogical_grows [F64 F] (e : Env) (job : LogicalJobSpec F) : (submitLogical e job).Along Grows :=
  submitLogical_along (fun _ _ => ⟨fun _ => .inl rfl, rfl⟩) keptByRoles_grows e job

theorem commitOutputs_grows [F64 F] (e : Env) (t : TaskId) (outputs : List ObjectMetadata) :
    (commitOutputs (F := F) e t outputs).Along Grows :=
  commitOutputs_along publishObject_grows keptByRoles_grows e t outputs

/-! ## Recovery and expiry -/

/-- What every round of a loop leaves alone, the loop leaves alone. -/
theorem foldl_keeps {α β : Type} (g : Fabric F → β) (f : Fabric F → α → Fabric F) (hf : ∀ s a, g (f s a) = g s) :
    ∀ (l : List α) (s : Fabric F), g (l.foldl f s) = g s
  | [], _ => rfl
  | a :: l, s => (foldl_keeps g f hf l (f s a)).trans (hf s a)

/-- Marking a role uncertain touches jobs only. -/
theorem markCooperativeRoleUncertain_keeps {β : Type} (g : Fabric F → β) (hg : ∀ s j f, g (modifyJob j f s) = g s)
    (t : TaskId) (s : Fabric F) : g (s.markCooperativeRoleUncertain t) = g s := by
  unfold markCooperativeRoleUncertain
  split
  · rfl
  · exact hg _ _ _
  · exact hg _ _ _
  · exact hg _ _ _
  · exact foldl_keeps g (fun s role => s.overwriteRole _ role .uncertain) (fun _ _ => hg _ _ _) _ s

theorem reapExpiredExecutionsAt_lookup (e : Env) (unixMs : UInt64) (s : Fabric F) (t : TaskId) :
    (s.reapExpiredExecutionsAt e unixMs).2.tasks.lookup t = (s.tasks.lookup t).map (reapRecord unixMs) := by
  unfold reapExpiredExecutionsAt
  have hmark := markCooperativeRoleUncertain_keeps (F := F) Fabric.tasks fun _ _ _ => rfl
  simp only [foldl_keeps Fabric.tasks _ fun s a => hmark a s, Map.lookup_mapVals]

theorem reapExpiredExecutionsAt_resources (e : Env) (unixMs : UInt64) (s : Fabric F) :
    (s.reapExpiredExecutionsAt e unixMs).2.resources = s.resources := by
  unfold reapExpiredExecutionsAt
  have hmark := markCooperativeRoleUncertain_keeps (F := F) Fabric.resources fun _ _ _ => rfl
  simp only [foldl_keeps Fabric.resources _ fun s a => hmark a s]

theorem expireResourcesAt_tasks (e : Env) (unixMs : UInt64) (s : Fabric F) :
    (s.expireResourcesAt e unixMs).2.tasks = s.tasks :=
  foldl_keeps Fabric.tasks (fun s id => s.removeResource id) (fun _ _ => rfl) _ s

end Fabric

/-! ## The moves of a task -/

/-- The lease a successful `begin_execution` of task `t` granted. -/
def Event.begun (ev : Event F) (t : TaskId) : Option ExecutionLease :=
  match ev.op, ev.reply with
  | .beginExecution t' _, .ok (.lease lease) => if t' = t then some lease else none
  | _, _ => none

/-- What one call can do to the record of task `t`. -/
inductive Moves (ev : Event F) (t : TaskId) : Option (TaskRecord F) → Option (TaskRecord F) → Prop
  | stays (record : Option (TaskRecord F)) : Moves ev t record record
  | submitted (spec : TaskSpec F) : spec.id = t → Moves ev t none (some ⟨spec, .pending⟩)
  | begins (spec : TaskSpec F) (lease : ExecutionLease) : ev.begun t = some lease →
      Moves ev t (some ⟨spec, .pending⟩) (some ⟨spec, .running lease⟩)
  | renews (spec : TaskSpec F) (lease current : ExecutionLease) (deadline : UInt64) :
      ev.op = .renewExecution lease → lease.taskId = t → ev.before.currentLease ev.env.clock lease = .ok current →
      Moves ev t (some ⟨spec, .running current⟩)
        (some ⟨spec, .running { current with expiresAtUnixMs := deadline }⟩)
  | commits (spec : TaskSpec F) (lease current : ExecutionLease) (outputs : List ObjectMetadata) :
      ev.op = .completeExecution lease outputs → lease.taskId = t →
      ev.before.currentLease ev.env.clock lease = .ok current →
      Moves ev t (some ⟨spec, .running current⟩) (some ⟨spec, .completed (outputs.map (·.id))⟩)
  | retried (spec : TaskSpec F) (current : ExecutionLease) : spec.effects.automaticallyRetryable = true →
      Moves ev t (some ⟨spec, .running current⟩) (some ⟨spec, .pending⟩)
  | lost (spec : TaskSpec F) (current : ExecutionLease) : spec.effects.automaticallyRetryable = false →
      Moves ev t (some ⟨spec, .running current⟩) (some ⟨spec, .uncertain⟩)

open Fabric

theorem Moves.of_eq {ev : Event F} {t : TaskId} {r r' : Option (TaskRecord F)} (h : r' = r) : Moves ev t r r' := by
  rw [h]
  exact .stays r

theorem Moves.of_grows {ev : Event F} {t : TaskId} {s s' : Fabric F} (h : Grows s s') :
    Moves ev t (s.tasks.lookup t) (s'.tasks.lookup t) := by
  rcases h.tasks t with h | ⟨hn, spec, hid, hs⟩
  · exact .of_eq h
  · rw [hn, hs]; exact .submitted spec hid

variable [F64 F]

theorem moves_begin (e : Env) (s : Fabric F) (t t' : TaskId) (r : ResourceId) :
    Moves (Event.of e s (.beginExecution t r)) t' (s.tasks.lookup t')
      ((Event.of e s (.beginExecution t r)).after.tasks.lookup t') := by
  simp only [Event.of, exec_beginExecution]
  rcases beginExecution_cases e t r s with ⟨err, h⟩ | ⟨lease, record, resource, h, ht, hp, -, -⟩
  · rw [h]; exact .stays _
  · rw [h, setStatus_lookup]
    by_cases htt : t' = t
    · subst htt
      rw [if_pos rfl, ht, Option.map_some]
      obtain ⟨spec, status⟩ := record
      cases hp
      exact .begins spec lease (by simp [Event.begun, Except.map])
    · rw [if_neg htt]; exact .stays _

theorem moves_renew (e : Env) (s : Fabric F) (lease : ExecutionLease) (t : TaskId) :
    Moves (Event.of e s (.renewExecution lease)) t (s.tasks.lookup t)
      ((Event.of e s (.renewExecution lease)).after.tasks.lookup t) := by
  simp only [Event.of, exec_renewExecution]
  rcases renewExecution_cases e lease s with ⟨err, h, -⟩ | ⟨current, hc, h⟩
  · rw [h]; exact .stays _
  · rw [h, setStatus_lookup]
    by_cases htt : t = lease.taskId
    · subst htt
      obtain ⟨resource, record, -, -, ht, hst, -⟩ := currentLease_ok hc
      rw [if_pos rfl, ht, Option.map_some]
      obtain ⟨spec, status⟩ := record
      cases hst
      exact .renews spec lease current _ rfl rfl hc
    · rw [if_neg htt]; exact .stays _

theorem moves_complete (e : Env) (s : Fabric F) (lease : ExecutionLease) (outputs : List ObjectMetadata) (t : TaskId) :
    Moves (Event.of e s (.completeExecution lease outputs)) t (s.tasks.lookup t)
      ((Event.of e s (.completeExecution lease outputs)).after.tasks.lookup t) := by
  simp only [Event.of, exec_completeExecution]
  rcases completeExecution_cases e lease outputs s with ⟨err, h⟩ | ⟨current, hc, -, -, h⟩
  · rw [h]; exact .stays _
  · rw [h]
    have hg := commitOutputs_grows e lease.taskId outputs
      (s.setStatus lease.taskId (.completed (outputs.map (·.id))))
    obtain ⟨resource, record, -, -, ht, hst, -⟩ := currentLease_ok hc
    by_cases htt : t = lease.taskId
    · subst htt
      have hset : (s.setStatus lease.taskId (.completed (outputs.map (·.id)))).tasks.lookup lease.taskId =
          some ⟨record.spec, .completed (outputs.map (·.id))⟩ := by rw [setStatus_lookup, if_pos rfl, ht]; rfl
      -- the task exists, so what follows cannot have added it
      rcases hg.tasks lease.taskId with hsame | ⟨hn, -⟩
      · rw [hsame, hset, ht]
        obtain ⟨spec, status⟩ := record
        cases hst
        exact .commits spec lease current outputs rfl rfl hc
      · rw [hset] at hn; cases hn
    · have hset : (s.setStatus lease.taskId (.completed (outputs.map (·.id)))).tasks.lookup t = s.tasks.lookup t := by
        rw [setStatus_lookup, if_neg htt]
      rw [← hset]
      exact .of_grows hg

theorem moves_reap (e : Env) (s : Fabric F) (unixMs : UInt64) (t : TaskId) :
    Moves (Event.of e s (.reapExpiredExecutionsAt unixMs)) t (s.tasks.lookup t)
      ((Event.of e s (.reapExpiredExecutionsAt unixMs)).after.tasks.lookup t) := by
  show Moves _ t _ ((s.reapExpiredExecutionsAt e unixMs).2.tasks.lookup t)
  rw [reapExpiredExecutionsAt_lookup]
  cases ht : s.tasks.lookup t with
  | none => exact .stays _
  | some record =>
    obtain ⟨spec, status⟩ := record
    rw [Option.map_some]
    unfold reapRecord
    split
    · rename_i hexp
      cases status with
      | running current =>
        cases heff : spec.effects.automaticallyRetryable with
        | true => simpa [heff] using Moves.retried spec current heff
        | false => simpa [heff] using Moves.lost spec current heff
      | pending => cases hexp
      | completed outputs => cases hexp
      | uncertain => cases hexp
    · exact .stays _

/-- **The moves of a task over one call.** -/
theorem event_moves (e : Env) (s : Fabric F) (op : Op F) (t : TaskId) :
    Moves (Event.of e s op) t (s.tasks.lookup t) ((Event.of e s op).after.tasks.lookup t) := by
  have grows : ∀ {α : Type} {m : FabricM F α} {g : α → Reply}, m.Along Grows →
      exec e op = (m >>= fun a => pure (g a)) →
      Moves (Event.of e s op) t (s.tasks.lookup t) ((Event.of e s op).after.tasks.lookup t) := by
    intro α m g hm hx
    simp only [Event.of, hx, bind_pure_apply]
    exact .of_grows (hm s)
  cases op with
  | setTopology topology => exact .stays _
  | upsertLink link => exact .stays _
  | removeLink a b => exact .stays _
  | registerResource descriptor => exact .stays _
  | heartbeat resource epoch =>
    refine .of_eq (congrArg (AList.lookup t) ?_)
    simp only [Event.of, exec_heartbeat]
    exact heartbeat_along (R := fun s s' : Fabric F => s'.tasks = s.tasks) (fun _ _ => rfl) e resource epoch s
  | unregisterResource resource => exact .stays _
  | expireResourcesAt unixMs => exact .of_eq (congrArg (AList.lookup t) (expireResourcesAt_tasks e unixMs s))
  | publishObject object => exact grows (g := fun _ => .unit) (publishObject_grows object) rfl
  | addObjectLocation object resource =>
    exact grows (g := fun _ => .unit) (addObjectLocation_along (fun _ _ => ⟨fun _ => .inl rfl, rfl⟩) object resource) rfl
  | submit task => exact grows (keptByRoles_grows.submit task) rfl
  | submitCooperative job => exact grows (submitCooperative_grows e job) rfl
  | submitLogical job => exact grows (submitLogical_grows e job) rfl
  | beginExecution task resource => exact moves_begin e s task t resource
  | renewExecution lease => exact moves_renew e s lease t
  | completeExecution lease outputs => exact moves_complete e s lease outputs t
  | reapExpiredExecutionsAt unixMs => exact moves_reap e s unixMs t
  | refreshReadyRoles => exact grows (g := fun _ => .unit) (refreshReadyRoles_along keptByRoles_grows e) rfl

end Plurifold
