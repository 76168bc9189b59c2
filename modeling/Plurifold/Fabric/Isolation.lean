import Plurifold.Fabric.Consistent

/-!
# Jobs do not touch each other

A completion works on one job only, the one its task is bound to, however far it gets: it may record outputs, complete
roles, start and advance reductions, plan roles that became ready, and stop with an error anywhere on the way. All the
jobs share the maps that are written. `Within j` is what every part of this keeps; new tasks are pending, and each is
bound to roles of the job (`isolates_rolesKeep`).

The loss of leases works on many jobs at once. It writes the tasks that have lost theirs, and the roles of those that
cannot be retried (`Marks`).
-/

namespace Plurifold

open Lib Attempt Fabric

variable {F : Type} {s s' : Fabric F} {j : JobId}

/-! ## Within one job -/

/-- The job exists and has this role. -/
def Fabric.HasRole (s : Fabric F) (j : JobId) (r : String) : Prop :=
  ∃ job, s.jobs.lookup j = some job ∧ r ∈ (jobRoles job.definition).map Prod.fst

/-- Only job `j` and new tasks for its roles come in between. -/
structure Within (j : JobId) (s s' : Fabric F) : Prop where
  jobs : ∀ j', j' ≠ j → s'.jobs.lookup j' = s.jobs.lookup j'
  hasRole : ∀ r, s'.HasRole j r ↔ s.HasRole j r
  tasks : ∀ t record, s.tasks.lookup t = some record → s'.tasks.lookup t = some record
  bindings : ∀ t record, s.tasks.lookup t = some record → s'.taskRoles.lookup t = s.taskRoles.lookup t
  created : ∀ t record, s.tasks.lookup t = none → s'.tasks.lookup t = some record →
    record.status = .pending ∧ ∃ b, s'.taskRoles.lookup t = some b ∧ b.job = j ∧ ∀ r ∈ b.roles, s.HasRole j r
  resources : s'.resources = s.resources
  topology : s'.topology = s.topology

/-- Only the objects are not the same. -/
theorem within_of_eq (hjobs : s'.jobs = s.jobs) (htasks : s'.tasks = s.tasks) (hroles : s'.taskRoles = s.taskRoles)
    (hresources : s'.resources = s.resources) (htopology : s'.topology = s.topology) : Within j s s' where
  jobs _ _ := by rw [hjobs]
  hasRole _ := by rw [HasRole, hjobs]; rfl
  tasks _ _ ht := by rw [htasks, ht]
  bindings _ _ _ := by rw [hroles]
  created _ _ hn ht := by
    rw [htasks, hn] at ht
    cases ht
  resources := hresources
  topology := htopology

instance (j : JobId) : IsPreorder (Fabric F) (Within j) where
  refl _ := within_of_eq rfl rfl rfl rfl rfl
  trans a b c hab hbc := by
    refine ⟨fun j' hj => (hbc.jobs j' hj).trans (hab.jobs j' hj), fun r => (hbc.hasRole r).trans (hab.hasRole r),
      fun t record ht => hbc.tasks t record (hab.tasks t record ht), fun t record ht => ?_, fun t record hn ht => ?_,
      hbc.resources.trans hab.resources, hbc.topology.trans hab.topology⟩
    · exact (hbc.bindings t record (hab.tasks t record ht)).trans (hab.bindings t record ht)
    · cases hb : b.tasks.lookup t with
      | none =>
        obtain ⟨hpending, b', hb', hj, hroles⟩ := hbc.created t record hb ht
        exact ⟨hpending, b', hb', hj, fun r hr => (hab.hasRole r).mp (hroles r hr)⟩
      | some first =>
        obtain rfl := Option.some.inj ((hbc.tasks t first hb).symm.trans ht)
        obtain ⟨hpending, b', hb', hj, hroles⟩ := hab.created t first hn hb
        exact ⟨hpending, b', (hbc.bindings t first hb).trans hb', hj, hroles⟩

/-- A task is submitted and bound to roles of the job, or nothing happens. -/
theorem create_within (task : TaskSpec F) {b : TaskRoleBinding} (hb : b.job = j)
    (hroles : ∀ r ∈ b.roles, s.HasRole j r) :
    Within j s ((submit task >>= fun _ => update (bindTask task.id b)) s).2 := by
  rcases submit_cases task s with ⟨err, h⟩ | ⟨-, hn, h⟩
  · rw [bind_error h]
    exact refl_of (Within j) s
  · rw [bind_ok h, update_apply]
    have hother : ∀ t record, s.tasks.lookup t = some record → t ≠ task.id := by
      rintro t record ht rfl
      rw [hn] at ht
      cases ht
    refine ⟨fun _ _ => rfl, fun _ => Iff.rfl, fun t record ht => ?_, fun t record ht => ?_, fun t record hnone ht => ?_,
      rfl, rfl⟩
    · exact (AList.lookup_insert_ne (hother t record ht)).trans ht
    · exact AList.lookup_insert_ne (hother t record ht)
    · by_cases htask : t = task.id
      · subst htask
        obtain rfl := Option.some.inj ((AList.lookup_insert _).symm.trans ht)
        exact ⟨rfl, b, AList.lookup_insert _, hb, hroles⟩
      · have hold : s.tasks.lookup t = some record := (AList.lookup_insert_ne htask).symm.trans ht
        rw [hnone] at hold
        cases hold

theorem modifyJob_within {f : CooperativeJobRecord F → CooperativeJobRecord F}
    (hf : ∀ job, (f job).definition = job.definition) : Within j s (s.modifyJob j f) := by
  refine ⟨fun j' hj => ?_, fun r => ?_, fun _ _ ht => ht, fun _ _ _ => rfl, fun t record hn ht => ?_, rfl, rfl⟩
  · rw [modifyJob_lookup, if_neg hj]
  · unfold HasRole
    rw [modifyJob_lookup, if_pos rfl]
    cases s.jobs.lookup j with
    | none => simp
    | some job => simp [hf]
  · rw [show (s.modifyJob j f).tasks = s.tasks from rfl, hn] at ht
    cases ht

/-- Where the named roles are those of job `j`, the rest stays within the job. -/
def Isolates (j : JobId) (named : String → Prop) (s s' : Fabric F) : Prop :=
  (∀ r, named r ↔ s.HasRole j r) → Within j s s'

instance (j : JobId) (named : String → Prop) : IsPreorder (Fabric F) (Isolates j named) where
  refl s _ := refl_of (Within j) s
  trans _ _ _ hab hbc hnamed := by
    have hfirst := hab hnamed
    exact trans_of (Within j) hfirst (hbc fun r => (hnamed r).trans (hfirst.hasRole r).symm)

/-- **Role handling stays within its job.** -/
theorem isolates_rolesKeep (j : JobId) (named : String → Prop) : RolesKeep j named (Isolates (F := F) j named) where
  create task b hb hroles s hnamed := create_within task hb fun r hr => (hnamed r).mp (hroles r hr)
  launch _ _ _ _ _ _ := modifyJob_within fun _ => rfl
  selection _ _ _ _ _ := modifyJob_within fun _ => rfl
  job _ _ hf _ := modifyJob_within hf
  namesJob s job hj := by
    by_cases hnamed : ∀ r, named r ↔ s.HasRole j r
    · exact .inl fun r hr => (hnamed r).mpr ⟨job, hj, hr⟩
    · exact .inr fun _ h => absurd h hnamed

theorem publishObject_within (object : ObjectMetadata) : (publishObject (F := F) object).Along (Within j) :=
  publishObject_along (fun _ _ => within_of_eq rfl rfl rfl rfl rfl) object

theorem commitOutputs_within [F64 F] (e : Env) {t : TaskId} (outputs : List ObjectMetadata) {b : TaskRoleBinding}
    (hb : s.taskRoles.lookup t = some b) (ht : (s.tasks.lookup t).isSome) :
    Within b.job s (commitOutputs e t outputs s).2 := by
  obtain ⟨record, ht⟩ := Option.isSome_iff_exists.mp ht
  have hpublish : (each outputs fun _ object => publishObject (F := F) object).Along (Within b.job) :=
    along_each outputs fun _ object => publishObject_within object
  have hfirst := hpublish s
  unfold commitOutputs
  rw [bind_apply]
  cases hr : each outputs (fun _ object => publishObject object) s with
  | mk r s' =>
    rw [hr] at hfirst
    cases r with
    | error err => exact hfirst
    | ok u =>
      -- the outputs are published: the task is bound as before
      have hb' : s'.taskRoles.lookup t = some b := (hfirst.bindings t record ht).trans hb
      exact trans_of (Within b.job) hfirst
        (completeCooperativeRole_bound hb' (isolates_rolesKeep b.job fun r => s'.HasRole b.job r) _ _ fun _ => Iff.rfl)

/-! ## Leases that are lost -/

/-- The lease of the task has expired. -/
def Fabric.Expired (s : Fabric F) (unixMs : UInt64) (t : TaskId) : Prop :=
  ∃ record, s.tasks.lookup t = some record ∧ leaseExpired unixMs record = true

/-- A task of the role has lost its lease and cannot be retried. -/
def Fabric.Loses (s : Fabric F) (unixMs : UInt64) (j : JobId) (r : String) : Prop :=
  ∃ t record b, s.tasks.lookup t = some record ∧ leaseExpired unixMs record = true ∧
    record.spec.effects.automaticallyRetryable = false ∧ s.taskRoles.lookup t = some b ∧ b.job = j ∧ r ∈ b.roles

/-- Only the statuses of these roles come in between. -/
structure Marks (lost : JobId → String → Prop) (s s' : Fabric F) : Prop where
  jobs : ∀ j, (∀ r, ¬lost j r) → s'.jobs.lookup j = s.jobs.lookup j
  records : ∀ j, (s'.jobs.lookup j).map (fun job => (job.definition, job.selections, job.reductions)) =
    (s.jobs.lookup j).map fun job => (job.definition, job.selections, job.reductions)
  roles : ∀ j r, ¬lost j r →
    (s'.jobs.lookup j).bind (·.roles.lookup r) = (s.jobs.lookup j).bind (·.roles.lookup r)
  bindings : s'.taskRoles = s.taskRoles
  resources : s'.resources = s.resources
  topology : s'.topology = s.topology
  objects : s'.objects = s.objects
  settings : (s'.scheduler, s'.membershipTtlMs, s'.executionTtlMs) = (s.scheduler, s.membershipTtlMs, s.executionTtlMs)

instance (lost : JobId → String → Prop) : IsPreorder (Fabric F) (Marks lost) where
  refl _ := ⟨fun _ _ => rfl, fun _ => rfl, fun _ _ _ => rfl, rfl, rfl, rfl, rfl, rfl⟩
  trans _ _ _ hab hbc :=
    ⟨fun j hj => (hbc.jobs j hj).trans (hab.jobs j hj), fun j => (hbc.records j).trans (hab.records j),
      fun j r hr => (hbc.roles j r hr).trans (hab.roles j r hr), hbc.bindings.trans hab.bindings,
      hbc.resources.trans hab.resources, hbc.topology.trans hab.topology, hbc.objects.trans hab.objects,
      hbc.settings.trans hab.settings⟩

variable {lost : JobId → String → Prop}

theorem overwriteRole_marks {r : String} (hr : lost j r) (status : CooperativeRoleStatus) (s : Fabric F) :
    Marks lost s (s.overwriteRole j r status) := by
  unfold overwriteRole
  refine ⟨fun j' hj => ?_, fun j' => ?_, fun j' r' hlost => ?_, rfl, rfl, rfl, rfl, rfl⟩
  · rw [modifyJob_lookup, if_neg]
    rintro rfl
    exact hj r hr
  · rw [modifyJob_lookup]
    split
    · rw [Option.map_map]
      rfl
    · rfl
  · rw [modifyJob_lookup]
    split
    · rename_i hj
      subst hj
      have hne : r' ≠ r := by
        rintro rfl
        exact hlost hr
      cases s.jobs.lookup j' with
      | none => rfl
      | some job => simp [Map.lookup_modify, hne]
    · rfl

theorem markCooperativeRoleUncertain_eq {t : TaskId} {b : TaskRoleBinding} (hb : s.taskRoles.lookup t = some b) :
    s.markCooperativeRoleUncertain t = b.roles.foldl (fun s r => s.overwriteRole b.job r .uncertain) s := by
  unfold markCooperativeRoleUncertain
  rw [hb]
  cases b <;> rfl

theorem markCooperativeRoleUncertain_marks {t : TaskId}
    (ht : ∀ b, s.taskRoles.lookup t = some b → ∀ r ∈ b.roles, lost b.job r) :
    Marks lost s (s.markCooperativeRoleUncertain t) := by
  cases hb : s.taskRoles.lookup t with
  | none =>
    unfold markCooperativeRoleUncertain
    rw [hb]
    exact refl_of (Marks lost) s
  | some b =>
    rw [markCooperativeRoleUncertain_eq hb]
    refine List.foldlRecOn (motive := Marks lost s) _ _ (refl_of (Marks lost) s) fun s' h r hr => ?_
    exact trans_of (Marks lost) h (overwriteRole_marks (ht b hb r hr) .uncertain s')

theorem reapExpiredExecutionsAt_marks (e : Env) (unixMs : UInt64) (s : Fabric F) :
    Marks (s.Loses unixMs) s (s.reapExpiredExecutionsAt e unixMs).2 := by
  unfold reapExpiredExecutionsAt
  have hstart : Marks (s.Loses unixMs) s { s with tasks := Map.mapVals (fun _ => reapRecord unixMs) s.tasks } :=
    ⟨fun _ _ => rfl, fun _ => rfl, fun _ _ _ => rfl, rfl, rfl, rfl, rfl, rfl⟩
  refine List.foldlRecOn (motive := Marks (s.Loses unixMs) s) _ _ hstart fun s' h t ht => ?_
  refine trans_of (Marks _) h (markCooperativeRoleUncertain_marks fun b hb r hr => ?_)
  obtain ⟨⟨t', record⟩, hmem, rfl⟩ := List.mem_map.mp ht
  obtain ⟨hexpired, hretry⟩ := List.mem_filter.mp hmem
  obtain ⟨hpair, hexpired⟩ := List.mem_filter.mp hexpired
  rw [h.bindings] at hb
  exact ⟨t', record, b, Map.mem_pairs.mp (Env.mem_iter.mp hpair), hexpired, by simpa using hretry, hb, rfl, hr⟩

/-! ## Isolation -/

/-- What a completion of task `t` of job `j` leaves alone, and what it creates. -/
structure Isolated (j : JobId) (t : TaskId) (s s' : Fabric F) : Prop where
  jobs : ∀ j', j' ≠ j → s'.jobs.lookup j' = s.jobs.lookup j'
  tasks : ∀ t' record, t' ≠ t → s.tasks.lookup t' = some record → s'.tasks.lookup t' = some record
  bindings : ∀ t' record, s.tasks.lookup t' = some record → s'.taskRoles.lookup t' = s.taskRoles.lookup t'
  created : ∀ t' record, s.tasks.lookup t' = none → s'.tasks.lookup t' = some record →
    record.status = .pending ∧ ∃ b, s'.taskRoles.lookup t' = some b ∧ b.job = j ∧ ∀ r ∈ b.roles, s.HasRole j r
  resources : s'.resources = s.resources
  topology : s'.topology = s.topology
  objects : ∀ o object, s.objects.lookup o = some object → ∃ object', s'.objects.lookup o = some object' ∧
    object'.identity = object.identity ∧ object.locations ⊆ object'.locations

/-- What the loss of leases leaves alone. -/
structure Reaped (unixMs : UInt64) (s s' : Fabric F) : Prop extends Marks (s.Loses unixMs) s s' where
  tasks : ∀ t, ¬s.Expired unixMs t → s'.tasks.lookup t = s.tasks.lookup t

/-- What stays within the job once the task is completed is isolated. -/
theorem Within.isolated {t : TaskId} {status : TaskStatus} (h : Within j (s.setStatus t status) s')
    (hobjects : Retains s s') : Isolated j t s s' where
  jobs := h.jobs
  tasks t' record hne ht := h.tasks t' record (by rw [setStatus_lookup, if_neg hne, ht])
  bindings t' record ht := by
    by_cases htask : t' = t
    · exact h.bindings t' { record with status := status } (by rw [setStatus_lookup, if_pos htask, ht]; rfl)
    · exact h.bindings t' record (by rw [setStatus_lookup, if_neg htask, ht])
  created t' record hn ht := h.created t' record (by rw [setStatus_lookup, hn]; exact ite_self _) ht
  resources := h.resources
  topology := h.topology
  objects o object ho := by
    obtain ⟨object', ho', hid, hloc⟩ := hobjects o object ho
    exact ⟨object', ho', hid, fun r hr => (hloc r hr).resolve_right id⟩

theorem isolated_refl (j : JobId) (t : TaskId) (s : Fabric F) : Isolated j t s s where
  jobs _ _ := rfl
  tasks _ _ _ ht := ht
  bindings _ _ _ := rfl
  created _ _ hn ht := by
    rw [hn] at ht
    cases ht
  resources := rfl
  topology := rfl
  objects _ object ho := ⟨object, ho, rfl, List.Subset.refl _⟩

theorem completeExecution_isolated [F64 F] (e : Env) (lease : ExecutionLease) (outputs : List ObjectMetadata)
    {b : TaskRoleBinding} (hb : s.taskRoles.lookup lease.taskId = some b) :
    Isolated b.job lease.taskId s (completeExecution e lease outputs s).2 := by
  have hobjects := completeExecution_retains e lease outputs s
  rcases completeExecution_cases e lease outputs s with ⟨err, h⟩ | ⟨current, hcurrent, -, -, h⟩
  · rw [h]
    exact isolated_refl b.job lease.taskId s
  · rw [h] at hobjects ⊢
    obtain ⟨resource, record, -, -, ht, -⟩ := currentLease_ok hcurrent
    refine Within.isolated (commitOutputs_within e outputs hb ?_) hobjects
    rw [setStatus_lookup, if_pos rfl, ht]
    rfl

theorem reapExpiredExecutionsAt_reaped (e : Env) (unixMs : UInt64) (s : Fabric F) :
    Reaped unixMs s (s.reapExpiredExecutionsAt e unixMs).2 where
  toMarks := reapExpiredExecutionsAt_marks e unixMs s
  tasks t ht := by
    rw [reapExpiredExecutionsAt_lookup]
    cases hrecord : s.tasks.lookup t with
    | none => rfl
    | some record =>
      rw [Option.map_some, reapRecord, if_neg]
      exact fun hexpired => ht ⟨record, hrecord, hexpired⟩

/-- **Job isolation.** Whatever the state, and whether it succeeds or fails, the completion of a task that is bound to
a job changes no other job, no other task, no binding, resource or link, takes no location from an object and leaves
its identity alone, and the tasks it creates are pending and work for roles of the job. The loss of leases changes only
tasks whose lease has expired, and roles of those of them that cannot be retried. -/
theorem job_isolation [F64 F] (e : Env) (s : Fabric F) :
    (∀ lease outputs b, s.taskRoles.lookup lease.taskId = some b →
      Isolated b.job lease.taskId s (completeExecution e lease outputs s).2) ∧
    ∀ unixMs, Reaped unixMs s (s.reapExpiredExecutionsAt e unixMs).2 :=
  ⟨fun lease outputs _ hb => completeExecution_isolated e lease outputs hb,
    fun unixMs => reapExpiredExecutionsAt_reaped e unixMs s⟩

namespace Sample

/-- Two jobs of the same shape. The first role of the first one runs. -/
def twinRun : List (Op ℚ) :=
  [.registerResource (resource 1), .submitCooperative chainJob, .submitCooperative { chainJob with id := ⟨2⟩ },
    .beginExecution firstTask ⟨1⟩]

def twinLease : ExecutionLease :=
  ⟨firstTask, ⟨(((((Env.numbered clock).sub 1).sub 1).sub 1).sub 0).newUuid⟩, ⟨1⟩, 1, 0⟩

/-- The world of the fifth call. -/
def twinEnv : Env := (((((Env.numbered clock).sub 1).sub 1).sub 1).sub 1).sub 0

end Sample

/-- The completion creates the task of the second role, and the other job is as it was. -/
theorem job_isolation_twin :
    let s := final (Env.numbered Sample.clock) (Fabric.new 100 100) Sample.twinRun
    let s' := (completeExecution Sample.twinEnv Sample.twinLease [⟨⟨9⟩, 0, none, none, [⟨1⟩], none⟩] s).2
    s'.pendingTaskIds Sample.twinEnv ≠ s.pendingTaskIds Sample.twinEnv ∧ s'.jobs.lookup ⟨2⟩ = s.jobs.lookup ⟨2⟩ := by
  intro s s'
  have hb : s.taskRoles.lookup Sample.twinLease.taskId = some (.single ⟨1⟩ "first") := by decide +kernel
  exact ⟨by decide +kernel, ((job_isolation Sample.twinEnv s).1 Sample.twinLease _ _ hb).jobs ⟨2⟩ (by decide)⟩

end Plurifold
