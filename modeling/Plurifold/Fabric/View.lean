import Plurifold.Fabric.Lifecycle
import Plurifold.Fabric.Sound

/-!
# The fabric as a ledger

`Fabric.ledger` forgets resources, objects and leases. Every update that role handling makes on a fabric is one on its
ledger (`ledger_setRole`, …); what touches only leases, resources or objects leaves the ledger alone.
-/

namespace Plurifold

open Lib Attempt

variable {F : Type}

def TaskStatus.progress : TaskStatus → Progress
  | .pending | .running _ => .working
  | .completed outputs => .completed outputs
  | .uncertain => .uncertain

namespace Fabric

def ledger (s : Fabric F) : Ledger F where
  spec := s.taskSpec
  progress t := ((s.taskStatus t).map (·.progress)).getD .working
  binding := s.taskRoles.lookup
  definition j := (s.jobs.lookup j).map (·.definition)
  role j r := (s.jobs.lookup j).bind (·.roles.lookup r)
  reduction j r := (s.jobs.lookup j).bind (·.reductions.lookup r)
  planned t := ∃ j job r selections, s.jobs.lookup j = some job ∧ job.selections.lookup r = some (.sharded selections) ∧
    t ∈ selections.map (·.taskId)

variable {s s' : Fabric F} {j : JobId} {r : String} {t : TaskId}

/-! ## Reading a fabric through its ledger -/

theorem lookup_none_iff : s.tasks.lookup t = none ↔ s.ledger.spec t = none := by
  simp only [ledger, taskSpec, Option.map_eq_none_iff]

theorem spec_of_lookup {record : TaskRecord F} (h : s.tasks.lookup t = some record) :
    s.ledger.spec t = some record.spec := by
  simp only [ledger, taskSpec, h, Option.map_some]

theorem progress_of_lookup {record : TaskRecord F} (h : s.tasks.lookup t = some record) :
    s.ledger.progress t = record.status.progress := by
  simp only [ledger, taskStatus, h, Option.map_some, Option.getD_some]

theorem lookup_of_spec {spec : TaskSpec F} (h : s.ledger.spec t = some spec) :
    ∃ status, s.tasks.lookup t = some ⟨spec, status⟩ := by
  obtain ⟨⟨spec', status⟩, hl, rfl⟩ := Option.map_eq_some_iff.mp (show (s.tasks.lookup t).map (·.spec) = some spec from h)
  exact ⟨status, hl⟩

/-- A completed or lost task is in the same state in the fabric. -/
theorem taskStatus_of_progress {p : Progress} (h : s.ledger.progress t = p) (hp : p ≠ .working) :
    ∃ status, s.taskStatus t = some status ∧ status.progress = p := by
  simp only [ledger] at h
  cases hs : s.taskStatus t with
  | none =>
    rw [hs] at h
    exact absurd h.symm hp
  | some status =>
    rw [hs] at h
    exact ⟨status, rfl, h⟩

theorem taskStatus_completed {outputs : List ObjectId} :
    s.taskStatus t = some (.completed outputs) ↔ s.ledger.progress t = .completed outputs := by
  constructor
  · intro h
    simp only [ledger, h, Option.map_some, Option.getD_some, TaskStatus.progress]
  · intro h
    obtain ⟨status, hs, hp⟩ := taskStatus_of_progress h nofun
    cases status with
    | completed outputs' => cases hp; exact hs
    | pending => cases hp
    | running lease => cases hp
    | uncertain => cases hp

theorem definition_of_lookup {job : CooperativeJobRecord F} (h : s.jobs.lookup j = some job) :
    s.ledger.definition j = some job.definition := by
  simp only [ledger, h, Option.map_some]

theorem role_of_lookup {job : CooperativeJobRecord F} (h : s.jobs.lookup j = some job) (r : String) :
    s.ledger.role j r = job.roles.lookup r := by
  simp only [ledger, h, Option.bind_some]

theorem reduction_of_lookup {job : CooperativeJobRecord F} (h : s.jobs.lookup j = some job) (r : String) :
    s.ledger.reduction j r = job.reductions.lookup r := by
  simp only [ledger, h, Option.bind_some]

theorem lookup_of_definition {definition : JobDefinition F} (h : s.ledger.definition j = some definition) :
    ∃ job, s.jobs.lookup j = some job ∧ job.definition = definition :=
  Option.map_eq_some_iff.mp h

theorem lookup_of_role {status : CooperativeRoleStatus} (h : s.ledger.role j r = some status) :
    ∃ job, s.jobs.lookup j = some job ∧ job.roles.lookup r = some status := Option.bind_eq_some_iff.mp h

theorem lookup_of_reduction {active : ActiveReduction} (h : s.ledger.reduction j r = some active) :
    ∃ job, s.jobs.lookup j = some job ∧ job.reductions.lookup r = some active := Option.bind_eq_some_iff.mp h

theorem doneOutputs_eq (s : Fabric F) (tasks : List TaskId) : s.completedOutputs tasks = s.ledger.doneOutputs tasks := by
  refine List.filterMap_congr fun t _ => ?_
  simp only [ledger]
  cases s.taskStatus t with
  | none => rfl
  | some status => cases status <;> rfl

/-! ## Updates of jobs -/

section ModifyJob

variable {f : CooperativeJobRecord F → CooperativeJobRecord F} {job : CooperativeJobRecord F}
  (hj : s.jobs.lookup j = some job)

include hj

theorem definition_modifyJob (hf : (f job).definition = job.definition) :
    (s.modifyJob j f).ledger.definition = s.ledger.definition := by
  funext j'
  simp only [ledger, modifyJob_lookup]
  by_cases h : j' = j
  · subst h
    rw [if_pos rfl, hj, Option.map_some, Option.map_some, Option.map_some, hf]
  · rw [if_neg h]

theorem role_modifyJob (j' : JobId) (r : String) : (s.modifyJob j f).ledger.role j' r =
    if j' = j then (f job).roles.lookup r else s.ledger.role j' r := by
  simp only [ledger, modifyJob_lookup]
  by_cases h : j' = j
  · subst h
    rw [if_pos rfl, if_pos rfl, hj, Option.map_some, Option.bind_some]
  · rw [if_neg h, if_neg h]

theorem reduction_modifyJob (j' : JobId) (r : String) : (s.modifyJob j f).ledger.reduction j' r =
    if j' = j then (f job).reductions.lookup r else s.ledger.reduction j' r := by
  simp only [ledger, modifyJob_lookup]
  by_cases h : j' = j
  · subst h
    rw [if_pos rfl, if_pos rfl, hj, Option.map_some, Option.bind_some]
  · rw [if_neg h, if_neg h]

theorem role_modifyJob_same (hf : (f job).roles = job.roles) : (s.modifyJob j f).ledger.role = s.ledger.role := by
  funext j' r
  rw [role_modifyJob hj, hf, ← role_of_lookup hj]
  split
  · rename_i h
    rw [h]
  · rfl

theorem reduction_modifyJob_same (hf : (f job).reductions = job.reductions) :
    (s.modifyJob j f).ledger.reduction = s.ledger.reduction := by
  funext j' r
  rw [reduction_modifyJob hj, hf, ← reduction_of_lookup hj]
  split
  · rename_i h
    rw [h]
  · rfl

end ModifyJob

/-- Selections that stay are still there. -/
theorem planned_modifyJob {f : CooperativeJobRecord F → CooperativeJobRecord F}
    (hf : ∀ job, (f job).selections = job.selections) : (s.modifyJob j f).ledger.planned = s.ledger.planned := by
  funext t
  simp only [ledger, modifyJob_lookup, eq_iff_iff]
  constructor
  · rintro ⟨j', job, r, selections, hj', hs, ht⟩
    split at hj'
    · obtain ⟨old, hold, rfl⟩ := Option.map_eq_some_iff.mp hj'
      exact ⟨j', old, r, selections, hold, hf old ▸ hs, ht⟩
    · exact ⟨j', job, r, selections, hj', hs, ht⟩
  · rintro ⟨j', job, r, selections, hj', hs, ht⟩
    by_cases h : j' = j
    · exact ⟨j', f job, r, selections, by rw [if_pos h, hj', Option.map_some], (hf job).symm ▸ hs, ht⟩
    · exact ⟨j', job, r, selections, by rw [if_neg h, hj'], hs, ht⟩

theorem ledger_setRole {job : CooperativeJobRecord F} (hj : s.jobs.lookup j = some job)
    (status : CooperativeRoleStatus) : (s.setRole j r status).ledger = s.ledger.setRole j r status := by
  refine Ledger.ext rfl rfl rfl (definition_modifyJob hj rfl) ?_ (reduction_modifyJob_same hj rfl)
    (planned_modifyJob fun _ => rfl)
  funext j' r'
  rw [setRole, role_modifyJob hj, Map.lookup_insert_eq, ← role_of_lookup hj, Ledger.setRole_role]
  by_cases h : j' = j
  · subst h
    rw [if_pos rfl]
    simp only [true_and]
  · rw [if_neg h, if_neg fun hand => h hand.1]

theorem ledger_setReduction {job : CooperativeJobRecord F} (hj : s.jobs.lookup j = some job)
    (reduction : ActiveReduction) :
    (s.setReduction j r reduction).ledger = s.ledger.setReduction j r (some reduction) := by
  refine Ledger.ext rfl rfl rfl (definition_modifyJob hj rfl) (role_modifyJob_same hj rfl) ?_
    (planned_modifyJob fun _ => rfl)
  funext j' r'
  rw [setReduction, reduction_modifyJob hj, Map.lookup_insert_eq, ← reduction_of_lookup hj,
    Ledger.setReduction_reduction]
  by_cases h : j' = j
  · subst h
    rw [if_pos rfl]
    simp only [true_and]
  · rw [if_neg h, if_neg fun hand => h hand.1]

theorem ledger_removeReduction {job : CooperativeJobRecord F} (hj : s.jobs.lookup j = some job) :
    (s.removeReduction j r).ledger = s.ledger.setReduction j r none := by
  refine Ledger.ext rfl rfl rfl (definition_modifyJob hj rfl) (role_modifyJob_same hj rfl) ?_
    (planned_modifyJob fun _ => rfl)
  funext j' r'
  rw [removeReduction, reduction_modifyJob hj, Map.lookup_erase_eq, ← reduction_of_lookup hj,
    Ledger.setReduction_reduction]
  by_cases h : j' = j
  · subst h
    rw [if_pos rfl]
    simp only [true_and]
  · rw [if_neg h, if_neg fun hand => h hand.1]

/-- A selection names no tasks but those of its shards. -/
theorem ledger_setSelection {job : CooperativeJobRecord F} (hj : s.jobs.lookup j = some job)
    (selection : RoleSelection F) :
    ∃ planned, (s.setSelection j r selection).ledger = s.ledger.setPlanned planned ∧
      ∀ t, planned t → s.ledger.planned t ∨ ∃ selections, selection = .sharded selections ∧
        t ∈ selections.map (·.taskId) := by
  refine ⟨(s.setSelection j r selection).ledger.planned, ?_, ?_⟩
  · exact Ledger.ext rfl rfl rfl (definition_modifyJob hj rfl) (role_modifyJob_same hj rfl)
      (reduction_modifyJob_same hj rfl) rfl
  · rintro t ⟨j', job', r', selections, hj', hs, ht⟩
    simp only [setSelection, modifyJob_lookup] at hj'
    split at hj'
    · obtain ⟨old, hold, rfl⟩ := Option.map_eq_some_iff.mp hj'
      rw [Map.lookup_insert_eq] at hs
      split at hs
      · exact .inr ⟨selections, Option.some.inj hs, ht⟩
      · exact .inl ⟨j', old, r', selections, hold, hs, ht⟩
    · exact .inl ⟨j', job', r', selections, hj', hs, ht⟩

/-! ## Updates of tasks -/

theorem ledger_setStatus {record : TaskRecord F} (ht : s.tasks.lookup t = some record) (status : TaskStatus) :
    (s.setStatus t status).ledger = s.ledger.setProgress t status.progress := by
  refine Ledger.ext ?_ ?_ rfl rfl rfl rfl rfl
  · funext t'
    simp only [ledger, taskSpec, setStatus_lookup, Ledger.setProgress_spec]
    split
    · rename_i h
      subst h
      rw [ht]
      rfl
    · rfl
  · funext t'
    simp only [ledger, taskStatus, setStatus_lookup, Ledger.setProgress_progress]
    by_cases h : t' = t
    · subst h
      rw [if_pos rfl, if_pos rfl, ht]
      rfl
    · rw [if_neg h, if_neg h]

/-- Leases come and go without a trace. -/
theorem ledger_setStatus_working {record : TaskRecord F} (ht : s.tasks.lookup t = some record)
    (hw : record.status.progress = .working) {status : TaskStatus} (hw' : status.progress = .working) :
    (s.setStatus t status).ledger = s.ledger := by
  rw [ledger_setStatus ht]
  refine Ledger.ext rfl ?_ rfl rfl rfl rfl rfl
  funext t'
  rw [Ledger.setProgress_progress]
  split
  · rename_i h
    rw [h, hw', progress_of_lookup ht, hw]
  · rfl

/-- The fabric with a new pending task. -/
def insertTask (task : TaskSpec F) (s : Fabric F) : Fabric F :=
  { s with tasks := s.tasks.insert task.id { spec := task, status := .pending } }

theorem ledger_insertTask {task : TaskSpec F} (hn : s.tasks.lookup task.id = none) :
    (s.insertTask task).ledger = s.ledger.add task := by
  refine Ledger.ext ?_ ?_ rfl rfl rfl rfl rfl
  · funext t
    simp only [ledger, taskSpec, insertTask, Map.lookup_insert_eq, Ledger.add_spec]
    by_cases h : t = task.id
    · rw [if_pos h, if_pos h]
      rfl
    · rw [if_neg h, if_neg h]
  · funext t
    simp only [ledger, taskStatus, insertTask, Map.lookup_insert_eq, Ledger.add_progress]
    by_cases h : t = task.id
    · subst h
      rw [if_pos rfl, hn]
      rfl
    · rw [if_neg h]

theorem ledger_bindNew {task : TaskSpec F} (hn : s.tasks.lookup task.id = none) (b : TaskRoleBinding) :
    (bindTask task.id b (s.insertTask task)).ledger = s.ledger.addAll [task] b := by
  have hledger : (bindTask task.id b (s.insertTask task)).ledger = { (s.insertTask task).ledger with
      binding := (s.taskRoles.insert task.id b).lookup } := rfl
  rw [hledger, ledger_insertTask hn]
  refine Ledger.ext ?_ rfl ?_ rfl rfl rfl rfl
  · funext t
    rw [Ledger.addAll_spec, List.find?_singleton]
    by_cases h : t = task.id
    · rw [if_pos (decide_eq_true h.symm)]
      exact if_pos h
    · rw [if_neg (by simpa using Ne.symm h)]
      exact if_neg h
  · funext t
    simp only [Map.lookup_insert_eq, Ledger.addAll_binding, List.map_cons, List.map_nil, List.mem_singleton]
    rfl

/-- A task that passes the checks is stored. -/
theorem submit_ok {task : TaskSpec F} (hv : validateTask task = .ok ()) (hn : s.tasks.lookup task.id = none) :
    submit task s = (.ok task.id, s.insertTask task) := by
  unfold submit
  simp [hv, hn]
  rfl

end Fabric

end Plurifold
