import Plurifold.Fabric.Refinement

/-!
# Roles and tasks agree

Role state is spread over tasks, bindings, roles, selections and reductions. `RoleConsistent` says, in terms of these
maps, what the status of a role promises about its tasks. It holds in every state of a run whose completions carry
distinct outputs (`role_consistency`), so reading the views of a job never meets a missing entry.
-/

namespace Plurifold

open Lib Fabric

variable {F : Type} {s : Fabric F} {j : JobId} {r : String} {t : TaskId}

/-! ## The statement -/

/-- The task is bound to the role. -/
def Fabric.BoundTo (s : Fabric F) (t : TaskId) (j : JobId) (r : String) : Prop :=
  ∃ b, s.taskRoles.lookup t = some b ∧ b.job = j ∧ r ∈ b.roles

/-- How many of these tasks are completed. -/
def Fabric.completedCount (s : Fabric F) (tasks : List TaskId) : Nat :=
  tasks.countP fun t => match s.taskStatus t with
    | some (.completed _) => true
    | _ => false

/-- What the status of role `r` says about its tasks and its reduction. -/
structure RoleConsistent (s : Fabric F) (j : JobId) (job : CooperativeJobRecord F) (r : String) : Prop where
  idle : job.roles.lookup r = some .waiting ∨ job.roles.lookup r = some .ready → ∀ t, ¬s.BoundTo t j r
  submitted : ∀ t, job.roles.lookup r = some (.submitted t) →
    (s.taskRoles.lookup t = some (.single j r) ∨
      ∃ names, s.taskRoles.lookup t = some (.fusedChain j names) ∧ r ∈ names) ∧
    (s.taskStatus t = some .pending ∨ ∃ lease, s.taskStatus t = some (.running lease))
  sharded : ∀ tasks completed, job.roles.lookup r = some (.sharded tasks completed) →
    (∀ (i : Nat) (t : TaskId), tasks[i]? = some t → s.taskRoles.lookup t = some (.shard j r) ∧
      s.taskStatus t ≠ some .uncertain ∧ ∃ spec, s.taskSpec t = some spec ∧ IsShard spec i tasks.length) ∧
    completed = s.completedCount tasks ∧ completed < tasks.length
  reducing : ∀ tasks completed level, job.roles.lookup r = some (.reducing tasks completed level) ↔
    ∃ active, job.reductions.lookup r = some active ∧ active.level = level ∧ tasks = itemTasks active.items ∧
      completed = s.completedCount tasks
  uncertain : job.roles.lookup r = some .uncertain ↔ ∃ t, s.BoundTo t j r ∧ s.taskStatus t = some .uncertain

/-! ## Reading the ledger -/

theorem completedCount_eq (s : Fabric F) (tasks : List TaskId) :
    s.completedCount tasks = (s.ledger.doneOutputs tasks).length := by
  rw [completedCount, Ledger.doneOutputs, List.length_filterMap_eq_countP]
  refine List.countP_congr fun t _ => ?_
  simp only [ledger]
  cases s.taskStatus t with
  | none => rfl
  | some status => cases status <;> rfl

theorem taskStatus_uncertain : s.taskStatus t = some .uncertain ↔ s.ledger.progress t = .uncertain := by
  constructor
  · intro h
    simp only [ledger, h, Option.map_some, Option.getD_some, TaskStatus.progress]
  · intro h
    have hdone : Progress.uncertain ≠ .working := by decide
    obtain ⟨status, hs, hp⟩ := taskStatus_of_progress h hdone
    cases status with
    | uncertain => exact hs
    | _ => cases hp

/-- A working task is pending or running. -/
theorem taskStatus_of_working {spec : TaskSpec F} (hspec : s.ledger.spec t = some spec)
    (hw : s.ledger.progress t = .working) :
    s.taskStatus t = some .pending ∨ ∃ lease, s.taskStatus t = some (.running lease) := by
  obtain ⟨status, ht⟩ := lookup_of_spec hspec
  rw [progress_of_lookup ht] at hw
  have hstatus : s.taskStatus t = some status := by rw [taskStatus, ht, Option.map_some]
  cases status with
  | pending => exact .inl hstatus
  | running lease => exact .inr ⟨lease, hstatus⟩
  | completed outputs => cases hw
  | uncertain => cases hw

variable [F64 F]

/-- The roles of a lost task are uncertain. -/
theorem Sound.uncertain_of_lost {strict : Prop} {L : Ledger F} (h : Sound strict L) (hb : L.Bound t j r)
    (hl : L.progress t = .uncertain) : L.role j r = some .uncertain := by
  have hok := h.roleOk j r
  generalize hstatus : L.role j r = status at hok
  match status, hok with
  | none, hok | some .waiting, hok | some .ready, hok => exact absurd hb (hok.unbound t)
  | some (.submitted t'), hok =>
    obtain rfl := hok.only t hb
    exact absurd hl hok.notLost
  | some (.sharded tasks n), hok => exact absurd hl (hok.notLost t (hok.only t hb))
  | some (.reducing tasks n level), hok =>
    rcases hok.others t hb with hmem | ⟨outputs, hdone⟩
    · obtain ⟨b, hbinding, -, -, hnot⟩ := h.lost_works hb hl
      rw [hok.reducers t hmem] at hbinding
      cases hbinding
      cases hnot
    · rw [hl] at hdone
      cases hdone
  | some (.completed outputs), hok =>
    obtain ⟨outputs, hdone⟩ := hok.done t hb
    rw [hl] at hdone
    cases hdone
  | some .uncertain, _ => rfl

theorem Sound.roleConsistent (h : Sound True s.ledger) {job : CooperativeJobRecord F}
    (hj : s.jobs.lookup j = some job) : RoleConsistent s j job r := by
  have hok := h.roleOk j r
  have hrole := role_of_lookup hj r
  have hreduction := reduction_of_lookup hj r
  refine ⟨fun hn t => ?_, fun t ht => ?_, fun tasks n hs => ?_, fun tasks n level => ?_, ?_⟩
  · rw [← hrole] at hn
    exact (h.idle hn).unbound t
  · rw [hrole, ht] at hok
    have hsubmitted : SubmittedOk True s.ledger j r t := hok
    obtain ⟨b, hb, -⟩ := hsubmitted.serves.works
    obtain ⟨spec, hspec⟩ := h.known t b hb
    exact ⟨hsubmitted.serves, taskStatus_of_working hspec (hsubmitted.working trivial)⟩
  · rw [hrole, hs] at hok
    have hsharded : ShardedOk True s.ledger j r tasks n := hok
    obtain ⟨hn, hlt⟩ := hsharded.count trivial
    refine ⟨fun i t hi => ?_, by rw [completedCount_eq]; exact hn, hlt⟩
    obtain ⟨hb, hspec⟩ := hsharded.shards i t hi
    refine ⟨hb, fun hlost => ?_, hspec⟩
    exact hsharded.notLost t (List.mem_of_getElem? hi) (taskStatus_uncertain.mp hlost)
  · constructor
    · intro hr
      rw [hrole, hr] at hok
      have hreducing : ReducingOk True s.ledger j r tasks n level := hok
      obtain ⟨active, hactive, hlevel, htasks⟩ := hreducing.reduction
      refine ⟨active, by rw [← hreduction, hactive], hlevel, htasks, ?_⟩
      rw [completedCount_eq]
      exact hreducing.count trivial
    · rintro ⟨active, hactive, rfl, rfl, rfl⟩
      obtain ⟨n', hr, hreducing⟩ := h.reducing_of_active (by rw [hreduction, hactive])
      rw [← hrole, hr, completedCount_eq, hreducing.count trivial]
  · constructor
    · intro hr
      rw [hrole, hr] at hok
      obtain ⟨t, hb, hl⟩ := UncertainOk.lost hok
      exact ⟨t, hb, taskStatus_uncertain.mpr hl⟩
    · rintro ⟨t, hb, hl⟩
      rw [← hrole]
      exact h.uncertain_of_lost hb (taskStatus_uncertain.mp hl)

/-! ## Views -/

/-- A map that may fail succeeds when every element does. -/
theorem mapM_ne_none {α β : Type} {f : α → Option β} {l : List α} (h : ∀ a ∈ l, (f a).isSome = true) :
    l.mapM f ≠ none := by
  induction l with
  | nil => exact nofun
  | cons a l ih =>
    obtain ⟨b, hb⟩ := Option.isSome_iff_exists.mp (h a (List.mem_cons_self ..))
    obtain ⟨rest, hrest⟩ := Option.ne_none_iff_exists'.mp (ih fun a ha => h a (List.mem_cons_of_mem _ ha))
    rw [List.mapM_cons, hb, hrest]
    exact nofun

theorem Sound.cooperativeRoleViews {strict : Prop} (h : Sound strict s.ledger) (j : JobId) :
    s.cooperativeRoleViews j ≠ some none := by
  unfold Fabric.cooperativeRoleViews
  cases hj : s.jobs.lookup j with
  | none => exact nofun
  | some job =>
    rw [Option.map_some, Ne, Option.some.injEq]
    refine mapM_ne_none fun role hrole => ?_
    have hdomain : (job.roles.lookup role.1).isSome = true := by
      rw [← role_of_lookup hj]
      exact (h.domain j role.1).mpr ⟨_, definition_of_lookup hj, List.mem_map.mpr ⟨role, hrole, rfl⟩⟩
    obtain ⟨status, hstatus⟩ := Option.isSome_iff_exists.mp hdomain
    simp only [roleView, hstatus, Option.bind_eq_bind, Option.bind_some]
    split
    · rfl
    · rename_i selections hselection
      have hshards : selections.mapM s.roleShardView ≠ none := by
        refine mapM_ne_none fun selection hmem => ?_
        obtain ⟨spec, hspec⟩ := h.planned selection.taskId
          ⟨j, job, role.1, selections, hj, hselection, List.mem_map.mpr ⟨selection, hmem, rfl⟩⟩
        obtain ⟨status, ht⟩ := lookup_of_spec hspec
        rw [roleShardView, ht]
        rfl
      obtain ⟨shards, hshards⟩ := Option.ne_none_iff_exists'.mp hshards
      rw [hshards]
      rfl
    · rfl

/-! ## Runs -/

/-- Outputs with distinct identifiers agree. -/
theorem agree_of_nodup {outputs : List ObjectMetadata} (h : (outputs.map (·.id)).Nodup) : Agree outputs := by
  intro a ha b hb hid
  obtain rfl : a = b := List.inj_on_of_nodup_map h ha hb hid
  exact sameObjectIdentity_iff.mpr rfl

/-- **Roles and tasks agree.** In every state of a run with fresh task identifiers, in which every completion carries
outputs with distinct identifiers, every role of every job is consistent with its tasks, and the views of a job can be
read. -/
theorem role_consistency (e : Env) (m x : UInt64) (ops : List (Op F)) (hfresh : FreshTasks e ops)
    (hdistinct : ∀ lease outputs, .completeExecution lease outputs ∈ ops → (outputs.map (·.id)).Nodup) :
    let s := final e (Fabric.new m x) ops
    (∀ j job, s.jobs.lookup j = some job → ∀ r, RoleConsistent s j job r) ∧
      ∀ j, s.cooperativeRoleViews j ≠ some none := by
  intro s
  have hsound : Sound True s.ledger :=
    final_sound hfresh fun _ => OutputsAgree.agreesOrClean fun lease outputs hmem =>
      agree_of_nodup (hdistinct lease outputs hmem)
  exact ⟨fun j job hj r => hsound.roleConsistent hj, fun j => hsound.cooperativeRoleViews j⟩

/-! ## A job of two roles -/

namespace Sample

def template : TaskTemplate ℚ where
  artifact := "builtin:echo"
  entrypoint := "run"
  arguments := []
  inputs := []
  requirements := {}
  effects := .pure
  cost := ⟨1, 0⟩

/-- One role reads the output of the other. -/
def chainJob : CooperativeJobSpec ℚ where
  id := ⟨1⟩
  roles := [⟨"first", template, []⟩, ⟨"second", template, ["first"]⟩]
  outputs := ["second"]

/-- The identifier of the first task that the second call of a run submits. -/
def firstTask : TaskId := ⟨(((((Env.numbered clock).sub 1).sub 0).sub 0).sub 0).newUuid⟩

/-- The identifier of the task that the completion of the first one submits. -/
def secondTask : TaskId := ⟨(((((((Env.numbered clock).sub 1).sub 1).sub 1).sub 0).sub 0).sub 0).sub 1 |>.newUuid⟩

/-- The first role of a job is completed. -/
def chainRun : List (Op ℚ) :=
  [.registerResource (resource 1), .submitCooperative chainJob, .beginExecution firstTask ⟨1⟩,
    .completeExecution ⟨firstTask, ⟨((((Env.numbered clock).sub 1).sub 1).sub 0).newUuid⟩, ⟨1⟩, 1, 0⟩
      [⟨⟨9⟩, 0, none, none, [⟨1⟩], none⟩]]

theorem freshTasks_chainRun : FreshTasks (Env.numbered clock) chainRun :=
  freshTasks_numbered fun task h => by
    simp only [chainRun, List.mem_cons, List.not_mem_nil, reduceCtorEq, or_false] at h

end Sample

theorem role_consistency_chain :
    ((final (Env.numbered Sample.clock) (Fabric.new 100 100) Sample.chainRun).jobs.lookup ⟨1⟩).isSome = true ∧
    ∀ job, (final (Env.numbered Sample.clock) (Fabric.new 100 100) Sample.chainRun).jobs.lookup ⟨1⟩ = some job →
      ∀ r, RoleConsistent (final (Env.numbered Sample.clock) (Fabric.new 100 100) Sample.chainRun) ⟨1⟩ job r := by
  refine ⟨by decide +kernel, fun job hj r => ?_⟩
  refine (role_consistency (Env.numbered Sample.clock) 100 100 Sample.chainRun Sample.freshTasks_chainRun ?_).1 _ job hj r
  intro lease outputs hmem
  simp only [Sample.chainRun, List.mem_cons, List.not_mem_nil, reduceCtorEq, false_or, or_false,
    Op.completeExecution.injEq] at hmem
  rw [hmem.2]
  simp

end Plurifold
