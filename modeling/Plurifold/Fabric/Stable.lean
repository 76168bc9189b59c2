import Plurifold.Fabric.Refinement

/-!
# What stays: finished work and Exclusive work

* Finished tasks, roles and jobs stay finished with the same result (`terminal_stable`), although role statuses are
  overwritten in many places.
* Exclusive work is started at most once (`exclusive_once`): a lost Exclusive task is not begun again, and no role gets
  a second task beside its shards.
-/

namespace Plurifold

open Lib Fabric

variable {F : Type} {s s' : Fabric F} {j : JobId} {r : String} {t : TaskId}

/-! ## The status of a job -/

/-- The outputs recorded for a role. -/
def recorded : Option CooperativeRoleStatus → List ObjectId
  | some (.completed outputs) => outputs
  | _ => []

theorem any_uncertain_iff {job : CooperativeJobRecord F} :
    (job.roles.values.any fun status => status = .uncertain) = true ↔ ∃ r, job.roles.lookup r = some .uncertain := by
  rw [List.any_eq_true]
  constructor
  · rintro ⟨status, hmem, hstatus⟩
    obtain ⟨r, hr⟩ := Map.mem_values.mp hmem
    exact ⟨r, hr.trans (congrArg some (of_decide_eq_true hstatus))⟩
  · rintro ⟨r, hr⟩
    exact ⟨.uncertain, Map.mem_values.mpr ⟨r, hr⟩, decide_eq_true rfl⟩

theorem all_completed_iff {job : CooperativeJobRecord F} :
    (job.roles.values.all fun | .completed _ => true | _ => false) = true ↔
      ∀ r status, job.roles.lookup r = some status → ∃ outputs, status = .completed outputs := by
  rw [List.all_eq_true]
  constructor
  · intro h r status hr
    have := h status (Map.mem_values.mpr ⟨r, hr⟩)
    cases status with
    | completed outputs => exact ⟨outputs, rfl⟩
    | _ => cases this
  · intro h status hmem
    obtain ⟨r, hr⟩ := Map.mem_values.mp hmem
    obtain ⟨outputs, rfl⟩ := h r status hr
    rfl

/-- A job is uncertain when one of its roles is. -/
theorem cooperativeJobStatus_uncertain_iff :
    s.cooperativeJobStatus j = some .uncertain ↔ ∃ r, s.ledger.role j r = some .uncertain := by
  unfold cooperativeJobStatus
  cases hj : s.jobs.lookup j with
  | none =>
    simp only [Option.map_none, reduceCtorEq, false_iff]
    rintro ⟨r, hr⟩
    obtain ⟨job, hjob, -⟩ := lookup_of_role hr
    rw [hj] at hjob
    cases hjob
  | some job =>
    simp only [role_of_lookup hj, Option.map_some, Option.some.injEq, ← any_uncertain_iff]
    split
    · rename_i h
      simp only [h]
    · rename_i h
      split <;> simp only [h, reduceCtorEq]

/-- A job is completed when all its roles are. -/
theorem cooperativeJobStatus_completed_iff {result : List ObjectId} :
    s.cooperativeJobStatus j = some (.completed result) ↔ ∃ definition, s.ledger.definition j = some definition ∧
      (∀ r status, s.ledger.role j r = some status → ∃ outputs, status = .completed outputs) ∧
      result = (jobOutputs definition).flatMap fun role => recorded (s.ledger.role j role) := by
  unfold cooperativeJobStatus
  cases hj : s.jobs.lookup j with
  | none =>
    simp only [Option.map_none, reduceCtorEq, false_iff]
    rintro ⟨definition, hd, -⟩
    obtain ⟨job, hjob, -⟩ := lookup_of_definition hd
    rw [hj] at hjob
    cases hjob
  | some job =>
    simp only [role_of_lookup hj, definition_of_lookup hj, Option.map_some, Option.some.injEq, ← all_completed_iff,
      exists_eq_left']
    by_cases hany : (job.roles.values.any fun status => status = .uncertain) = true
    · -- an uncertain role is not completed
      rw [if_pos hany]
      simp only [reduceCtorEq, false_iff, not_and]
      intro hall
      obtain ⟨r, hr⟩ := any_uncertain_iff.mp hany
      obtain ⟨outputs, hout⟩ := all_completed_iff.mp hall r _ hr
      cases hout
    · rw [if_neg hany]
      cases hall : job.roles.values.all fun | .completed _ => true | _ => false with
      | false => simp
      | true =>
        simp only [Bool.not_true, Bool.false_eq_true, if_false, CooperativeJobStatus.completed.injEq, true_and]
        exact eq_comm

/-! ## Finished work -/

/-- A completed or lost task is in the same state later. -/
theorem Keeps.taskStatus (h : Keeps s.ledger s'.ledger) {status : TaskStatus} (hs : status.settled = true)
    (ht : s.taskStatus t = some status) : s'.taskStatus t = some status := by
  have hp : s.ledger.progress t = status.progress := by simp only [ledger, ht, Option.map_some, Option.getD_some]
  have hdone : status.progress ≠ .working := by
    intro hw
    cases status with
    | pending => cases hs
    | running lease => cases hs
    | completed outputs => cases hw
    | uncertain => cases hw
  obtain ⟨status', hs', hsame⟩ := taskStatus_of_progress ((h.progress t (hp ▸ hdone)).trans hp) hdone
  rw [hs']
  cases status with
  | completed outputs => cases status' <;> cases hsame; rfl
  | uncertain => cases status' <;> cases hsame; rfl
  | pending => cases hs
  | running lease => cases hs

variable [F64 F]

/-- The roles of a job are the same later. -/
theorem Keeps.isSome_role {strict : Prop} (h : Keeps s.ledger s'.ledger) (hsound : Sound strict s.ledger)
    (hsound' : Sound strict s'.ledger) {definition : JobDefinition F} (hd : s.ledger.definition j = some definition) :
    (s'.ledger.role j r).isSome = true ↔ (s.ledger.role j r).isSome = true := by
  rw [hsound.domain, hsound'.domain, hd, h.definition j definition hd]

theorem Keeps.recorded {strict : Prop} (h : Keeps s.ledger s'.ledger) (hsound : Sound strict s.ledger)
    (hsound' : Sound strict s'.ledger) {definition : JobDefinition F} (hd : s.ledger.definition j = some definition)
    (hall : ∀ r status, s.ledger.role j r = some status → ∃ outputs, status = .completed outputs) :
    s'.ledger.role j r = s.ledger.role j r := by
  cases hr : s.ledger.role j r with
  | none =>
    have hnone := h.isSome_role (r := r) hsound hsound' hd
    rw [hr] at hnone
    simpa using hnone
  | some status =>
    obtain ⟨outputs, rfl⟩ := hall r status hr
    exact h.role j r _ rfl hr

theorem Keeps.jobStatus {strict : Prop} (h : Keeps s.ledger s'.ledger) (hsound : Sound strict s.ledger)
    (hsound' : Sound strict s'.ledger) {status : CooperativeJobStatus} (hs : status ≠ .running)
    (hj : s.cooperativeJobStatus j = some status) : s'.cooperativeJobStatus j = some status := by
  cases status with
  | running => exact absurd rfl hs
  | uncertain =>
    obtain ⟨r, hr⟩ := cooperativeJobStatus_uncertain_iff.mp hj
    exact cooperativeJobStatus_uncertain_iff.mpr ⟨r, h.role j r _ rfl hr⟩
  | completed result =>
    obtain ⟨definition, hd, hall, rfl⟩ := cooperativeJobStatus_completed_iff.mp hj
    have hsame : ∀ r, s'.ledger.role j r = s.ledger.role j r := fun r => h.recorded hsound hsound' hd hall
    refine cooperativeJobStatus_completed_iff.mpr ⟨definition, h.definition j definition hd, fun r status hr => ?_, ?_⟩
    · exact hall r status (hsame r ▸ hr)
    · simp only [hsame]

/-- **Terminal states are stable.** Whatever calls are made after a state of a run, and whether they succeed or fail,
a completed or uncertain task, role or job stays so with the same outputs. -/
theorem terminal_stable (e : Env) (m x : UInt64) (ops later : List (Op F)) (hfresh : FreshTasks e (ops ++ later)) :
    let s := final e (Fabric.new m x) ops
    let s' := final e (Fabric.new m x) (ops ++ later)
    (∀ t outputs, s.taskStatus t = some (.completed outputs) → s'.taskStatus t = some (.completed outputs)) ∧
    (∀ t, s.taskStatus t = some .uncertain → s'.taskStatus t = some .uncertain) ∧
    (∀ j r job, s.jobs.lookup j = some job → ∃ job', s'.jobs.lookup j = some job' ∧
      (∀ outputs, job.roles.lookup r = some (.completed outputs) → job'.roles.lookup r = some (.completed outputs)) ∧
      (job.roles.lookup r = some .uncertain → job'.roles.lookup r = some .uncertain)) ∧
    (∀ j outputs, s.cooperativeJobStatus j = some (.completed outputs) →
      s'.cooperativeJobStatus j = some (.completed outputs)) ∧
    ∀ j, s.cooperativeJobStatus j = some .uncertain → s'.cooperativeJobStatus j = some .uncertain := by
  intro s s'
  have hsound : Sound False s.ledger :=
    final_sound ⟨hfresh.generated, fun task h => hfresh.submitted task (List.mem_append_left _ h)⟩ False.elim
  have hsound' : Sound False s'.ledger := final_sound hfresh False.elim
  have hkeeps : Keeps s.ledger s'.ledger := (final_steps hfresh False.elim).keeps hsound
  refine ⟨fun t outputs h => hkeeps.taskStatus rfl h, fun t h => hkeeps.taskStatus rfl h, fun j r job hj => ?_,
    fun j outputs h => hkeeps.jobStatus hsound hsound' nofun h, fun j h => hkeeps.jobStatus hsound hsound' nofun h⟩
  obtain ⟨job', hj', -⟩ := lookup_of_definition (hkeeps.definition j _ (definition_of_lookup hj))
  have hrole : ∀ status, status.terminal = true → job.roles.lookup r = some status →
      job'.roles.lookup r = some status := fun status hs hr => by
    rw [← role_of_lookup hj']
    exact hkeeps.role j r status hs (by rw [role_of_lookup hj, hr])
  exact ⟨job', hj', fun outputs h => hrole _ rfl h, fun h => hrole _ rfl h⟩

/-! ## Exclusive work -/

/-- The task was materialized for the role, and not to reduce its shards. -/
def Fabric.WorksFor (s : Fabric F) (t : TaskId) (j : JobId) (r : String) : Prop :=
  ∃ b, s.taskRoles.lookup t = some b ∧ b.job = j ∧ r ∈ b.roles ∧ b.isReduction = false

/-- The task is shard `i` of the role. -/
def Fabric.IsShardOf (s : Fabric F) (t : TaskId) (j : JobId) (r : String) (i : Nat) : Prop :=
  s.taskRoles.lookup t = some (.shard j r) ∧
    ∃ spec shard, s.taskSpec t = some spec ∧ spec.shard = some shard ∧ shard.index.toNat = i

omit [F64 F] in
theorem isShardOf_of_index (hb : s.taskRoles.lookup t = some (.shard j r)) {i : Nat}
    (h : s.ledger.shardIndex t = some i) : s.IsShardOf t j r i := by
  obtain ⟨shard, hshard, hi⟩ := Option.map_eq_some_iff.mp h
  obtain ⟨spec, hspec, hs⟩ := Option.bind_eq_some_iff.mp hshard
  exact ⟨hb, spec, shard, hspec, hs, hi⟩

/-- A reaped Exclusive task is uncertain. -/
theorem reap_exclusive (e : Env) {unixMs : UInt64} {spec : TaskSpec F} {lease : ExecutionLease}
    (ht : s.tasks.lookup t = some ⟨spec, .running lease⟩) (heff : spec.effects = .exclusive)
    (hexp : lease.expiresAtUnixMs ≤ unixMs) :
    (Event.of e s (.reapExpiredExecutionsAt unixMs)).after.taskStatus t = some .uncertain := by
  change (s.reapExpiredExecutionsAt e unixMs).2.taskStatus t = _
  rw [taskStatus, reapExpiredExecutionsAt_lookup, ht, Option.map_some, reapRecord]
  simp [leaseExpired, hexp, heff, EffectSemantics.automaticallyRetryable]

/-- **Exclusive work is started at most once.** In every run with fresh task identifiers:
an Exclusive task is begun at most once; once its lease is reaped it stays uncertain; two tasks materialized for the same
role at any two times are the same task or shards with different indexes; and an Exclusive task of a role is its only
task or a shard of it. -/
theorem exclusive_once (e : Env) (m x : UInt64) (ops : List (Op F)) (hfresh : FreshTasks e ops) :
    (∀ ev ∈ trace e (Fabric.new m x) ops, ∀ t spec, ev.after.taskSpec t = some spec → spec.effects = .exclusive →
      (begins t (trace e (Fabric.new m x) ops)).length ≤ 1) ∧
    (∀ pre ev post, trace e (Fabric.new m x) ops = pre ++ ev :: post → ∀ unixMs t spec lease,
      ev.op = .reapExpiredExecutionsAt unixMs → ev.before.tasks.lookup t = some ⟨spec, .running lease⟩ →
      spec.effects = .exclusive → lease.expiresAtUnixMs ≤ unixMs →
      ev.after.taskStatus t = some .uncertain ∧ ∀ ev' ∈ post, ev'.after.taskStatus t = some .uncertain) ∧
    (∀ ev ∈ trace e (Fabric.new m x) ops, ∀ ev' ∈ trace e (Fabric.new m x) ops, ∀ t t' j r,
      ev.after.WorksFor t j r → ev'.after.WorksFor t' j r → t = t' ∨
        ∃ i i', ev.after.IsShardOf t j r i ∧ ev'.after.IsShardOf t' j r i' ∧ i ≠ i') ∧
    ∀ ev ∈ trace e (Fabric.new m x) ops, ∀ t spec b, ev.after.taskSpec t = some spec → spec.effects = .exclusive →
      ev.after.taskRoles.lookup t = some b → ∃ j r, b = .single j r ∨ b = .shard j r := by
  obtain ⟨e', hreached⟩ := final_reached (m := m) (x := x) hfresh fun h : False => h.elim
  have hsound := hreached.sound
  -- what a state of the run records is there at the end
  have hsoundAt : ∀ ev ∈ trace e (Fabric.new m x) ops, Sound False ev.after.ledger := by
    intro ev hev
    obtain ⟨pre, post, htrace⟩ := List.append_of_mem hev
    obtain ⟨e', -, -, hafter⟩ := trace_reached hfresh (fun h : False => h.elim) htrace
    exact hafter.sound
  have hkeeps : ∀ ev ∈ trace e (Fabric.new m x) ops, Keeps ev.after.ledger (final e (Fabric.new m x) ops).ledger :=
    fun ev hev => (hreached.past ev hev).keeps (hsoundAt ev hev)
  refine ⟨fun ev hev t spec hspec heff => ?_, ?_, fun ev hev ev' hev' t t' j r hw hw' => ?_,
    fun ev hev t spec b hspec heff hb => ?_⟩
  · obtain ⟨status, ht⟩ := lookup_of_spec ((hkeeps ev hev).spec t spec hspec)
    exact ((final_leaseHistory e m x ops).exclusive t _ ht (by rw [heff]; rfl)).1
  · intro pre ev post htrace unixMs t spec lease hop ht heff hexp
    obtain ⟨e', hev, -⟩ := trace_leaseHistory htrace
    have hlost : ev.after.taskStatus t = some .uncertain := by
      rw [hev, hop]
      exact reap_exclusive e' ht heff hexp
    refine ⟨hlost, fun ev' hev' => ?_⟩
    obtain ⟨mid, post', rfl⟩ := List.append_of_mem hev'
    rw [← List.cons_append, ← List.append_assoc] at htrace
    obtain ⟨-, -, -, hafter⟩ := trace_leaseHistory htrace
    exact hafter.settled ev (by simp) t _ rfl hlost
  · have works : ∀ ev ∈ trace e (Fabric.new m x) ops, ∀ t, ev.after.WorksFor t j r →
        (final e (Fabric.new m x) ops).ledger.Works t j r := by
      rintro ev hev t ⟨b, hb, hrest⟩
      exact ⟨b, (hkeeps ev hev).binding t b hb, hrest⟩
    -- the shard index is read off the specification, which stays
    have shard : ∀ ev ∈ trace e (Fabric.new m x) ops, ∀ t i, ev.after.WorksFor t j r →
        (final e (Fabric.new m x) ops).ledger.binding t = some (.shard j r) →
        (final e (Fabric.new m x) ops).ledger.shardIndex t = some i → ev.after.IsShardOf t j r i := by
      rintro ev hev t i ⟨b, hb, -⟩ hshard hi
      obtain rfl := Option.some.inj (((hkeeps ev hev).binding t b hb).symm.trans hshard)
      obtain ⟨spec, hspec⟩ := (hsoundAt ev hev).known t _ hb
      have hsame := (hkeeps ev hev).spec t spec hspec
      refine isShardOf_of_index hb ?_
      rw [Ledger.shardIndex, hspec, ← hsame]
      exact hi
    rcases hsound.unique t t' j r (works ev hev t hw) (works ev' hev' t' hw') with rfl | ⟨hb, hb', i, i', hi, hi', hne⟩
    · exact .inl rfl
    · exact .inr ⟨i, i', shard ev hev t i hw hb hi, shard ev' hev' t' i' hw' hb' hi', hne⟩
  · have hretry : spec.effects.automaticallyRetryable = false := by rw [heff]; rfl
    cases b with
    | single j r => exact ⟨j, r, .inl rfl⟩
    | shard j r => exact ⟨j, r, .inr rfl⟩
    | fusedChain j names => rw [(hsoundAt ev hev).fusedPure t j names spec hb hspec] at hretry; cases hretry
    | reduction j r => rw [(hsoundAt ev hev).reducerPure t j r spec hb hspec] at hretry; cases hretry

/-! ## A lost Exclusive task -/

namespace Sample

/-- An Exclusive task is begun, loses its lease, and is offered again. -/
def lostRun : List (Op ℚ) :=
  [.registerResource (resource 1), .submit { task 7 with effects := .exclusive }, .beginExecution ⟨7⟩ ⟨1⟩,
    .reapExpiredExecutionsAt 50]

def lostRunLater : List (Op ℚ) := [.beginExecution ⟨7⟩ ⟨1⟩, .refreshReadyRoles]

theorem freshTasks_lostRun : FreshTasks (Env.numbered clock) (lostRun ++ lostRunLater) :=
  freshTasks_numbered fun task h => by
    simp only [lostRun, lostRunLater, List.cons_append, List.nil_append, List.mem_cons, List.not_mem_nil, reduceCtorEq,
      false_or, or_false, Op.submit.injEq] at h
    rw [h]
    rfl

end Sample

theorem terminal_stable_lost :
    (final (Env.numbered Sample.clock) (Fabric.new 100 10) (Sample.lostRun ++ Sample.lostRunLater)).taskStatus ⟨7⟩ =
      some .uncertain :=
  (terminal_stable (Env.numbered Sample.clock) 100 10 Sample.lostRun Sample.lostRunLater
    Sample.freshTasks_lostRun).2.1 ⟨7⟩ (by decide +kernel)

theorem exclusive_once_lost :
    (begins ⟨7⟩ (trace (Env.numbered Sample.clock) (Fabric.new 100 10)
      (Sample.lostRun ++ Sample.lostRunLater))).length ≤ 1 :=
  (exclusive_once (Env.numbered Sample.clock) 100 10 _ Sample.freshTasks_lostRun).1
    (Event.of (((Env.numbered Sample.clock).sub 1).sub 0)
      (Event.of ((Env.numbered Sample.clock).sub 0) (Fabric.new 100 10) (.registerResource (Sample.resource 1))).after
      (.submit { Sample.task 7 with effects := .exclusive }))
    (List.mem_cons_of_mem _ (List.mem_cons_self ..)) ⟨7⟩ { Sample.task 7 with effects := .exclusive } rfl rfl

end Plurifold
