import Plurifold.Fabric.Lifecycle

/-!
# Execution leases over whole runs

A task is tried again and again; renewals and completions of all its attempts arrive late, twice or not at all. The
invariant `LeaseHistory` ties the stored lease to the calls made so far:

* a running task runs the attempt of its last successful `begin_execution`;
* it was completed at most once, and a task that is `Completed` or `Uncertain` stays so;
* an Exclusive task was begun at most once.

It holds for any clock and any identifiers. What needs fresh execution identifiers is the fence between two
incarnations of a resource (`Fenced`), and that fence has a hole: a registration after an expiry restarts the epoch.
-/

namespace Plurifold

open Lib Attempt Fabric

variable {F : Type}

/-! ## History -/

/-- Two leases name the same attempt. -/
structure SameAttempt (a b : ExecutionLease) : Prop where
  executionId : a.executionId = b.executionId
  resourceId : a.resourceId = b.resourceId
  resourceEpoch : a.resourceEpoch = b.resourceEpoch

/-- The leases granted for a task, in order. -/
def begins (t : TaskId) (history : List (Event F)) : List ExecutionLease := history.filterMap (·.begun t)

/-- The lease of the most recent successful `begin_execution` of a task. -/
def lastBegin (t : TaskId) (history : List (Event F)) : Option ExecutionLease := (begins t history).getLast?

/-- The call moves the task from `Running` to `Completed`. -/
def Event.completes (ev : Event F) (t : TaskId) : Bool :=
  match ev.before.taskStatus t, ev.after.taskStatus t with
  | some (.running _), some (.completed _) => true
  | _, _ => false

/-- No call leaves this status. -/
def TaskStatus.settled : TaskStatus → Bool
  | .completed _ | .uncertain => true
  | _ => false

theorem begins_append (t : TaskId) (history : List (Event F)) (ev : Event F) :
    begins t (history ++ [ev]) = begins t history ++ (ev.begun t).toList := by
  unfold begins
  rw [List.filterMap_append]
  cases h : ev.begun t <;> simp [h]

theorem lastBegin_of_begun {t : TaskId} {history : List (Event F)} {ev : Event F} {lease : ExecutionLease}
    (h : ev.begun t = some lease) : lastBegin t (history ++ [ev]) = some lease := by
  rw [lastBegin, begins_append, h]
  simp

theorem lastBegin_of_not_begun {t : TaskId} {history : List (Event F)} {ev : Event F} (h : ev.begun t = none) :
    lastBegin t (history ++ [ev]) = lastBegin t history := by
  rw [lastBegin, begins_append, h]
  simp [lastBegin]

/-- A `begin_execution` that succeeds finds the task pending and leaves it running the granted attempt. -/
theorem begun_cases [F64 F] {e : Env} {s : Fabric F} {op : Op F} {t : TaskId} {lease : ExecutionLease}
    (h : (Event.of e s op).begun t = some lease) :
    ∃ r spec, op = .beginExecution t r ∧ s.tasks.lookup t = some ⟨spec, .pending⟩ ∧
      (Event.of e s op).after = s.setStatus t (.running lease) ∧ lease.executionId = ExecutionId.new e ∧
      lease.resourceId = r ∧ lease.taskId = t := by
  cases op with
  | beginExecution t' r =>
    have hx := exec_beginExecution e s t' r
    rcases beginExecution_cases e t' r s with ⟨err, hb⟩ | ⟨granted, record, resource, hb, ht, hp, -, hl⟩
    · simp [Event.begun, Event.of, hx, hb, Except.map] at h
    · simp only [Event.begun, Event.of, hx, hb, Except.map] at h
      split at h
      · rename_i htt
        subst htt
        cases h
        obtain ⟨spec, status⟩ := record
        cases hp
        refine ⟨r, spec, rfl, ht, ?_, ?_, ?_, ?_⟩
        · simp only [Event.of, hx, hb]
        all_goals rw [hl]
      · cases h
  | _ => simp [Event.begun, Event.of] at h

/-- A running task that stays running was not begun. -/
theorem begun_of_running [F64 F] {e : Env} {s : Fabric F} {op : Op F} {t : TaskId} {spec : TaskSpec F} {status : TaskStatus}
    (h : s.tasks.lookup t = some ⟨spec, status⟩) (hp : status ≠ .pending) : (Event.of e s op).begun t = none := by
  cases hb : (Event.of e s op).begun t with
  | none => rfl
  | some lease =>
    obtain ⟨-, spec', -, ht, -⟩ := begun_cases hb
    rw [h] at ht
    cases ht
    exact absurd rfl hp

/-! ## What one call keeps -/

/-- A settled task keeps its record. -/
theorem Moves.settled {ev : Event F} {t : TaskId} {record : TaskRecord F} {r' : Option (TaskRecord F)}
    (h : Moves ev t (some record) r') (hs : record.status.settled = true) : r' = some record := by
  cases h with
  | stays => rfl
  | begins => cases hs
  | renews => cases hs
  | commits => cases hs
  | retried => cases hs
  | lost => cases hs

/-- A task keeps its specification. -/
theorem Moves.spec {ev : Event F} {t : TaskId} {record : TaskRecord F} {r' : Option (TaskRecord F)}
    (h : Moves ev t (some record) r') : ∃ status, r' = some ⟨record.spec, status⟩ := by
  cases h <;> exact ⟨_, rfl⟩

theorem taskStatus_eq {s : Fabric F} {t : TaskId} {status : TaskStatus} (h : s.taskStatus t = some status) :
    ∃ spec, s.tasks.lookup t = some ⟨spec, status⟩ := by
  unfold taskStatus at h
  obtain ⟨⟨spec, status'⟩, hl, rfl⟩ := Option.map_eq_some_iff.mp h
  exact ⟨spec, hl⟩

theorem taskStatus_of_lookup {s : Fabric F} {t : TaskId} {record : TaskRecord F} (h : s.tasks.lookup t = some record) :
    s.taskStatus t = some record.status := by rw [taskStatus, h]; rfl

variable [F64 F]

theorem taskStatus_settled (e : Env) (s : Fabric F) (op : Op F) {t : TaskId} {status : TaskStatus}
    (hs : status.settled = true) (h : s.taskStatus t = some status) :
    (Event.of e s op).after.taskStatus t = some status := by
  obtain ⟨spec, hl⟩ := taskStatus_eq h
  have hm := event_moves e s op t
  rw [hl] at hm
  rw [taskStatus_of_lookup (hm.settled hs)]

/-- The stored attempts, completions and exclusive starts agree with the calls made so far. -/
structure LeaseHistory (history : List (Event F)) (s : Fabric F) : Prop where
  /-- A running task runs the attempt of its last begin. -/
  attempt : ∀ t current, s.taskStatus t = some (.running current) →
    ∃ granted, lastBegin t history = some granted ∧ SameAttempt current granted
  /-- A task was completed at most once; after that it is `Completed`. -/
  once : ∀ t, history.countP (·.completes t) = 0 ∨
    (history.countP (·.completes t) = 1 ∧ ∃ outputs, s.taskStatus t = some (.completed outputs))
  /-- Settled tasks stayed as they were. -/
  settled : ∀ ev ∈ history, ∀ t status, status.settled = true → ev.after.taskStatus t = some status →
    s.taskStatus t = some status
  /-- An absent task was never begun. -/
  absent : ∀ t, s.tasks.lookup t = none → begins t history = []
  /-- An Exclusive task was begun at most once, and not at all while it is pending. -/
  exclusive : ∀ t record, s.tasks.lookup t = some record → record.spec.effects.automaticallyRetryable = false →
    (begins t history).length ≤ 1 ∧ (record.status = .pending → begins t history = [])

theorem leaseHistory_nil (m x : UInt64) : LeaseHistory ([] : List (Event F)) (Fabric.new m x) := by
  refine ⟨?_, fun _ => .inl rfl, ?_, fun _ _ => rfl, ?_⟩
  · intro t current h
    simp [taskStatus, Fabric.new] at h
  · intro ev hev
    cases hev
  · intro t record h
    simp [Fabric.new] at h

section Step

variable {history : List (Event F)} {s : Fabric F} (h : LeaseHistory history s) (e : Env) (op : Op F)

include h

theorem LeaseHistory.attempt_step (t : TaskId) (current : ExecutionLease)
    (hc : (Event.of e s op).after.taskStatus t = some (.running current)) :
    ∃ granted, lastBegin t (history ++ [Event.of e s op]) = some granted ∧ SameAttempt current granted := by
  obtain ⟨spec, hl⟩ := taskStatus_eq hc
  have hm := event_moves e s op t
  rw [hl] at hm
  generalize hb : s.tasks.lookup t = r at hm
  cases hm with
  | stays =>
    rw [lastBegin_of_not_begun (begun_of_running hb (by simp))]
    exact h.attempt t current (taskStatus_of_lookup hb)
  | begins spec lease hbegun => exact ⟨current, lastBegin_of_begun hbegun, ⟨rfl, rfl, rfl⟩⟩
  | renews spec lease stored deadline =>
    rw [lastBegin_of_not_begun (begun_of_running hb (by simp))]
    obtain ⟨granted, hlast, hsame⟩ := h.attempt t stored (taskStatus_of_lookup hb)
    exact ⟨granted, hlast, hsame.1, hsame.2, hsame.3⟩

theorem LeaseHistory.once_step (t : TaskId) :
    (history ++ [Event.of e s op]).countP (·.completes t) = 0 ∨
    ((history ++ [Event.of e s op]).countP (·.completes t) = 1 ∧
      ∃ outputs, (Event.of e s op).after.taskStatus t = some (.completed outputs)) := by
  rw [List.countP_append, List.countP_singleton]
  rcases h.once t with h0 | ⟨h1, outputs, hout⟩
  · rw [h0]
    cases hc : (Event.of e s op).completes t with
    | false => exact .inl rfl
    | true =>
      refine .inr ⟨rfl, ?_⟩
      unfold Event.completes at hc
      split at hc
      · exact ⟨_, by assumption⟩
      · cases hc
  · -- a completed task does not move, so this call does not complete it
    have hnot : (Event.of e s op).completes t = false := by
      have hb : (Event.of e s op).before.taskStatus t = some (.completed outputs) := hout
      simp only [Event.completes, hb]
    rw [h1, hnot]
    exact .inr ⟨rfl, outputs, taskStatus_settled e s op rfl hout⟩

theorem LeaseHistory.settled_step (ev : Event F) (hev : ev ∈ history ++ [Event.of e s op]) (t : TaskId)
    (status : TaskStatus) (hs : status.settled = true) (ha : ev.after.taskStatus t = some status) :
    (Event.of e s op).after.taskStatus t = some status := by
  rcases List.mem_append.mp hev with hev | hev
  · exact taskStatus_settled e s op hs (h.settled ev hev t status hs ha)
  · rw [List.mem_singleton] at hev
    rwa [hev] at ha

theorem LeaseHistory.absent_step (t : TaskId) (hn : (Event.of e s op).after.tasks.lookup t = none) :
    begins t (history ++ [Event.of e s op]) = [] := by
  have hm := event_moves e s op t
  rw [hn] at hm
  generalize hb : s.tasks.lookup t = r at hm
  cases hm with
  | stays =>
    rw [begins_append, h.absent t hb, List.nil_append]
    cases hbegun : (Event.of e s op).begun t with
    | none => rfl
    | some lease =>
      obtain ⟨-, spec, -, ht, -⟩ := begun_cases hbegun
      rw [hb] at ht
      cases ht

theorem LeaseHistory.exclusive_step (t : TaskId) (record : TaskRecord F)
    (hl : (Event.of e s op).after.tasks.lookup t = some record)
    (hx : record.spec.effects.automaticallyRetryable = false) :
    (begins t (history ++ [Event.of e s op])).length ≤ 1 ∧
      (record.status = .pending → begins t (history ++ [Event.of e s op]) = []) := by
  have hm := event_moves e s op t
  rw [hl] at hm
  generalize hb : s.tasks.lookup t = r at hm
  rw [begins_append]
  cases hbegun : (Event.of e s op).begun t with
  | none =>
    -- the task was not begun: count as before
    rw [Option.toList_none, List.append_nil]
    cases hm with
    | stays => exact h.exclusive t record hb hx
    | submitted => simp [h.absent t hb]
    | begins spec lease hbegins => rw [hbegun] at hbegins; cases hbegins
    | renews => exact ⟨(h.exclusive t _ hb hx).1, nofun⟩
    | commits => exact ⟨(h.exclusive t _ hb hx).1, nofun⟩
    | retried spec current hretry => rw [hx] at hretry; cases hretry
    | lost => exact ⟨(h.exclusive t _ hb hx).1, nofun⟩
  | some lease =>
    obtain ⟨r, spec, -, ht, hafter, -⟩ := begun_cases hbegun
    have hrec : record = ⟨spec, .running lease⟩ := by
      rw [hafter, setStatus_lookup, if_pos rfl, ht] at hl
      exact (Option.some.inj hl).symm
    subst hrec
    rw [(h.exclusive t _ ht hx).2 rfl]
    exact ⟨by simp, nofun⟩

theorem LeaseHistory.step : LeaseHistory (history ++ [Event.of e s op]) (Event.of e s op).after where
  attempt := h.attempt_step e op
  once := h.once_step e op
  settled := h.settled_step e op
  absent := h.absent_step e op
  exclusive := h.exclusive_step e op

end Step

/-- Around every call of a run, the stored leases agree with the calls made so far. -/
theorem trace_leaseHistory {e : Env} {m x : UInt64} {ops : List (Op F)} {pre post : List (Event F)} {ev : Event F}
    (h : trace e (Fabric.new m x) ops = pre ++ ev :: post) :
    ∃ e', ev = Event.of e' ev.before ev.op ∧ LeaseHistory pre ev.before ∧ LeaseHistory (pre ++ [ev]) ev.after := by
  have hstep : ∀ (e : Env) (history : List (Event F)) s op, LeaseHistory history s → True →
      LeaseHistory (history ++ [Event.of (e.sub 0) s op]) (Event.of (e.sub 0) s op).after :=
    fun e _ _ op hI _ => hI.step (e.sub 0) op
  obtain ⟨e', hev, hb, ha⟩ := trace_rule (I := fun _ => LeaseHistory) (C := fun _ => True) hstep ops e []
    (Fabric.new m x) pre (leaseHistory_nil m x) (fun _ _ => trivial) h
  exact ⟨e'.sub 0, hev, hb, ha⟩

theorem final_leaseHistory (e : Env) (m x : UInt64) (ops : List (Op F)) :
    LeaseHistory (trace e (Fabric.new m x) ops) (final e (Fabric.new m x) ops) := by
  have hstep : ∀ (e : Env) (history : List (Event F)) s op, LeaseHistory history s → True →
      LeaseHistory (history ++ [Event.of (e.sub 0) s op]) (Event.of (e.sub 0) s op).after :=
    fun e _ _ op hI _ => hI.step (e.sub 0) op
  obtain ⟨-, hI⟩ := final_rule (I := fun _ => LeaseHistory) (C := fun _ => True) hstep ops e []
    (Fabric.new m x) (leaseHistory_nil m x) fun _ _ => trivial
  exact hI

/-! ## Commit safety -/

/-- The lease that a renewal or a completion presents. -/
def Op.presented : Op F → Option ExecutionLease
  | .renewExecution lease => some lease
  | .completeExecution lease _ => some lease
  | _ => none

/-- What a renewal or completion has to meet: the lease names the attempt of the last begin, that attempt is the one
stored as running, its stored deadline is ahead, and its resource is registered, unexpired and in the same epoch. -/
structure Current (history : List (Event F)) (ev : Event F) (lease : ExecutionLease) : Prop where
  attempt : ∃ granted, lastBegin lease.taskId history = some granted ∧ SameAttempt lease granted
  stored : ∃ current, ev.before.taskStatus lease.taskId = some (.running current) ∧ SameAttempt lease current ∧
    ev.env.clock < current.expiresAtUnixMs
  member : ∃ resource, ev.before.resources.lookup lease.resourceId = some resource ∧
    ev.env.clock < resource.expiresAtUnixMs ∧ resource.descriptor.epoch = lease.resourceEpoch

omit [F64 F] in
theorem activeResource_eq {s : Fabric F} {now : UInt64} {r : ResourceId} {resource : RegisteredResource F}
    (h : s.activeResource now r = some resource) :
    s.resources.lookup r = some resource ∧ now < resource.expiresAtUnixMs := by
  obtain ⟨hl, hn⟩ := Option.filter_eq_some_iff.mp h
  exact ⟨hl, of_decide_eq_true hn⟩

omit [F64 F] in
/-- A lease that passes the checks is current. -/
theorem LeaseHistory.current {history : List (Event F)} {ev : Event F} (h : LeaseHistory history ev.before)
    {lease current : ExecutionLease} (hc : ev.before.currentLease ev.env.clock lease = .ok current) :
    Current history ev lease := by
  obtain ⟨resource, record, hr, hep, ht, hst, hx, hexp, hown, hown'⟩ := currentLease_ok hc
  have hrun : ev.before.taskStatus lease.taskId = some (.running current) := by
    rw [taskStatus_of_lookup ht, hst]
  have hsame : SameAttempt lease current := ⟨hx.symm, hown.symm, hown'.symm⟩
  obtain ⟨hreg, hactive⟩ := activeResource_eq hr
  obtain ⟨granted, hlast, hg⟩ := h.attempt _ _ hrun
  exact ⟨⟨granted, hlast, hsame.1.trans hg.1, hsame.2.trans hg.2, hsame.3.trans hg.3⟩,
    ⟨current, hrun, hsame, hexp⟩, ⟨resource, hreg, hactive, hep⟩⟩

/-- A renewal or completion whose lease does not pass the checks is refused without effect. -/
theorem presented_cases (e : Env) (s : Fabric F) {op : Op F} {lease : ExecutionLease}
    (h : op.presented = some lease) :
    ((∃ err, (Event.of e s op).reply = .error err) ∧ (Event.of e s op).after = s) ∨
      ∃ current, s.currentLease e.clock lease = .ok current := by
  cases op with
  | renewExecution lease' =>
    cases h
    have hx := exec_renewExecution e s lease
    rcases renewExecution_cases e lease s with ⟨err, hr, -⟩ | ⟨current, hc, -⟩
    · refine .inl ⟨⟨err, ?_⟩, ?_⟩ <;> simp only [Event.of, hx, hr, Except.map]
    · exact .inr ⟨current, hc⟩
  | completeExecution lease' outputs =>
    cases h
    have hx := exec_completeExecution e s lease outputs
    rcases completeExecution_cases e lease outputs s with ⟨err, hr⟩ | ⟨current, hc, -⟩
    · refine .inl ⟨⟨err, ?_⟩, ?_⟩ <;> simp only [Event.of, hx, hr, Except.map]
    · exact .inr ⟨current, hc⟩
  | _ => cases h

/-- **Commit safety under any order of messages.** In every run, with any leases presented: every task is completed at
most once and keeps its outputs; a renewal or completion that changes anything presents a current lease, and one that
does not is refused without effect. -/
theorem commit_safety (e : Env) (m x : UInt64) (ops : List (Op F)) :
    (∀ t, (trace e (Fabric.new m x) ops).countP (·.completes t) ≤ 1) ∧
    (∀ pre ev mid ev' post, trace e (Fabric.new m x) ops = pre ++ ev :: (mid ++ ev' :: post) → ∀ t outputs,
      ev.after.taskStatus t = some (.completed outputs) → ev'.after.taskStatus t = some (.completed outputs)) ∧
    ∀ pre ev post lease, trace e (Fabric.new m x) ops = pre ++ ev :: post → ev.op.presented = some lease →
      (ev.after ≠ ev.before → Current pre ev lease) ∧
      (¬Current pre ev lease → (∃ err, ev.reply = .error err) ∧ ev.after = ev.before) := by
  refine ⟨fun t => ?_, ?_, ?_⟩
  · rcases (final_leaseHistory e m x ops).once t with h | ⟨h, -⟩ <;> omega
  · intro pre ev mid ev' post htrace t outputs hout
    rw [← List.cons_append, ← List.append_assoc] at htrace
    obtain ⟨-, -, -, hafter⟩ := trace_leaseHistory htrace
    exact hafter.settled ev (by simp) t _ rfl hout
  · intro pre ev post lease htrace hop
    obtain ⟨e', hev, hhist, -⟩ := trace_leaseHistory htrace
    have hcases := presented_cases e' ev.before hop
    rw [← hev] at hcases
    have henv : ev.env = e' := by rw [hev]; rfl
    rcases hcases with ⟨hreply, hsame⟩ | ⟨current, hc⟩
    · exact ⟨fun hne => absurd hsame hne, fun _ => ⟨hreply, hsame⟩⟩
    · have hcur : Current pre ev lease := hhist.current (henv ▸ hc)
      exact ⟨fun _ => hcur, fun hn => absurd hcur hn⟩

end Plurifold
