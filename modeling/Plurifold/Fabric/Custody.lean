import Plurifold.Fabric.Lease

/-!
# Who holds a task

A lease leaves the fabric when an execution begins and when it is renewed, and nothing calls it back. The fabric only
waits: while a lease that it has handed out may still be taken for current, the task runs the attempt which the lease
names, with a deadline that is not earlier, or it is settled (`Backed`). So when the lease of another attempt leaves the
fabric, all earlier ones have run out (`trace_custody`). This rests on the clock alone: it must not go back, and no task
may be reaped at a time that is still to come.
-/

namespace Plurifold

open Lib Attempt Fabric

variable {F : Type}

/-! ## What becomes of a running task -/

/-- The status of a task that was running under `current`, after a call at the time `now`. -/
inductive AfterRunning (op : Op F) (now ttl : UInt64) (current : ExecutionLease) : TaskStatus → Prop
  | keeps : AfterRunning op now ttl current (.running current)
  | renewed : AfterRunning op now ttl current (.running { current with expiresAtUnixMs := saturatingAdd now ttl })
  | settled {status : TaskStatus} : status.settled = true → AfterRunning op now ttl current status
  | reaped {unixMs : UInt64} : op = .reapExpiredExecutionsAt unixMs → current.expiresAtUnixMs ≤ unixMs →
      AfterRunning op now ttl current .pending

theorem setStatus_status {s : Fabric F} {t : TaskId} {record : TaskRecord F} (h : s.tasks.lookup t = some record)
    (status : TaskStatus) : (s.setStatus t status).taskStatus t = some status := by
  rw [taskStatus, setStatus_lookup, if_pos rfl, h]
  rfl

theorem reapRecord_running {unixMs : UInt64} (spec : TaskSpec F) {current : ExecutionLease} (now ttl : UInt64) :
    AfterRunning (.reapExpiredExecutionsAt unixMs : Op F) now ttl current
      (reapRecord unixMs ⟨spec, .running current⟩).status := by
  unfold reapRecord
  split
  · rename_i hexpired
    split
    · exact .reaped rfl (by simpa [leaseExpired] using hexpired)
    · exact .settled rfl
  · exact .keeps

variable [F64 F]

theorem event_running (e : Env) (s : Fabric F) (op : Op F) {t : TaskId} {current : ExecutionLease}
    (h : s.taskStatus t = some (.running current)) :
    ∃ status, (Event.of e s op).after.taskStatus t = some status ∧
      AfterRunning op e.clock s.executionTtlMs current status := by
  obtain ⟨spec, hl⟩ := taskStatus_eq h
  have same : (Event.of e s op).after.tasks.lookup t = s.tasks.lookup t →
      ∃ status, (Event.of e s op).after.taskStatus t = some status ∧
        AfterRunning op e.clock s.executionTtlMs current status := by
    intro hsame
    exact ⟨.running current, taskStatus_of_lookup (hsame.trans hl), .keeps⟩
  have grows : Grows s (Event.of e s op).after → ∃ status, (Event.of e s op).after.taskStatus t = some status ∧
      AfterRunning op e.clock s.executionTtlMs current status := by
    intro hg
    refine (hg.tasks t).elim same fun hnew => ?_
    rw [hl] at hnew
    cases hnew.1
  have calls : ∀ {α : Type} {m : FabricM F α} {g : α → Reply}, m.Along Grows → exec e op = (m >>= fun a => pure (g a)) →
      ∃ status, (Event.of e s op).after.taskStatus t = some status ∧
        AfterRunning op e.clock s.executionTtlMs current status := by
    intro α m g hm hx
    refine grows ?_
    simp only [Event.of, hx, bind_pure_apply]
    exact hm s
  cases op with
  | setTopology | upsertLink | removeLink | registerResource | unregisterResource => exact same rfl
  | heartbeat resource epoch =>
    refine same (congrArg (AList.lookup t) ?_)
    simp only [Event.of, exec_heartbeat]
    exact heartbeat_along (R := fun s s' : Fabric F => s'.tasks = s.tasks) (fun _ _ => rfl) e resource epoch s
  | expireResourcesAt unixMs => exact same (congrArg (AList.lookup t) (expireResourcesAt_tasks e unixMs s))
  | publishObject object => exact calls (g := fun _ => .unit) (publishObject_grows object) rfl
  | addObjectLocation object resource =>
    exact calls (g := fun _ => .unit) (addObjectLocation_along (fun _ _ => ⟨fun _ => .inl rfl, rfl⟩) object resource) rfl
  | submit task => exact calls (keptByRoles_grows.submit task) rfl
  | submitCooperative job => exact calls (submitCooperative_grows e job) rfl
  | submitLogical job => exact calls (submitLogical_grows e job) rfl
  | refreshReadyRoles => exact calls (g := fun _ => .unit) (refreshReadyRoles_along keptByRoles_grows e) rfl
  | beginExecution t' r =>
    rcases beginExecution_cases e t' r s with ⟨err, hrun⟩ | ⟨lease, record, resource, hrun, ht, hpending, -⟩
    · exact same (by simp only [Event.of, exec_beginExecution, hrun])
    · -- a task that is begun was pending
      have hne : t ≠ t' := by
        rintro rfl
        rw [hl] at ht
        cases ht
        cases hpending
      refine same ?_
      simp only [Event.of, exec_beginExecution, hrun, setStatus_lookup, if_neg hne]
  | renewExecution lease =>
    rcases renewExecution_cases e lease s with ⟨err, hrun, -⟩ | ⟨stored, hstored, hrun⟩
    · exact same (by simp only [Event.of, exec_renewExecution, hrun])
    · by_cases ht : t = lease.taskId
      · subst ht
        obtain ⟨resource, record, -, -, hrecord, hstatus, -⟩ := currentLease_ok hstored
        rw [hl] at hrecord
        cases hrecord
        cases hstatus
        refine ⟨_, ?_, .renewed⟩
        simp only [Event.of, exec_renewExecution, hrun]
        exact setStatus_status hl _
      · exact same (by simp only [Event.of, exec_renewExecution, hrun, setStatus_lookup, if_neg ht])
  | completeExecution lease outputs =>
    rcases completeExecution_cases e lease outputs s with ⟨err, hrun⟩ | ⟨stored, hstored, -, -, hrun⟩
    · exact same (by simp only [Event.of, exec_completeExecution, hrun])
    · have hcommits := commitOutputs_grows e lease.taskId outputs
        (s.setStatus lease.taskId (.completed (outputs.map (·.id))))
      have hafter : (Event.of e s (.completeExecution lease outputs)).after =
          (commitOutputs e lease.taskId outputs (s.setStatus lease.taskId (.completed (outputs.map (·.id))))).2 := by
        simp only [Event.of, exec_completeExecution, hrun]
      by_cases ht : t = lease.taskId
      · have hset : (s.setStatus lease.taskId (.completed (outputs.map (·.id)))).tasks.lookup t =
            some ⟨spec, .completed (outputs.map (·.id))⟩ := by rw [setStatus_lookup, if_pos ht, hl]; rfl
        rcases hcommits.tasks t with hsame | ⟨hnone, -⟩
        · exact ⟨_, taskStatus_of_lookup (hafter ▸ hsame.trans hset), .settled rfl⟩
        · rw [hset] at hnone
          cases hnone
      · have hset : (s.setStatus lease.taskId (.completed (outputs.map (·.id)))).tasks.lookup t = s.tasks.lookup t := by
          rw [setStatus_lookup, if_neg ht]
        rcases hcommits.tasks t with hsame | ⟨hnone, -⟩
        · exact same (hafter ▸ hsame.trans hset)
        · rw [hset, hl] at hnone
          cases hnone
  | reapExpiredExecutionsAt unixMs =>
    refine ⟨_, taskStatus_of_lookup ?_, reapRecord_running spec e.clock s.executionTtlMs⟩
    exact (reapExpiredExecutionsAt_lookup e unixMs s t).trans (by rw [hl]; rfl)

/-- Deadlines are counted from one time to live. -/
theorem event_executionTtl (e : Env) (s : Fabric F) (op : Op F) :
    (Event.of e s op).after.executionTtlMs = s.executionTtlMs := by
  have : IsPreorder (Fabric F) fun s s' => s'.executionTtlMs = s.executionTtlMs :=
    { refl := fun _ => rfl, trans := fun _ _ _ hab hbc => hbc.trans hab }
  have hroles : KeptByRoles fun s s' : Fabric F => s'.executionTtlMs = s.executionTtlMs :=
    { submit := fun task => submit_along task fun _ _ => rfl, bind := fun _ _ _ => rfl, job := fun _ _ _ _ => rfl }
  have calls : ∀ {α : Type} {m : FabricM F α} {g : α → Reply}, m.Along (fun s s' => s'.executionTtlMs = s.executionTtlMs) →
      exec e op = (m >>= fun a => pure (g a)) → (Event.of e s op).after.executionTtlMs = s.executionTtlMs := by
    intro α m g hm hx
    simp only [Event.of, hx, bind_pure_apply]
    exact hm s
  have hpublish := fun object => publishObject_along (R := fun s s' : Fabric F => s'.executionTtlMs = s.executionTtlMs)
    (fun _ _ => rfl) object
  cases op with
  | setTopology | upsertLink | removeLink | registerResource | unregisterResource => rfl
  | heartbeat r epoch => exact calls (heartbeat_along (fun _ _ => rfl) e r epoch) rfl
  | expireResourcesAt unixMs => exact foldl_keeps Fabric.executionTtlMs (fun s id => s.removeResource id) (fun _ _ => rfl) _ s
  | publishObject object => exact calls (g := fun _ => .unit) (hpublish object) rfl
  | addObjectLocation o r => exact calls (g := fun _ => .unit) (addObjectLocation_along (fun _ _ => rfl) o r) rfl
  | submit task => exact calls (hroles.submit task) rfl
  | submitCooperative job => exact calls (submitCooperative_along (fun _ _ => rfl) hroles e job) rfl
  | submitLogical job => exact calls (submitLogical_along (fun _ _ => rfl) hroles e job) rfl
  | beginExecution t r => exact calls (beginExecution_along (fun _ _ _ => rfl) e t r) rfl
  | renewExecution lease => exact calls (renewExecution_along (fun _ _ _ => rfl) e lease) rfl
  | completeExecution lease outputs =>
    exact calls (g := fun _ => .unit) (completeExecution_along (fun _ _ _ => rfl) hpublish hroles e lease outputs) rfl
  | reapExpiredExecutionsAt unixMs =>
    have hmark := markCooperativeRoleUncertain_keeps (F := F) Fabric.executionTtlMs fun _ _ _ => rfl
    exact foldl_keeps Fabric.executionTtlMs _ (fun s t => hmark t s) _ _
  | refreshReadyRoles => exact calls (g := fun _ => .unit) (refreshReadyRoles_along hroles e) rfl

/-! ## Leases handed out -/

/-- The lease that a call hands out. -/
def Event.issued (ev : Event F) : Option ExecutionLease :=
  match ev.reply with
  | .ok (.lease lease) => some lease
  | _ => none

/-- A lease that is handed out is stored, with a deadline counted from now; the task was pending, or it ran the same
attempt. -/
structure Issues (s s' : Fabric F) (now : UInt64) (lease : ExecutionLease) : Prop where
  stored : s'.taskStatus lease.taskId = some (.running lease)
  deadline : lease.expiresAtUnixMs = saturatingAdd now s.executionTtlMs
  before : s.taskStatus lease.taskId = some .pending ∨
    ∃ current, s.taskStatus lease.taskId = some (.running current) ∧ current.executionId = lease.executionId

theorem event_issues {e : Env} {s : Fabric F} {op : Op F} {lease : ExecutionLease}
    (hnames : ∀ t current, s.taskStatus t = some (.running current) → current.taskId = t)
    (h : (Event.of e s op).issued = some lease) : Issues s (Event.of e s op).after e.clock lease := by
  have silent : ∀ {α : Type} {m : FabricM F α} {g : α → Reply}, exec e op = (m >>= fun a => pure (g a)) →
      (∀ a lease, g a ≠ .lease lease) → Issues s (Event.of e s op).after e.clock lease := by
    intro α m g hx hg
    simp only [Event.issued, Event.of, hx, bind_pure_apply] at h
    cases hr : (m s).1 with
    | error err =>
      rw [hr] at h
      cases h
    | ok a =>
      rw [hr] at h
      simp only [Except.map] at h
      split at h
      · rename_i heq
        exact absurd (Except.ok.inj heq) (hg a _)
      · cases h
  cases op with
  | setTopology | upsertLink | removeLink | registerResource | unregisterResource | expireResourcesAt |
    reapExpiredExecutionsAt => cases h
  | heartbeat r epoch => exact silent (m := Fabric.heartbeat e r epoch) (g := .membership) rfl fun _ _ h => (by cases h)
  | publishObject object => exact silent (m := Fabric.publishObject object) (g := fun _ => .unit) rfl fun _ _ h => (by cases h)
  | addObjectLocation o r => exact silent (m := Fabric.addObjectLocation o r) (g := fun _ => .unit) rfl fun _ _ h => (by cases h)
  | submit task => exact silent (m := Fabric.submit task) (g := .task) rfl fun _ _ h => (by cases h)
  | submitCooperative job => exact silent (m := Fabric.submitCooperative e job) (g := .job) rfl fun _ _ h => (by cases h)
  | submitLogical job => exact silent (m := Fabric.submitLogical e job) (g := .job) rfl fun _ _ h => (by cases h)
  | completeExecution lease outputs =>
    exact silent (m := Fabric.completeExecution e lease outputs) (g := fun _ => .unit) rfl fun _ _ h => (by cases h)
  | refreshReadyRoles => exact silent (m := Fabric.refreshReadyRoles e) (g := fun _ => .unit) rfl fun _ _ h => (by cases h)
  | beginExecution t r =>
    rcases beginExecution_cases e t r s with ⟨err, hrun⟩ | ⟨granted, ⟨spec, status⟩, resource, hrun, ht, hpending, -, hl⟩
    · simp only [Event.issued, Event.of, exec_beginExecution, hrun, Except.map] at h
      cases h
    · simp only [Event.issued, Event.of, exec_beginExecution, hrun, Except.map, Option.some.injEq] at h
      subst h
      cases hpending
      have htask : granted.taskId = t := by rw [hl]
      refine ⟨?_, by rw [hl], .inl (htask ▸ taskStatus_of_lookup ht)⟩
      simp only [Event.of, exec_beginExecution, hrun, htask]
      exact setStatus_status ht _
  | renewExecution presented =>
    rcases renewExecution_cases e presented s with ⟨err, hrun, -⟩ | ⟨current, hcurrent, hrun⟩
    · simp only [Event.issued, Event.of, exec_renewExecution, hrun, Except.map] at h
      cases h
    · simp only [Event.issued, Event.of, exec_renewExecution, hrun, Except.map, Option.some.injEq] at h
      obtain ⟨resource, ⟨spec, status⟩, -, -, ht, hrunning, -⟩ := currentLease_ok hcurrent
      cases hrunning
      have hstatus := taskStatus_of_lookup ht
      have htask : current.taskId = presented.taskId := hnames _ _ hstatus
      subst h
      refine ⟨?_, rfl, .inr ⟨current, by rw [htask]; exact hstatus, rfl⟩⟩
      simp only [Event.of, exec_renewExecution, hrun, htask]
      exact setStatus_status ht _

/-! ## The invariant -/

/-- The task is settled, or it runs the attempt of the lease and not for a shorter time. -/
inductive Backed (s : Fabric F) (lease : ExecutionLease) : Prop
  | running {current : ExecutionLease} : s.taskStatus lease.taskId = some (.running current) →
      current.executionId = lease.executionId → lease.expiresAtUnixMs ≤ current.expiresAtUnixMs → Backed s lease
  | settled {status : TaskStatus} : s.taskStatus lease.taskId = some status → status.settled = true → Backed s lease

/-- Every lease that was handed out is backed, or has run out in the world that is still to come. -/
structure Custody (e : Env) (history : List (Event F)) (s : Fabric F) : Prop where
  steady : e.Steady
  names : ∀ t current, s.taskStatus t = some (.running current) → current.taskId = t
  deadline : ∀ t current, s.taskStatus t = some (.running current) →
    ∀ p, current.expiresAtUnixMs ≤ saturatingAdd (e.now p) s.executionTtlMs
  handed : ∀ ev ∈ history, ∀ lease, ev.issued = some lease → Backed s lease ∨ ∀ p, lease.expiresAtUnixMs ≤ e.now p

/-- A reaping looks at no later time than that of the call. -/
def Event.Timely (ev : Event F) : Prop := ∀ unixMs, ev.op = .reapExpiredExecutionsAt unixMs → unixMs ≤ ev.env.clock

theorem custody_new {e : Env} (he : e.Steady) (m x : UInt64) : Custody e [] (Fabric.new m x : Fabric F) := by
  refine ⟨he, ?_, ?_, fun _ h => (List.not_mem_nil h).elim⟩
  · intro t current h
    simp [taskStatus, Fabric.new] at h
  · intro t current h
    simp [taskStatus, Fabric.new] at h

theorem saturatingAdd_le_left {a b : UInt64} (hle : a ≤ b) (c : UInt64) : saturatingAdd a c ≤ saturatingAdd b c := by
  have hle' := UInt64.le_iff_toNat_le.mp hle
  have hbound : ∀ n, min n (2 ^ 64 - 1) < UInt64.size := fun n => by
    rw [UInt64.size]
    omega
  rw [UInt64.le_iff_toNat_le, saturatingAdd, saturatingAdd, UInt64.toNat_ofNat_of_lt' (hbound _),
    UInt64.toNat_ofNat_of_lt' (hbound _)]
  omega

section Step

variable {e : Env} {history : List (Event F)} {s : Fabric F} (h : Custody e history s) (op : Op F)

include h

/-- Where the running attempt of a task comes from. -/
theorem Custody.running_step {t : TaskId} {current : ExecutionLease}
    (hafter : (Event.of (e.sub 0) s op).after.taskStatus t = some (.running current)) :
    s.taskStatus t = some (.running current) ∨
      (current.taskId = t ∧ current.expiresAtUnixMs = saturatingAdd (e.sub 0).clock s.executionTtlMs) := by
  obtain ⟨spec, hl⟩ := taskStatus_eq hafter
  have hmoves := event_moves (e.sub 0) s op t
  rw [hl] at hmoves
  generalize hb : s.tasks.lookup t = before at hmoves
  cases hmoves with
  | stays => exact .inl (taskStatus_of_lookup hb)
  | begins spec lease hbegun =>
    obtain ⟨-, -, -, -, -, -, -, htask⟩ := begun_cases hbegun
    have hissued : (Event.of (e.sub 0) s op).issued = some current := by
      unfold Event.begun at hbegun
      unfold Event.issued
      split at hbegun
      · rename_i hreply
        split at hbegun
        · cases hbegun
          rw [hreply]
        · cases hbegun
      · cases hbegun
    exact .inr ⟨htask, (event_issues h.names hissued).deadline⟩
  | renews spec lease stored deadline hop htask hstored =>
    have hrunning := taskStatus_of_lookup hb
    obtain ⟨status, hstatus, hcase⟩ := event_running (e.sub 0) s op hrunning
    rw [hafter] at hstatus
    cases hstatus
    generalize hcurrent : ({ stored with expiresAtUnixMs := deadline } : ExecutionLease) = current at hcase
    cases hcase with
    | keeps => exact .inl hrunning
    | renewed => exact .inr ⟨h.names t stored hrunning, rfl⟩
    | settled hsettled => cases hsettled

theorem Custody.backed_step (htimely : (Event.of (e.sub 0) s op).Timely) {lease : ExecutionLease} (hb : Backed s lease) :
    Backed (Event.of (e.sub 0) s op).after lease ∨ ∀ p, lease.expiresAtUnixMs ≤ (e.sub 1).now p := by
  cases hb with
  | settled hstatus hsettled => exact .inl (.settled (taskStatus_settled (e.sub 0) s op hsettled hstatus) hsettled)
  | running hrunning hid hle =>
    obtain ⟨status, hstatus, hcase⟩ := event_running (e.sub 0) s op hrunning
    cases hcase with
    | keeps => exact .inl (.running hstatus hid hle)
    | renewed => exact .inl (.running hstatus hid (UInt64.le_trans hle (h.deadline _ _ hrunning [0])))
    | settled hsettled => exact .inl (.settled hstatus hsettled)
    | reaped hop hexpired =>
      -- the task is reaped no earlier than the lease runs out
      refine .inr fun p => UInt64.le_trans hle (UInt64.le_trans hexpired (UInt64.le_trans (htimely _ hop) ?_))
      exact h.steady.sub_le Nat.zero_lt_one [] p

theorem Custody.step (htimely : (Event.of (e.sub 0) s op).Timely) :
    Custody (e.sub 1) (history ++ [Event.of (e.sub 0) s op]) (Event.of (e.sub 0) s op).after where
  steady := h.steady.sub 1
  names t current hafter := (h.running_step op hafter).elim (h.names t current) (·.1)
  deadline t current hafter p := by
    rw [event_executionTtl]
    rcases h.running_step op hafter with hrunning | ⟨-, hdeadline⟩
    · exact h.deadline t current hrunning (1 :: p)
    · rw [hdeadline]
      exact saturatingAdd_le_left (h.steady.sub_le Nat.zero_lt_one [] p) _
  handed ev hev lease hissued := by
    rcases List.mem_append.mp hev with hev | hev
    · rcases h.handed ev hev lease hissued with hb | hout
      · exact h.backed_step op htimely hb
      · exact .inr fun p => hout (1 :: p)
    · obtain rfl := List.mem_singleton.mp hev
      exact .inl (.running (event_issues h.names hissued).stored rfl (UInt64.le_refl _))

/-- When the lease of another attempt is handed out, an earlier one has run out. -/
theorem Custody.apart {lease earlier : ExecutionLease} (hissued : (Event.of (e.sub 0) s op).issued = some lease)
    {ev : Event F} (hev : ev ∈ history) (hearlier : ev.issued = some earlier) (htask : earlier.taskId = lease.taskId)
    (hother : earlier.executionId ≠ lease.executionId) : earlier.expiresAtUnixMs ≤ (e.sub 0).clock := by
  have hbefore := (event_issues h.names hissued).before
  rcases h.handed ev hev earlier hearlier with hb | hout
  · exfalso
    cases hb with
    | running hrunning hid _ =>
      rw [htask] at hrunning
      rcases hbefore with hpending | ⟨current, hcurrent, hsame⟩
      · rw [hrunning] at hpending
        cases hpending
      · rw [hrunning] at hcurrent
        cases hcurrent
        exact hother (hid.symm.trans hsame)
    | settled hstatus hsettled =>
      rw [htask] at hstatus
      rcases hbefore with hpending | ⟨current, hcurrent, -⟩
      · rw [hstatus] at hpending
        cases hpending
        cases hsettled
      · rw [hstatus] at hcurrent
        cases hcurrent
        cases hsettled
  · exact hout [0]

end Step

/-- In a run whose clock does not go back and that reaps no task ahead of time: when a lease is handed out, every lease of
another attempt at the task that was handed out before has run out. -/
theorem trace_custody {e : Env} {m x : UInt64} {ops : List (Op F)} (he : e.Steady)
    (htimely : ∀ ev ∈ trace e (Fabric.new m x) ops, ev.Timely) {pre post : List (Event F)} {ev : Event F}
    (htrace : trace e (Fabric.new m x) ops = pre ++ ev :: post) {lease : ExecutionLease} (hissued : ev.issued = some lease) :
    lease.expiresAtUnixMs = saturatingAdd ev.env.clock x ∧
      ∀ ev' ∈ pre, ∀ earlier, ev'.issued = some earlier → earlier.taskId = lease.taskId →
        earlier.executionId ≠ lease.executionId → earlier.expiresAtUnixMs ≤ ev.env.clock := by
  have hstep : ∀ (e : Env) (history : List (Event F)) s op, (Custody e history s ∧ s.executionTtlMs = x) →
      (Event.of (e.sub 0) s op).Timely →
      Custody (e.sub 1) (history ++ [Event.of (e.sub 0) s op]) (Event.of (e.sub 0) s op).after ∧
        (Event.of (e.sub 0) s op).after.executionTtlMs = x :=
    fun e _ s op hI htimely => ⟨hI.1.step op htimely, (event_executionTtl (e.sub 0) s op).trans hI.2⟩
  obtain ⟨e', hev, ⟨hbefore, httl⟩, -⟩ :=
    trace_rule hstep ops e [] (Fabric.new m x) pre ⟨custody_new he m x, rfl⟩ htimely htrace
  rw [hev] at hissued ⊢
  rw [← httl]
  exact ⟨(event_issues hbefore.names hissued).deadline, fun ev' hev' earlier hearlier htask hother =>
    hbefore.apart ev.op hissued hev' hearlier htask hother⟩

end Plurifold
