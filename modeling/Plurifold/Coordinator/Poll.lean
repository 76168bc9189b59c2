import Plurifold.Coordinator.Requests
import Plurifold.Fabric.Lease

/-!
# Polling for work

A poll visits the pending tasks in the order of a hash map and hands out the first one that the scheduler places on the
polling resource. A task that cannot be scheduled is passed over, but one whose inputs do not resolve ends the poll with
an error: it hides every task behind it. So a poll hands out work that is there exactly when the inputs of the first
task placed on the resource resolve (`Polls.pollWork_assigns_iff`).
-/

namespace Plurifold

open Lib Attempt CoordinatorState

variable {F : Type}

variable [F64 F]

/-- The scheduler, asked at the visit `visit`, places the task on `r`. -/
def placedOn (visit : Env) (c : CoordinatorState F) (r : ResourceId) (t : TaskId) : Bool :=
  match c.fabric.scheduleTask (visit.sub 0) t with
  | .ok decision => decide (decision.resourceId = r)
  | .error _ => false

/-- The tasks of a list that the scheduler places on `r` when they are visited, from visit `i` on. -/
def placedFrom (e : Env) (c : CoordinatorState F) (r : ResourceId) (i : Nat) (tasks : List TaskId) : List TaskId :=
  ((tasks.zipIdx i).filter fun entry => placedOn (e.sub entry.2) c r entry.1).map (·.1)

/-- Every input of the task has a replica with a data endpoint. -/
def inputsResolve (c : CoordinatorState F) (t : TaskId) : Bool :=
  match c.fabric.taskSpec t with
  | some task => (c.resolveInputs task.inputs).isOk
  | none => false

/-- The pending tasks placed on `r` in one poll, in the order of their visits. -/
def placedTasks (e : Env) (c : CoordinatorState F) (r : ResourceId) : List TaskId :=
  placedFrom (e.sub 3) c r 0 (c.fabric.pendingTaskIds (e.sub 2))

/-- `r` polls with its epoch, is active whenever the clock is read, and the roles were refreshed, which left `c'`. -/
structure Polls (e : Env) (c : CoordinatorState F) (r : ResourceId) (epoch : UInt64) (c' : CoordinatorState F) :
    Prop where
  active : ∃ resource, c.fabric.resources.lookup r = some resource ∧ resource.descriptor.epoch = epoch ∧
    ∀ path, e.now path < resource.expiresAtUnixMs
  refreshed : onFabric (Fabric.refreshReadyRoles (e.sub 1)) c = (.ok (), c')

/-- If some task placed on the polling resource has reachable inputs, the poll returns an assignment. -/
def WorkConserving (e : Env) (c c' : CoordinatorState F) (r : ResourceId) (epoch : UInt64) : Prop :=
  (∃ t ∈ placedTasks e c' r, inputsResolve c' t = true) →
    ∃ assignment, (pollWork e r epoch c).1 = .ok (some assignment)

/-! ## The loop -/

section Loop

variable {e : Env} {c : CoordinatorState F} {r : ResourceId}

/-- Hand a task to the polling resource. -/
def assign (e : Env) (c : CoordinatorState F) (r : ResourceId) (t : TaskId) :
    CoordinatorM F (Option (WorkAssignment F)) := do
  let task ← okOr (c.fabric.taskSpec t) ⟨.notFound, "task disappeared during scheduling"⟩
  let inputs ← lift (c.resolveInputs task.inputs)
  let lease ← onFabric (Fabric.beginExecution (e.sub 1) t r)
  pure (some { lease, task, inputs })

/-- The loop hands out the first task placed on the resource, if there is one. -/
theorem offerWork_eq : ∀ (i : Nat) (tasks : List TaskId),
    (placedFrom e c r i tasks = [] ∧ offerWork e r i tasks c = (.ok none, c)) ∨
    ∃ t rest visit, placedFrom e c r i tasks = t :: rest ∧ t ∈ tasks ∧ placedOn (e.sub visit) c r t = true ∧
      offerWork e r i tasks c = assign (e.sub visit) c r t c
  | i, [] => .inl ⟨rfl, rfl⟩
  | i, t :: tasks => by
    have hcons : placedFrom e c r i (t :: tasks) =
        if placedOn (e.sub i) c r t then t :: placedFrom e c r (i + 1) tasks else placedFrom e c r (i + 1) tasks := by
      simp only [placedFrom, List.zipIdx_cons, List.filter_cons]
      split <;> rfl
    have hskip : placedOn (e.sub i) c r t = false → offerWork e r i (t :: tasks) c = offerWork e r (i + 1) tasks c →
        (placedFrom e c r i (t :: tasks) = [] ∧ offerWork e r i (t :: tasks) c = (.ok none, c)) ∨
        ∃ t' rest visit, placedFrom e c r i (t :: tasks) = t' :: rest ∧ t' ∈ t :: tasks ∧
          placedOn (e.sub visit) c r t' = true ∧ offerWork e r i (t :: tasks) c = assign (e.sub visit) c r t' c := by
      intro hnot heq
      rw [hcons, heq, if_neg (by simp [hnot])]
      rcases offerWork_eq (i + 1) tasks with h | ⟨t', rest, visit, hplaced, hmem, hon, h⟩
      · exact .inl h
      · exact .inr ⟨t', rest, visit, hplaced, List.mem_cons_of_mem _ hmem, hon, h⟩
    cases hs : c.fabric.scheduleTask ((e.sub i).sub 0) t with
    | error err => exact hskip (by simp [placedOn, hs]) (by simp [offerWork, hs])
    | ok decision =>
      by_cases hr : decision.resourceId = r
      · have hon : placedOn (e.sub i) c r t = true := by simp [placedOn, hs, hr]
        refine .inr ⟨t, placedFrom e c r (i + 1) tasks, i, ?_, List.mem_cons_self .., hon, ?_⟩
        · rw [hcons, if_pos hon]
        · simp [offerWork, hs, hr, assign]
      · exact hskip (by simp [placedOn, hs, hr]) (by simp [offerWork, hs, hr])

omit [F64 F] in
/-- Handing out a pending task to an active resource succeeds exactly when its inputs resolve. -/
theorem assign_ok_iff {visit : Env} {t : TaskId} {record : TaskRecord F} {resource : RegisteredResource F}
    (ht : c.fabric.tasks.lookup t = some record) (hp : record.status = .pending)
    (hr : c.fabric.resources.lookup r = some resource) (hactive : (visit.sub 1).clock < resource.expiresAtUnixMs) :
    (∃ assignment, (assign visit c r t c).1 = .ok (some assignment)) ↔ inputsResolve c t = true := by
  have hspec : c.fabric.taskSpec t = some record.spec := by rw [Fabric.taskSpec, ht]; rfl
  have hres : c.fabric.activeResource (visit.sub 1).clock r = some resource := by
    rw [Fabric.activeResource, hr]
    simpa using hactive
  have hbegin := Fabric.beginExecution_of_pending hres ht hp
  simp only [assign, hspec, inputsResolve, okOr_some, pure_bind']
  cases hres : c.resolveInputs record.spec.inputs with
  | error err =>
    simp only [lift_error, fail_bind, Except.isOk, Except.toBool]
    constructor
    · rintro ⟨assignment, h⟩
      cases h
    · exact nofun
  | ok inputs =>
    refine ⟨fun _ => rfl, fun _ => ?_⟩
    simp only [lift_ok, bind_apply, onFabric, zoom, hbegin, pure_apply]
    exact ⟨_, rfl⟩

end Loop

/-! ## The poll -/

omit [F64 F] in
theorem onFabric_fabric {α : Type} (m : FabricM F α) (c : CoordinatorState F) :
    (onFabric m c).2.fabric = (m c.fabric).2 := by
  unfold onFabric zoom
  cases hr : m c.fabric with
  | mk result s => cases result <;> rfl

/-- Refreshing the roles adds tasks and leaves the resources alone. -/
theorem refreshed_grows {e : Env} {c c' : CoordinatorState F} {result : Except ApiError Unit}
    (h : onFabric (Fabric.refreshReadyRoles e) c = (result, c')) : Fabric.Grows c.fabric c'.fabric := by
  have hg := Fabric.refreshReadyRoles_along Fabric.keptByRoles_grows e c.fabric
  rwa [← onFabric_fabric, h] at hg

section Poll

variable {e : Env} {c c' : CoordinatorState F} {r : ResourceId} {epoch : UInt64} (h : Polls e c r epoch c')

include h

theorem Polls.resources : c'.fabric.resources = c.fabric.resources := (refreshed_grows h.refreshed).resources

/-- A poll of an active resource goes on to the loop. -/
theorem Polls.pollWork_eq : pollWork e r epoch c = offerWork (e.sub 3) r 0 (c'.fabric.pendingTaskIds (e.sub 2)) c' := by
  obtain ⟨resource, hr, hep, hactive⟩ := h.active
  have hnow : c.fabric.resourceEpoch (e.sub 0) r = some epoch := by
    have hactive' : (e.sub 0).clock < resource.expiresAtUnixMs := hactive [0]
    rw [Fabric.resourceEpoch, Fabric.activeResource, hr]
    simp [hactive', hep]
  unfold pollWork
  simp only [state_bind, hnow, okOr_some, pure_bind', ne_eq, not_true_eq_false, if_false]
  rw [bind_ok h.refreshed]
  rfl

/-- The poll returns an assignment exactly when the inputs of the first task placed on the resource resolve. -/
theorem Polls.pollWork_assigns_iff : (∃ assignment, (pollWork e r epoch c).1 = .ok (some assignment)) ↔
    ∃ t, (placedTasks e c' r).head? = some t ∧ inputsResolve c' t = true := by
  obtain ⟨resource, hr, -, hactive⟩ := h.active
  rw [h.pollWork_eq, placedTasks]
  rcases offerWork_eq (e := e.sub 3) (c := c') (r := r) 0 (c'.fabric.pendingTaskIds (e.sub 2)) with
    ⟨hnone, heq⟩ | ⟨t, rest, visit, hplaced, hmem, -, heq⟩
  · rw [hnone, heq]
    constructor
    · rintro ⟨assignment, ha⟩
      cases ha
    · rintro ⟨t, ht, -⟩
      cases ht
  · obtain ⟨record, ht, hp⟩ := Fabric.mem_pendingTaskIds.mp hmem
    have hnow : (((e.sub 3).sub visit).sub 1).clock < resource.expiresAtUnixMs := hactive [3, visit, 1]
    rw [heq, assign_ok_iff ht hp (h.resources ▸ hr) hnow, hplaced]
    simp

/-- **When polling is work-conserving.** The poll of an active resource hands out work that is there if and only if no
task with unreachable inputs comes first among the tasks placed on it: if one of these has reachable inputs, so has the
first. -/
theorem workConserving_iff : WorkConserving e c c' r epoch ↔
    ∀ t, (placedTasks e c' r).head? = some t → (∃ t' ∈ placedTasks e c' r, inputsResolve c' t' = true) →
      inputsResolve c' t = true := by
  unfold WorkConserving
  rw [h.pollWork_assigns_iff]
  constructor
  · intro hwork t ht hsome
    obtain ⟨t', ht', hresolve⟩ := hwork hsome
    rw [ht] at ht'
    cases ht'
    exact hresolve
  · rintro hfirst ⟨t', ht', hresolve⟩
    obtain ⟨t, rest, hplaced⟩ := List.exists_cons_of_ne_nil (List.ne_nil_of_mem ht')
    have ht : (placedTasks e c' r).head? = some t := by rw [hplaced]; rfl
    exact ⟨t, ht, hfirst t ht ⟨t', ht', hresolve⟩⟩

end Poll

/-- Without jobs there is nothing to refresh. -/
theorem refreshReadyRoles_noJobs {s : Fabric F} (h : s.jobs.entries.isEmpty = true) (e : Env) :
    Fabric.refreshReadyRoles e s = (.ok (), s) := by
  have hjobs : s.jobs.entries = [] := List.isEmpty_iff.mp h
  have hpairs : ((e.sub 0).sub 0).iter s.jobs.pairs = [] := by
    rw [Map.pairs, hjobs]
    exact List.perm_nil.mp (Env.iter_perm _ _)
  have hkeys : (e.sub 1).iter s.jobs.keys = [] := by
    rw [AList.keys, hjobs]
    exact List.perm_nil.mp (Env.iter_perm _ _)
  have hreductions : Fabric.refreshReductions (e.sub 0) s = (.ok (), s) := by
    simp only [Fabric.refreshReductions, Fabric.pendingReductions, state_bind, hpairs]
    rfl
  rw [Fabric.refreshReadyRoles, bind_ok hreductions]
  simp only [state_bind, hkeys]
  rfl

theorem polls_noJobs {e : Env} {c : CoordinatorState F} {r : ResourceId} {epoch : UInt64} (deadline : UInt64)
    (hjobs : c.fabric.jobs.entries.isEmpty = true)
    (hr : (c.fabric.resources.lookup r).map (fun resource => (resource.descriptor.epoch, resource.expiresAtUnixMs)) =
      some (epoch, deadline)) (hnow : ∀ path, e.now path < deadline) : Polls e c r epoch c := by
  obtain ⟨resource, hl, hpair⟩ := Option.map_eq_some_iff.mp hr
  cases hpair
  refine ⟨⟨resource, hl, rfl, hnow⟩, ?_⟩
  simp only [onFabric, zoom, refreshReadyRoles_noJobs hjobs]

/-! ## A task that blocks another -/

/-- An object whose digest is of another kind than the agents serve. -/
def md5Object : ObjectMetadata where
  id := ⟨9⟩
  sizeBytes := 0
  digest := some "md5:0"
  encoding := none
  locations := [⟨1⟩]
  producer := none

/-- A resource registers; a task without inputs and one that reads `md5Object` are submitted. -/
def blockedRequests : List (Request ℚ) :=
  [.registerResource (Sample.resource 1) "http://a", .publishObject md5Object, .submitTask (Sample.task 7),
    .submitTask { Sample.task 5 with inputs := [⟨9⟩] }]

/-- The task that reads `md5Object` comes after the other one. -/
def unblockedRequests : List (Request ℚ) :=
  [.registerResource (Sample.resource 1) "http://a", .publishObject md5Object,
    .submitTask { Sample.task 5 with inputs := [⟨9⟩] }, .submitTask (Sample.task 7)]

/-- The state a run of requests leaves. -/
def afterRequests (requests : List (Request ℚ)) : CoordinatorState ℚ :=
  run (Env.numbered fun _ => 0) (CoordinatorState.new 100 100) requests

/-- The poll of the resource fails although a task without inputs waits for it. -/
theorem pollWork_blocked : ¬∀ c', Polls (Env.numbered fun _ => 0) (afterRequests blockedRequests) ⟨1⟩ 1 c' →
    WorkConserving (Env.numbered fun _ => 0) (afterRequests blockedRequests) c' ⟨1⟩ 1 := by
  intro h
  have hpolls : Polls (Env.numbered fun _ => 0) (afterRequests blockedRequests) ⟨1⟩ 1 (afterRequests blockedRequests) :=
    polls_noJobs 100 (by decide +kernel) (by decide +kernel) fun _ => (by decide : (0 : UInt64) < 100)
  obtain ⟨assignment, ha⟩ := h _ hpolls ⟨⟨7⟩, by decide +kernel⟩
  have hok := congrArg Except.isOk ha
  change _ = true at hok
  exact absurd hok (by decide +kernel)

/-- A task whose inputs do not resolve waits for the resource, but not as the first one. -/
theorem workConserving_unblocked :
    (⟨5⟩ ∈ placedTasks (Env.numbered fun _ => 0) (afterRequests unblockedRequests) ⟨1⟩ ∧
      inputsResolve (afterRequests unblockedRequests) ⟨5⟩ = false) ∧
    ∃ assignment, (pollWork (Env.numbered fun _ => 0) ⟨1⟩ 1 (afterRequests unblockedRequests)).1 =
      .ok (some assignment) := by
  have hpolls : Polls (Env.numbered fun _ => 0) (afterRequests unblockedRequests) ⟨1⟩ 1
      (afterRequests unblockedRequests) :=
    polls_noJobs 100 (by decide +kernel) (by decide +kernel) fun _ => (by decide : (0 : UInt64) < 100)
  have hresolves : inputsResolve (afterRequests unblockedRequests) ⟨7⟩ = true := by decide +kernel
  refine ⟨by decide +kernel, (workConserving_iff hpolls).mpr (fun t ht _ => ?_) ⟨⟨7⟩, by decide +kernel, hresolves⟩⟩
  have hfirst : (placedTasks (Env.numbered fun _ => 0) (afterRequests unblockedRequests) ⟨1⟩).head? = some ⟨7⟩ := by
    decide +kernel
  obtain rfl := Option.some.inj (hfirst.symm.trans ht)
  exact hresolves

end Plurifold
