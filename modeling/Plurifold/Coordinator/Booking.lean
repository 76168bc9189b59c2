import Plurifold.Coordinator.Links
import Plurifold.Coordinator.Poll

/-!
# No resource is booked twice

A poll hands a task to a resource only if no unexpired lease names that resource. Leases lapse without being reaped and
are renewed, and resources register again, so what holds at every moment is about deadlines: of the leases that name one
resource at most one has not expired (`SingleBooked`). The clock does not go back, so leases that have expired stay so.
-/

namespace Plurifold

open Lib Attempt CoordinatorState

variable {F : Type} {s s' : Fabric F} {c : CoordinatorState F} {r : ResourceId} {t : TaskId} {now : UInt64}

/-! ## Leases -/

/-- The task runs under this lease. -/
def Fabric.Leased (s : Fabric F) (t : TaskId) (lease : ExecutionLease) : Prop := s.taskStatus t = some (.running lease)

/-- At this time no resource has two unexpired leases. -/
def SingleBooked (s : Fabric F) (now : UInt64) : Prop :=
  ∀ t t' lease lease', s.Leased t lease → s.Leased t' lease' → lease.resourceId = lease'.resourceId →
    now < lease.expiresAtUnixMs → now < lease'.expiresAtUnixMs → t = t'

theorem SingleBooked.later {now' : UInt64} (h : SingleBooked s now) (hle : now ≤ now') : SingleBooked s now' :=
  fun t t' lease lease' ht ht' hr hlt hlt' =>
    h t t' lease lease' ht ht' hr (UInt64.lt_of_le_of_lt hle hlt) (UInt64.lt_of_le_of_lt hle hlt')

/-- Resources are stored under their own names. -/
def Keyed (s : Fabric F) : Prop := ∀ r resource, s.resources.lookup r = some resource → resource.descriptor.id = r

/-- No task got a lease, and resources are stored under their own names. -/
structure Quiet (s s' : Fabric F) : Prop where
  leases : ∀ t lease, s'.Leased t lease → s.Leased t lease
  keyed : Keyed s → Keyed s'

instance : IsPreorder (Fabric F) Quiet where
  refl _ := ⟨fun _ _ h => h, fun h => h⟩
  trans _ _ _ hab hbc := ⟨fun t lease h => hab.leases t lease (hbc.leases t lease h), fun h => hbc.keyed (hab.keyed h)⟩

theorem Quiet.singleBooked (h : Quiet s s') (hs : SingleBooked s now) : SingleBooked s' now :=
  fun t t' lease lease' ht ht' => hs t t' lease lease' (h.leases t lease ht) (h.leases t' lease' ht')

theorem leased_iff {lease : ExecutionLease} : s.Leased t lease ↔ ∃ spec, s.tasks.lookup t = some ⟨spec, .running lease⟩ := by
  unfold Fabric.Leased Fabric.taskStatus
  rw [Option.map_eq_some_iff]
  constructor
  · rintro ⟨⟨spec, status⟩, ht, rfl⟩
    exact ⟨spec, ht⟩
  · rintro ⟨spec, ht⟩
    exact ⟨_, ht, rfl⟩

/-! ## Calls that grant no lease -/

theorem quiet_of_tasks (ht : s'.tasks = s.tasks) (hk : Keyed s → Keyed s') : Quiet s s' :=
  ⟨fun t lease h => by rwa [Fabric.Leased, Fabric.taskStatus, ht] at h, hk⟩

theorem keyed_of_eq (h : s'.resources = s.resources) (hk : Keyed s) : Keyed s' := by
  intro r resource hr
  rw [h] at hr
  exact hk r resource hr

open Fabric in
theorem Fabric.Grows.quiet (h : Grows s s') : Quiet s s' := by
  refine ⟨fun t lease hl => ?_, keyed_of_eq h.resources⟩
  obtain ⟨spec, hspec⟩ := leased_iff.mp hl
  rcases h.tasks t with hsame | ⟨-, spec', -, hnew⟩
  · exact leased_iff.mpr ⟨spec, hsame ▸ hspec⟩
  · rw [hnew] at hspec
    cases hspec

open Fabric in
theorem heartbeat_quiet (e : Env) (r : ResourceId) (epoch : UInt64) : (heartbeat (F := F) e r epoch).Along Quiet := by
  intro s
  unfold heartbeat
  rw [state_bind]
  cases hr : s.resources.lookup r with
  | none => exact refl_of Quiet s
  | some registered =>
    rw [okOr_some, pure_bind']
    split
    · exact refl_of Quiet s
    · refine quiet_of_tasks rfl fun hk r' resource hr' => ?_
      change (s.resources.insert r _).lookup r' = some resource at hr'
      rw [Map.lookup_insert_eq] at hr'
      split at hr'
      · rename_i heq
        cases hr'
        rw [heq]
        exact hk r registered hr
      · exact hk r' resource hr'

open Fabric in
theorem registerResource_quiet (e : Env) (descriptor : ResourceDescriptor F) (s : Fabric F) :
    Quiet s (Fabric.registerResource e descriptor s).2 := by
  refine quiet_of_tasks rfl fun hk r' resource hr' => ?_
  change (s.resources.insert descriptor.id _).lookup r' = some resource at hr'
  rw [Map.lookup_insert_eq] at hr'
  split at hr'
  · rename_i heq
    cases hr'
    exact heq.symm
  · exact hk r' resource hr'

theorem removeResource_quiet (id : ResourceId) (s : Fabric F) : Quiet s (s.removeResource id) := by
  refine quiet_of_tasks rfl fun hk r' resource hr' => ?_
  change (s.resources.erase id).lookup r' = some resource at hr'
  rw [Map.lookup_erase_eq] at hr'
  split at hr'
  · cases hr'
  · exact hk r' resource hr'

theorem expireResourcesAt_quiet (e : Env) (unixMs : UInt64) (s : Fabric F) :
    Quiet s (s.expireResourcesAt e unixMs).2 := by
  refine List.foldlRecOn (motive := Quiet s) _ _ (refl_of Quiet s) fun s' h id _ => ?_
  exact trans_of Quiet h (removeResource_quiet id s')

open Fabric in
theorem reapExpiredExecutionsAt_quiet (e : Env) (unixMs : UInt64) (s : Fabric F) :
    Quiet s (s.reapExpiredExecutionsAt e unixMs).2 := by
  refine ⟨fun t lease hl => ?_, keyed_of_eq (reapExpiredExecutionsAt_resources e unixMs s)⟩
  obtain ⟨spec, hspec⟩ := leased_iff.mp hl
  rw [reapExpiredExecutionsAt_lookup, Option.map_eq_some_iff] at hspec
  obtain ⟨record, ht, hrecord⟩ := hspec
  unfold reapRecord at hrecord
  split at hrecord
  · -- an expired lease is gone
    have hstatus := congrArg TaskRecord.status hrecord
    dsimp only at hstatus
    split at hstatus <;> cases hstatus
  · rw [hrecord] at ht
    exact leased_iff.mpr ⟨spec, ht⟩

open Fabric in
theorem completeExecution_quiet [F64 F] (e : Env) (lease : ExecutionLease) (outputs : List ObjectMetadata) :
    (completeExecution (F := F) e lease outputs).Along Quiet := by
  refine completeExecution_along (fun s t ids => ⟨fun t' lease' hl => ?_, fun hk => hk⟩)
    (fun object s => (publishObject_grows object s).quiet) (keptByRoles_grows.mono fun _ _ h => h.quiet) e lease outputs
  -- a completed task holds no lease
  obtain ⟨spec, hspec⟩ := leased_iff.mp hl
  rw [setStatus_lookup] at hspec
  split at hspec
  · obtain ⟨record, -, hrecord⟩ := Option.map_eq_some_iff.mp hspec
    cases hrecord
  · exact leased_iff.mpr ⟨spec, hspec⟩

/-! ## Calls that grant a lease -/

/-- No task holds a lease on this resource that is unexpired at this time. -/
def Free (s : Fabric F) (r : ResourceId) (now : UInt64) : Prop :=
  ∀ t lease, s.Leased t lease → lease.resourceId = r → lease.expiresAtUnixMs ≤ now

theorem Free.later {now' : UInt64} (h : Free s r now) (hle : now ≤ now') : Free s r now' :=
  fun t lease ht hr => UInt64.le_trans (h t lease ht hr) hle

/-- What a task that is given a lease leaves of the leases of the others. -/
theorem leased_setStatus {granted lease : ExecutionLease} {t' : TaskId}
    (h : (s.setStatus t (.running granted)).Leased t' lease) : (t' = t ∧ lease = granted) ∨ (t' ≠ t ∧ s.Leased t' lease) := by
  obtain ⟨spec, hspec⟩ := leased_iff.mp h
  rw [Fabric.setStatus_lookup] at hspec
  split at hspec
  · rename_i heq
    obtain ⟨record, -, hrecord⟩ := Option.map_eq_some_iff.mp hspec
    cases hrecord
    exact .inl ⟨heq, rfl⟩
  · rename_i hne
    exact .inr ⟨hne, leased_iff.mpr ⟨spec, hspec⟩⟩

/-- A lease may be granted on a resource on which no other task holds one. -/
theorem SingleBooked.grant {granted : ExecutionLease} (h : SingleBooked s now)
    (hfree : ∀ t' lease, t' ≠ t → s.Leased t' lease → lease.resourceId = granted.resourceId →
      lease.expiresAtUnixMs ≤ now) : SingleBooked (s.setStatus t (.running granted)) now := by
  intro t₁ t₂ lease₁ lease₂ h₁ h₂ hr hlt₁ hlt₂
  rcases leased_setStatus h₁ with ⟨rfl, rfl⟩ | ⟨hne₁, hold₁⟩
  · rcases leased_setStatus h₂ with ⟨rfl, rfl⟩ | ⟨hne₂, hold₂⟩
    · rfl
    · exact absurd hlt₂ (UInt64.not_lt.mpr (hfree t₂ lease₂ hne₂ hold₂ hr.symm))
  · rcases leased_setStatus h₂ with ⟨rfl, rfl⟩ | ⟨hne₂, hold₂⟩
    · exact absurd hlt₁ (UInt64.not_lt.mpr (hfree t₁ lease₁ hne₁ hold₁ hr))
    · exact h t₁ t₂ lease₁ lease₂ hold₁ hold₂ hr hlt₁ hlt₂

/-- A lease that is renewed is the only one on its resource that has not expired, so it stays the only one. -/
theorem renewExecution_booked (e : Env) (lease : ExecutionLease) (h : SingleBooked s e.clock) :
    SingleBooked (Fabric.renewExecution e lease s).2 e.clock := by
  rcases Fabric.renewExecution_cases e lease s with ⟨err, heq, -⟩ | ⟨current, hcurrent, heq⟩
  · rw [heq]
    exact h
  · rw [heq]
    obtain ⟨resource, record, -, -, ht, hrunning, -, hlive, -⟩ := Fabric.currentLease_ok hcurrent
    have hleased : s.Leased lease.taskId current := by
      rw [Fabric.Leased, Fabric.taskStatus, ht]
      exact congrArg some hrunning
    refine h.grant fun t' lease' hne hleased' hr => ?_
    by_contra hlive'
    exact hne (h t' lease.taskId lease' current hleased' hleased hr (UInt64.not_le.mp hlive') hlive)

theorem renewExecution_keyed (e : Env) (lease : ExecutionLease) (h : Keyed s) :
    Keyed (Fabric.renewExecution e lease s).2 := by
  rcases Fabric.renewExecution_cases e lease s with ⟨err, heq, -⟩ | ⟨current, -, heq⟩
  · rw [heq]
    exact h
  · rw [heq]
    exact keyed_of_eq rfl h

/-- A resource that may be scheduled is free. -/
theorem free_of_schedulable {e : Env} {descriptor : ResourceDescriptor F} (h : descriptor ∈ s.schedulableResources e) :
    Free s descriptor.id e.clock := by
  intro t lease hleased hr
  obtain ⟨resource, hmem, rfl⟩ := List.mem_map.mp h
  have hfree := (List.mem_filter.mp hmem).2
  simp only [Bool.and_eq_true, Bool.not_eq_true', List.contains_eq_mem, decide_eq_false_iff_not] at hfree
  by_contra hlive
  refine hfree.2 (List.mem_filterMap.mpr ?_)
  obtain ⟨spec, hspec⟩ := leased_iff.mp hleased
  refine ⟨_, Map.mem_values.mpr ⟨t, hspec⟩, ?_⟩
  simp only [if_pos (UInt64.not_le.mp hlive), hr]

/-- A resource that may be scheduled is registered and active. -/
theorem registered_of_schedulable {e : Env} {descriptor : ResourceDescriptor F} (hk : Keyed s)
    (h : descriptor ∈ s.schedulableResources e) :
    ∃ resource, s.resources.lookup descriptor.id = some resource ∧ resource.descriptor = descriptor ∧
      e.clock < resource.expiresAtUnixMs := by
  obtain ⟨resource, hmem, rfl⟩ := List.mem_map.mp h
  obtain ⟨hvalue, hactive⟩ := List.mem_filter.mp hmem
  obtain ⟨r, hr⟩ := Map.mem_values.mp (Env.mem_iter.mp hvalue)
  simp only [Bool.and_eq_true, decide_eq_true_eq] at hactive
  exact ⟨resource, hk r resource hr ▸ hr, rfl, hactive.1⟩

/-! ## What a placement promises -/

section

variable [F64 F]

/-- The bytes that the task reads of its input number `inputIndex`. -/
def inputBytes (task : TaskSpec F) (inputIndex : Nat) (object : ObjectMetadata) : UInt64 :=
  match task.inputByteRange inputIndex with
  | some (_, length) => length
  | none => object.sizeBytes

/-- The resource holds the object, or reads nothing of it, or there is a modeled path from a replica. -/
def Reaches (topology : TopologySnapshot F) (r : ResourceId) (object : ObjectMetadata) (bytes : UInt64) : Prop :=
  object.isLocalTo r = true ∨ bytes = 0 ∨
    ∃ source ∈ object.locations, (topology.transferTimeMs source r bytes).isSome = true

/-- Every input of a candidate is within its reach. -/
theorem inputTransfer_reaches {task : TaskSpec F} {objects : Objects} {topology : TopologySnapshot F} :
    ∀ (inputs : List ObjectId) (i : Nat) (total ms : F), inputTransfer task r objects topology i inputs total = some ms →
      ∀ k id, inputs[k]? = some id → ∃ object, objects.lookup id = some object ∧
        Reaches topology r object (inputBytes task (i + k) object)
  | [], _, _, _, _, k, id, hk => by simp at hk
  | first :: rest, i, total, ms, h, k, id, hk => by
    unfold inputTransfer at h
    cases hobject : objects.lookup first with
    | none =>
      rw [hobject] at h
      cases h
    | some object =>
      rw [hobject] at h
      dsimp only at h
      -- the first input is within reach, and the loop goes on
      have hfirst : Reaches topology r object (inputBytes task i object) ∧
          ∃ total', inputTransfer task r objects topology (i + 1) rest total' = some ms := by
        by_cases hlocal : object.isLocalTo r = true
        · rw [if_pos hlocal] at h
          exact ⟨.inl hlocal, total, h⟩
        · rw [if_neg hlocal] at h
          split at h
          · cases h
          · rename_i bytes hbytes
            have heq : bytes = inputBytes task i object := by
              unfold inputBytes
              cases hrange : task.inputByteRange i with
              | none =>
                simp only [hrange, Option.some.injEq] at hbytes
                exact hbytes.symm
              | some range =>
                simp only [hrange] at hbytes
                split at hbytes
                · exact (Option.some.inj hbytes).symm
                · cases hbytes
            rw [← heq]
            split at h
            · rename_i hzero
              exact ⟨.inr (.inl hzero), total, h⟩
            · split at h
              · cases h
              · rename_i best hbest
                refine ⟨.inr (.inr ?_), total + best, h⟩
                obtain ⟨source, hsource, htime⟩ := List.mem_filterMap.mp (minBy_mem hbest)
                exact ⟨source, hsource, by rw [htime]; rfl⟩
      cases k with
      | zero =>
        cases hk
        exact ⟨object, hobject, hfirst.1⟩
      | succ k =>
        obtain ⟨total', hrest⟩ := hfirst.2
        have hnext := inputTransfer_reaches rest (i + 1) total' ms hrest k id (by simpa using hk)
        rwa [show i + 1 + k = i + (k + 1) by omega] at hnext

/-- Where a task may be placed: the resource supports it and its inputs are within reach, at this cost. -/
def Feasible (s : Fabric F) (task : TaskSpec F) (descriptor : ResourceDescriptor F) (cost : PlacementBreakdown F) : Prop :=
  descriptor.supports task.requirements = true ∧
    s.scheduler.scoreCandidate task descriptor s.objects s.topology = some cost

theorem Feasible.reaches {task : TaskSpec F} {descriptor : ResourceDescriptor F} {cost : PlacementBreakdown F}
    (h : Feasible s task descriptor cost) : ∀ k id, task.inputs[k]? = some id → ∃ object,
      s.objects.lookup id = some object ∧ Reaches s.topology descriptor.id object (inputBytes task k object) := by
  obtain ⟨ms, hms, -⟩ := Option.map_eq_some_iff.mp h.2
  intro k id hk
  have := inputTransfer_reaches task.inputs 0 _ ms hms k id hk
  rwa [Nat.zero_add] at this

/-- The placements among which the scheduler chooses. -/
def candidates (e : Env) (s : Fabric F) (task : TaskSpec F) : List (PlacementDecision F) :=
  ((s.schedulableResources e).filter fun resource => resource.supports task.requirements).filterMap fun resource =>
    (s.scheduler.scoreCandidate task resource s.objects s.topology).map fun cost => ⟨resource.id, cost⟩

theorem mem_candidates {e : Env} {task : TaskSpec F} {decision : PlacementDecision F} :
    decision ∈ candidates e s task ↔ ∃ descriptor ∈ s.schedulableResources e, descriptor.id = decision.resourceId ∧
      Feasible s task descriptor decision.cost := by
  simp only [candidates, List.mem_filterMap, List.mem_filter, Option.map_eq_some_iff]
  constructor
  · rintro ⟨descriptor, ⟨hsched, hsupports⟩, cost, hcost, rfl⟩
    exact ⟨descriptor, hsched, rfl, hsupports, hcost⟩
  · rintro ⟨descriptor, hsched, hid, hsupports, hcost⟩
    refine ⟨descriptor, ⟨hsched, hsupports⟩, decision.cost, hcost, ?_⟩
    rw [hid]

theorem scheduleTask_ok {e : Env} {decision : PlacementDecision F} (h : s.scheduleTask e t = .ok decision) :
    ∃ record, s.tasks.lookup t = some record ∧
      minBy (fun a b => F64.totalCmp a.cost.totalMs b.cost.totalMs) (candidates e s record.spec) = some decision := by
  unfold Fabric.scheduleTask at h
  split at h
  · cases h
  rename_i record ht
  split at h
  · cases h
  unfold TopologyAwareScheduler.choose at h
  split at h
  · cases h
  dsimp only at h
  split at h
  · rename_i best hbest
    cases h
    exact ⟨record, ht, hbest⟩
  · cases h

end

/-! ## What a poll does -/

/-- Each input comes with the metadata stored for it and with a replica. -/
theorem resolveInputs_ok {objects : List ObjectId} {inputs : List ResolvedObject}
    (h : c.resolveInputs objects = .ok inputs) :
    List.Forall₂ (fun id input => c.fabric.objects.lookup id = some input.metadata ∧ input.replicas ≠ []) objects inputs := by
  refine (mapM_ok_iff.mp h).imp fun id input hinput => ?_
  unfold resolveInput at hinput
  split at hinput
  · cases hinput
  rename_i metadata hobject
  split at hinput
  · cases hinput
  split at hinput
  · cases hinput
  dsimp only at hinput
  split at hinput
  · cases hinput
  · rename_i hreplicas
    cases hinput
    exact ⟨hobject, by simpa using hreplicas⟩

/-- The assignment of a pending task to `r`, as the visit `visit` of the loop makes it in `c`. -/
structure Assigned (visit : Env) (c : CoordinatorState F) (r : ResourceId) (a : WorkAssignment F) : Prop where
  pending : c.fabric.tasks.lookup a.lease.taskId = some ⟨a.task, .pending⟩
  inputs : c.resolveInputs a.task.inputs = .ok a.inputs
  lease : ∃ resource, c.fabric.activeResource (visit.sub 1).clock r = some resource ∧
    a.lease.resourceEpoch = resource.descriptor.epoch
  resource : a.lease.resourceId = r

theorem assign_cases (visit : Env) (c : CoordinatorState F) (r : ResourceId) (t : TaskId) :
    (∃ err, assign visit c r t c = (.error err, c)) ∨
    ∃ a, Assigned visit c r a ∧ a.lease.taskId = t ∧
      assign visit c r t c = (.ok (some a), { c with fabric := c.fabric.setStatus t (.running a.lease) }) := by
  unfold assign Fabric.taskSpec
  cases ht : c.fabric.tasks.lookup t with
  | none => exact .inl ⟨_, rfl⟩
  | some record =>
    rw [Option.map_some, okOr_some, pure_bind']
    cases hinputs : c.resolveInputs record.spec.inputs with
    | error err => exact .inl ⟨_, rfl⟩
    | ok inputs =>
      rw [lift_ok, pure_bind']
      rcases Fabric.beginExecution_cases (visit.sub 1) t r c.fabric with
        ⟨err, hbegin⟩ | ⟨lease, record', resource, hbegin, ht', hpending, hactive, hlease⟩
      · refine .inl ⟨.fromFabric err, ?_⟩
        simp only [bind_apply, onFabric, zoom, hbegin]
      · rw [ht] at ht'
        cases ht'
        obtain ⟨spec, status⟩ := record
        cases hpending
        refine .inr ⟨⟨lease, spec, inputs⟩, ⟨?_, hinputs, ⟨resource, hactive, ?_⟩, ?_⟩, ?_, ?_⟩
        · rw [hlease]
          exact ht
        · rw [hlease]
        · rw [hlease]
        · rw [hlease]
        · simp only [bind_apply, onFabric, zoom, hbegin, pure_apply]

/-- A poll hands out nothing and grants no lease, or it hands out a task that the scheduler has placed on the resource. -/
theorem pollWork_cases [F64 F] (e : Env) (r : ResourceId) (epoch : UInt64) (c : CoordinatorState F) :
    (Quiet c.fabric (pollWork e r epoch c).2.fabric ∧ ∀ a, (pollWork e r epoch c).1 ≠ .ok (some a)) ∨
    ∃ c' i a, c.fabric.resourceEpoch (e.sub 0) r = some epoch ∧
      onFabric (Fabric.refreshReadyRoles (e.sub 1)) c = (.ok (), c') ∧
      placedOn ((e.sub 3).sub i) c' r a.lease.taskId = true ∧ Assigned ((e.sub 3).sub i) c' r a ∧
      pollWork e r epoch c =
        (.ok (some a), { c' with fabric := c'.fabric.setStatus a.lease.taskId (.running a.lease) }) := by
  unfold pollWork
  rw [state_bind]
  cases hepoch : c.fabric.resourceEpoch (e.sub 0) r with
  | none => exact .inl ⟨refl_of Quiet _, fun a h => nomatch h⟩
  | some currentEpoch =>
    rw [okOr_some, pure_bind']
    split
    · exact .inl ⟨refl_of Quiet _, fun a h => nomatch h⟩
    rename_i hsame
    rw [ne_eq, not_not] at hsame
    cases hr : onFabric (Fabric.refreshReadyRoles (e.sub 1)) c with
    | mk result c' =>
      have hrefresh : Quiet c.fabric c'.fabric := (refreshed_grows hr).quiet
      cases result with
      | error err =>
        rw [bind_error hr]
        exact .inl ⟨hrefresh, fun a h => nomatch h⟩
      | ok u =>
        rw [bind_ok hr, state_bind]
        rcases offerWork_eq (e := e.sub 3) (c := c') (r := r) 0 (c'.fabric.pendingTaskIds (e.sub 2)) with
          ⟨-, heq⟩ | ⟨t, rest, visit, -, -, hplaced, heq⟩
        · rw [heq]
          exact .inl ⟨hrefresh, fun a h => nomatch h⟩
        · rw [heq]
          rcases assign_cases ((e.sub 3).sub visit) c' r t with ⟨err, hassign⟩ | ⟨a, hassigned, rfl, hassign⟩
          · rw [hassign]
            exact .inl ⟨hrefresh, fun a h => nomatch h⟩
          · exact .inr ⟨c', visit, a, by rw [hsame], rfl, hplaced, hassigned, hassign⟩

/-! ## Requests that grant no lease -/

/-- The request can grant or extend a lease. -/
def Request.Grants : Request F → Bool
  | .pollWork _ _ | .renewExecution _ => true
  | _ => false

/-- `Quiet`, of the fabric of the coordinator. -/
def QuietFabric (c c' : CoordinatorState F) : Prop := Quiet c.fabric c'.fabric

instance : IsPreorder (CoordinatorState F) QuietFabric where
  refl c := refl_of Quiet c.fabric
  trans _ _ _ hab hbc := trans_of Quiet hab hbc

theorem onFabric_quiet {α : Type} {m : FabricM F α} (h : m.Along Quiet) : (onFabric m).Along QuietFabric := by
  intro c
  unfold QuietFabric
  rw [onFabric_fabric]
  exact h c.fabric

theorem registerResource_quietFabric (e : Env) (descriptor : ResourceDescriptor F) (dataEndpoint : String) :
    (CoordinatorState.registerResource e descriptor dataEndpoint).Along QuietFabric := by
  intro c
  unfold CoordinatorState.registerResource
  cases normalizeEndpoint dataEndpoint with
  | error err => exact refl_of Quiet c.fabric
  | ok endpoint => exact registerResource_quiet e descriptor c.fabric

theorem reportLinkMeasurement_quietFabric [F64 F] (e : Env) (reporter : ResourceId) (epoch : UInt64) (peer : ResourceId)
    (measurement : LinkMeasurement F) : (reportLinkMeasurement e reporter epoch peer measurement).Along QuietFabric := by
  have htopology : ∀ f : Fabric F → Fabric F, (∀ s, (f s).tasks = s.tasks ∧ (f s).resources = s.resources) →
      (updateFabric f).Along QuietFabric := fun f hf =>
    along_update fun c => quiet_of_tasks (hf c.fabric).1 (keyed_of_eq (hf c.fabric).2)
  unfold reportLinkMeasurement
  split
  · exact along_fail _
  refine along_bind along_state fun c => along_bind (along_okOr _ _) fun currentEpoch => ?_
  split
  · exact along_fail _
  split
  · exact along_fail _
  split
  · exact along_pure _
  cases measurement with
  | unreachable => exact htopology _ fun _ => ⟨rfl, rfl⟩
  | reachable rttMs bandwidthMbps => exact along_bind (along_lift _) fun _ => htopology _ fun _ => ⟨rfl, rfl⟩

theorem maintenanceTick_quietFabric (e : Env) (c : CoordinatorState F) : QuietFabric c (maintenanceTick e c) := by
  have hexpire := expireResourcesAt_quiet (e.sub 0) e.clock c.fabric
  unfold QuietFabric maintenanceTick
  dsimp only
  rw [removeAll_fabric]
  exact trans_of Quiet hexpire (reapExpiredExecutionsAt_quiet (e.sub 1) e.clock _)

theorem registerReplica_quietFabric (e : Env) (o : ObjectId) (r : ResourceId) :
    (registerReplica (F := F) e o r).Along QuietFabric := by
  refine along_bind along_state fun c => ?_
  split
  · exact along_fail _
  · exact onFabric_quiet (Fabric.addObjectLocation_along (fun _ _ => quiet_of_tasks rfl (keyed_of_eq rfl)) o r)

variable [F64 F]

theorem serve_quiet (e : Env) (request : Request F) (h : request.Grants = false) : (serve e request).Along QuietFabric := by
  have grows : ∀ {α : Type} {m : FabricM F α}, m.Along Fabric.Grows → (onFabric m).Along QuietFabric :=
    fun hm => onFabric_quiet fun s => (hm s).quiet
  cases request with
  | registerResource descriptor dataEndpoint =>
    exact along_bind (registerResource_quietFabric e descriptor dataEndpoint) fun _ => along_pure _
  | heartbeat resource epoch => exact along_bind (onFabric_quiet (heartbeat_quiet e resource epoch)) fun _ => along_pure _
  | pollWork resource epoch => cases h
  | renewExecution lease => cases h
  | completeExecution lease outputs => exact onFabric_quiet (completeExecution_quiet e lease outputs)
  | publishObject object =>
    show (CoordinatorState.publishObject object).Along QuietFabric
    unfold CoordinatorState.publishObject
    split
    · exact along_fail _
    · exact grows (Fabric.publishObject_grows object)
  | registerReplica object resource => exact registerReplica_quietFabric e object resource
  | submitTask task => exact along_bind (grows (Fabric.keptByRoles_grows.submit task)) fun _ => along_pure _
  | submitCooperativeJob job => exact along_bind (grows (Fabric.submitCooperative_grows e job)) fun _ => along_pure _
  | submitPlannedJob preview job =>
    refine along_bind ?_ fun _ => along_pure _
    unfold submitPlannedJob
    split
    · exact along_fail _
    · exact grows (Fabric.submitLogical_grows e job)
    · exact grows (Fabric.submitLogical_grows e job)
  | updateLink link =>
    exact along_bind (along_lift _) fun _ => along_update fun c => quiet_of_tasks rfl (keyed_of_eq rfl)
  | reportLinkMeasurement reporter epoch peer measurement =>
    exact reportLinkMeasurement_quietFabric e reporter epoch peer measurement
  | maintenanceTick => exact along_update fun c => maintenanceTick_quietFabric e c

/-! ## What a poll promises -/

/-- The assignment that the visit `visit` of the loop makes in `c`: the resource polled with the epoch it is registered
with, is active, free and a cheapest one for the task, reaches every input, and each input comes with a replica. -/
structure Placed (visit : Env) (c : CoordinatorState ℚ) (r : ResourceId) (epoch : UInt64) (a : WorkAssignment ℚ) :
    Prop where
  lease : a.lease.resourceId = r ∧ a.lease.resourceEpoch = epoch
  pending : c.fabric.tasks.lookup a.lease.taskId = some ⟨a.task, .pending⟩
  free : Free c.fabric r (visit.sub 1).clock
  resource : ∃ resource, c.fabric.resources.lookup r = some resource ∧ resource.descriptor.epoch = epoch ∧
    (visit.sub 1).clock < resource.expiresAtUnixMs ∧
    resource.descriptor ∈ c.fabric.schedulableResources (visit.sub 0) ∧
    resource.descriptor.supports a.task.requirements = true ∧
    ∃ cost, Feasible c.fabric a.task resource.descriptor cost ∧
      ∀ other ∈ c.fabric.schedulableResources (visit.sub 0), ∀ cost', Feasible c.fabric a.task other cost' →
        cost.totalMs ≤ cost'.totalMs
  reaches : ∀ k id, a.task.inputs[k]? = some id → ∃ object, c.fabric.objects.lookup id = some object ∧
    Reaches c.fabric.topology r object (inputBytes a.task k object)
  replicas : List.Forall₂ (fun id input => c.fabric.objects.lookup id = some input.metadata ∧ input.replicas ≠ [])
    a.task.inputs a.inputs

theorem scheduled_of_placedOn {visit : Env} (h : placedOn visit c r t = true) :
    ∃ decision, c.fabric.scheduleTask (visit.sub 0) t = .ok decision ∧ decision.resourceId = r := by
  unfold placedOn at h
  split at h
  · rename_i decision hdecision
    exact ⟨decision, hdecision, of_decide_eq_true h⟩
  · cases h

/-- The resource a task is placed on is free, and free still when the lease is granted. -/
theorem free_of_placedOn {visit : Env} (he : visit.Steady) (h : placedOn visit c r t = true) :
    Free c.fabric r (visit.sub 1).clock := by
  obtain ⟨decision, hdecision, rfl⟩ := scheduled_of_placedOn h
  obtain ⟨record, -, hmin⟩ := scheduleTask_ok hdecision
  obtain ⟨descriptor, hsched, hid, -⟩ := mem_candidates.mp (minBy_mem hmin)
  rw [← hid]
  exact (free_of_schedulable hsched).later (he.sub_le Nat.zero_lt_one [] [])

theorem Assigned.placed {visit : Env} {c : CoordinatorState ℚ} {a : WorkAssignment ℚ} {epoch : UInt64}
    (he : visit.Steady) (hk : Keyed c.fabric) (hplaced : placedOn visit c r a.lease.taskId = true)
    (hepoch : ∀ resource, c.fabric.resources.lookup r = some resource → resource.descriptor.epoch = epoch)
    (h : Assigned visit c r a) : Placed visit c r epoch a := by
  have hfree := free_of_placedOn he hplaced
  obtain ⟨decision, hdecision, rfl⟩ := scheduled_of_placedOn hplaced
  obtain ⟨record, ht, hmin⟩ := scheduleTask_ok hdecision
  rw [h.pending] at ht
  cases ht
  obtain ⟨descriptor, hsched, hid, hfeasible⟩ := mem_candidates.mp (minBy_mem hmin)
  obtain ⟨resource, hr, rfl, -⟩ := registered_of_schedulable hk hsched
  rw [hid] at hr
  -- the lease was granted to the same registration
  obtain ⟨active, hactive, hlease⟩ := h.lease
  obtain ⟨hlookup, hlive⟩ := Option.filter_eq_some_iff.mp hactive
  rw [hr] at hlookup
  cases hlookup
  have hleast : ∀ other ∈ c.fabric.schedulableResources (visit.sub 0), ∀ cost', Feasible c.fabric a.task other cost' →
      decision.cost.totalMs ≤ cost'.totalMs := fun other hother cost' hother' =>
    minBy_le hmin ⟨other.id, cost'⟩ (mem_candidates.mpr ⟨other, hother, rfl, hother'⟩)
  refine ⟨⟨h.resource, hlease.trans (hepoch resource hr)⟩, h.pending, hfree, ?_, ?_, resolveInputs_ok h.inputs⟩
  · exact ⟨resource, hr, hepoch resource hr, of_decide_eq_true hlive, hsched, hfeasible.1, decision.cost, hfeasible, hleast⟩
  · rw [← hid]
    exact hfeasible.reaches

/-! ## Runs -/

theorem serve_keyed (e : Env) (request : Request F) (h : Keyed c.fabric) : Keyed (serve e request c).2.fabric := by
  cases hgrants : request.Grants with
  | false => exact (serve_quiet e request hgrants c).keyed h
  | true =>
    cases request with
    | pollWork r epoch =>
      have hx : serve e (.pollWork (F := F) r epoch) = (pollWork e r epoch >>= fun _ => pure ()) := rfl
      rcases pollWork_cases e r epoch c with ⟨hquiet, -⟩ | ⟨c', i, a, -, hrefresh, -, -, hpoll⟩
      · rw [hx, bind_pure_state]
        exact hquiet.keyed h
      · rw [hx, bind_pure_state, hpoll]
        exact keyed_of_eq (refreshed_grows hrefresh).resources h
    | renewExecution lease =>
      have hx : serve e (.renewExecution (F := F) lease) = (onFabric (Fabric.renewExecution e lease) >>= fun _ => pure ()) :=
        rfl
      rw [hx, bind_pure_state, onFabric_fabric]
      exact renewExecution_keyed e lease h
    | _ => cases hgrants

/-- **One request.** If no resource was booked twice before the request was served, none is at some reading of the clock
that the request took. -/
theorem serve_booked {e : Env} (he : e.Steady) (request : Request F) (hle : ∀ path, now ≤ e.now path)
    (h : SingleBooked c.fabric now) :
    ∃ now', (now' = now ∨ ∃ path, now' = e.now path) ∧ SingleBooked (serve e request c).2.fabric now' := by
  cases hgrants : request.Grants with
  | false => exact ⟨now, .inl rfl, (serve_quiet e request hgrants c).singleBooked h⟩
  | true =>
    cases request with
    | pollWork r epoch =>
      have hx : serve e (.pollWork (F := F) r epoch) = (pollWork e r epoch >>= fun _ => pure ()) := rfl
      rw [hx, bind_pure_state]
      rcases pollWork_cases e r epoch c with ⟨hquiet, -⟩ | ⟨c', i, a, -, hrefresh, hplaced, hassigned, hpoll⟩
      · exact ⟨now, .inl rfl, hquiet.singleBooked h⟩
      · rw [hpoll]
        have hfree := free_of_placedOn ((he.sub 3).sub i) hplaced
        refine ⟨(((e.sub 3).sub i).sub 1).clock, .inr ⟨[3, i, 1], rfl⟩, SingleBooked.grant ?_ ?_⟩
        · exact ((refreshed_grows hrefresh).quiet.singleBooked h).later (hle [3, i, 1])
        · intro t' lease _ hleased hr
          exact hfree t' lease hleased (hr.trans hassigned.resource)
    | renewExecution lease =>
      have hx : serve e (.renewExecution (F := F) lease) = (onFabric (Fabric.renewExecution e lease) >>= fun _ => pure ()) :=
        rfl
      rw [hx, bind_pure_state, onFabric_fabric]
      exact ⟨e.clock, .inr ⟨[], rfl⟩, renewExecution_booked e lease (h.later (hle []))⟩
    | _ => cases hgrants

/-- The moment is not before any reading of the clock that the first `n` requests take. -/
def NotBefore (e : Env) : Nat → UInt64 → Prop
  | 0, _ => True
  | n + 1, now => (∀ path, (e.sub 0).now path ≤ now) ∧ NotBefore (e.sub 1) n now

theorem run_booked : ∀ (requests : List (Request F)) (e : Env) (c : CoordinatorState F) (since : UInt64), e.Steady →
    (∀ path, since ≤ e.now path) → SingleBooked c.fabric since → since ≤ now → NotBefore e requests.length now →
    SingleBooked (run e c requests).fabric now
  | [], _, _, _, _, _, h, hnow, _ => h.later hnow
  | request :: requests, e, c, since, he, hsince, h, hnow, ⟨hfirst, hrest⟩ => by
    obtain ⟨since', hreading, hbooked⟩ := serve_booked (he.sub 0) request (fun path => hsince (0 :: path)) h
    refine run_booked requests (e.sub 1) _ since' (he.sub 1) ?_ hbooked ?_ hrest
    · intro path
      rcases hreading with rfl | ⟨path', rfl⟩
      · exact hsince (1 :: path)
      · exact he.sub_le Nat.zero_lt_one path' path
    · rcases hreading with rfl | ⟨path', rfl⟩
      · exact hnow
      · exact hfirst path'

theorem history_steady_keyed {e : Env} {requests : List (Request F)} (he : e.Steady) (hk : Keyed c.fabric) :
    ∀ served ∈ history e c requests, served = Served.of served.env served.before served.request ∧ served.env.Steady ∧
      Keyed served.before.fabric := by
  intro served hmem
  obtain ⟨hserved, -⟩ := history_rule (I := fun e c => e.Steady ∧ Keyed c.fabric)
    (fun e c request h => ⟨h.1.sub 1, serve_keyed (e.sub 0) request h.2⟩) requests e c ⟨he, hk⟩
  obtain ⟨e', heq, ⟨hsteady, hkeyed⟩, -⟩ := hserved served hmem
  have henv : served.env = e'.sub 0 := congrArg Served.env heq
  exact ⟨henv ▸ heq, henv ▸ hsteady.sub 0, hkeyed⟩

/-- **No resource is booked twice.** In every run of requests under a clock that does not go back, no resource has two
unexpired leases at any moment, and every assignment that a poll returns is sound. -/
theorem resources_single_booked (m x : UInt64) (e : Env) (he : e.Steady) (requests : List (Request ℚ)) :
    (∀ now, NotBefore e requests.length now → SingleBooked (run e (CoordinatorState.new m x) requests).fabric now) ∧
    ∀ served ∈ history e (CoordinatorState.new m x) requests, ∀ r epoch a, served.request = .pollWork r epoch →
      (pollWork served.env r epoch served.before).1 = .ok (some a) →
      ∃ c i, onFabric (Fabric.refreshReadyRoles (served.env.sub 1)) served.before = (.ok (), c) ∧
        Placed ((served.env.sub 3).sub i) c r epoch a ∧
        served.after.fabric = c.fabric.setStatus a.lease.taskId (.running a.lease) := by
  have hleases : ∀ t lease, ¬(Fabric.new (F := ℚ) m x).Leased t lease := by
    intro t lease h
    simp [Fabric.Leased, Fabric.taskStatus, Fabric.new] at h
  have hkeyed : Keyed (Fabric.new (F := ℚ) m x) := by
    intro r resource h
    simp [Fabric.new] at h
  constructor
  · intro now hnow
    exact run_booked requests e _ 0 he (fun _ => UInt64.zero_le) (fun t _ lease _ h => (hleases t lease h).elim)
      UInt64.zero_le hnow
  · intro served hmem r epoch a hrequest hassigns
    obtain ⟨hserved, hsteady, hk⟩ := history_steady_keyed (c := CoordinatorState.new m x) he hkeyed served hmem
    rcases pollWork_cases served.env r epoch served.before with
      ⟨-, hnone⟩ | ⟨c, i, a', hepoch, hrefresh, hplaced, hassigned, hpoll⟩
    · exact absurd hassigns (hnone a)
    · rw [hpoll] at hassigns
      cases hassigns
      have hresources := (refreshed_grows hrefresh).resources
      refine ⟨c, i, hrefresh, hassigned.placed ((hsteady.sub 3).sub i) ?_ hplaced fun resource hr => ?_, ?_⟩
      · exact keyed_of_eq hresources hk
      · rw [hresources] at hr
        obtain ⟨active, hactive, rfl⟩ := Option.map_eq_some_iff.mp hepoch
        rw [(Option.filter_eq_some_iff.mp hactive).1] at hr
        cases hr
        rfl
      · have hafter : served.after = (serve served.env served.request served.before).2 := congrArg Served.after hserved
        have hx : serve served.env (.pollWork r epoch) = (pollWork (F := ℚ) served.env r epoch >>= fun _ => pure ()) := rfl
        rw [hafter, hrequest, hx, bind_pure_state, hpoll]

/-- Two resources register, one of them holding an object; a task that reads it and one without inputs are submitted, and
both resources poll. -/
def bookedRequests : List (Request ℚ) :=
  [.registerResource (Sample.resource 1) "http://a", .registerResource (Sample.resource 2) "http://b",
    .publishObject ⟨⟨9⟩, 8, some ("sha256:" ++ String.ofList (List.replicate 64 'a')), none, [⟨1⟩], none⟩,
    .submitTask { Sample.task 5 with inputs := [⟨9⟩] }, .submitTask (Sample.task 7), .pollWork ⟨1⟩ 1, .pollWork ⟨2⟩ 1]

/-- What the requests leave. -/
def booked : CoordinatorState ℚ := run (Env.numbered fun _ => 0) (CoordinatorState.new 100 100) bookedRequests

theorem booked_leases : booked.fabric.taskStatus ⟨5⟩ = some (.running ⟨⟨5⟩, ⟨691540⟩, ⟨1⟩, 1, 100⟩) ∧
    booked.fabric.taskStatus ⟨7⟩ = some (.running ⟨⟨7⟩, ⟨1455444⟩, ⟨2⟩, 1, 100⟩) := by decide +kernel

theorem resources_single_booked_polled :
    ((∃ lease lease', booked.fabric.Leased ⟨5⟩ lease ∧ booked.fabric.Leased ⟨7⟩ lease' ∧ 0 < lease.expiresAtUnixMs ∧
        0 < lease'.expiresAtUnixMs) ∧ SingleBooked booked.fabric 0) ∧
    ∃ served ∈ history (Env.numbered fun _ => 0) (CoordinatorState.new 100 100) bookedRequests,
      ∃ a c i, (pollWork served.env ⟨1⟩ 1 served.before).1 = .ok (some a) ∧ a.task.inputs = [⟨9⟩] ∧
        (a.inputs.map (·.replicas.length)) = [1] ∧ Placed ((served.env.sub 3).sub i) c ⟨1⟩ 1 a := by
  have hsteady : (Env.numbered fun _ => 0).Steady := fun _ _ _ => UInt64.le_refl 0
  obtain ⟨hbooked, hsound⟩ := resources_single_booked 100 100 _ hsteady bookedRequests
  have hzero : ∀ path : List Nat, (fun _ : List Nat => (0 : UInt64)) path ≤ 0 := fun _ => UInt64.le_refl 0
  refine ⟨⟨⟨_, _, booked_leases.1, booked_leases.2, by decide, by decide⟩,
    hbooked 0 ⟨hzero, hzero, hzero, hzero, hzero, hzero, hzero, trivial⟩⟩, ?_⟩
  have hassigns : ((history (Env.numbered fun _ => 0) (CoordinatorState.new 100 100) bookedRequests)[5]?.bind fun served =>
      (pollWork served.env ⟨1⟩ 1 served.before).1.toOption.join).map (fun a =>
        (a.task.inputs, a.inputs.map (·.replicas.length))) = some ([⟨9⟩], [1]) := by decide +kernel
  obtain ⟨a, hbind, hinputs⟩ := Option.map_eq_some_iff.mp hassigns
  obtain ⟨served, hserved, hjoin⟩ := Option.bind_eq_some_iff.mp hbind
  obtain ⟨htask, hreplicas⟩ := Prod.mk.inj hinputs
  have hmem := List.mem_of_getElem? hserved
  have hrequest : served.request = .pollWork ⟨1⟩ 1 := by
    cases hserved
    rfl
  have hr : (pollWork served.env ⟨1⟩ 1 served.before).1 = .ok (some a) := by
    cases hpoll : (pollWork served.env ⟨1⟩ 1 served.before).1 with
    | error error => rw [hpoll] at hjoin; cases hjoin
    | ok assignment =>
      rw [hpoll] at hjoin
      exact congrArg Except.ok hjoin
  obtain ⟨c, i, -, hplaced, -⟩ := hsound served hmem ⟨1⟩ 1 a hrequest hr
  exact ⟨served, hmem, a, c, i, hr, htask, hreplicas, hplaced⟩

end Plurifold
