import Plurifold.Fabric.Lease

/-!
# Incarnations of a resource

A resource that registers again is a new incarnation and gets a new epoch, so that executions granted to the old one
can no longer commit. The epoch of a registration is one more than the stored one, but after an expiry or a removal
nothing is stored: the epoch then restarts from what the client sends. Leases outlive membership, so an old lease and
the new incarnation can share an epoch (`old_incarnation_commits`). As long as no registration does that
(`SeparatesEpochs`), the fence holds in every run (`old_incarnations_fenced`).
-/

namespace Plurifold

open Lib Attempt Fabric

variable {F : Type}

/-! ## What one call does to the epochs -/

namespace Fabric

theorem removeResource_lookup {id r : ResourceId} {s : Fabric F} {resource : RegisteredResource F}
    (h : (s.removeResource id).resources.lookup r = some resource) : s.resources.lookup r = some resource := by
  have hl : (s.removeResource id).resources.lookup r = if r = id then none else s.resources.lookup r :=
    Map.lookup_erase_eq _ _ _
  rw [hl] at h
  split at h
  · cases h
  · exact h

theorem removeAll_lookup {r : ResourceId} {resource : RegisteredResource F} : ∀ (ids : List ResourceId) (s : Fabric F),
    (ids.foldl (fun s id => s.removeResource id) s).resources.lookup r = some resource →
    s.resources.lookup r = some resource
  | [], _, h => h
  | _ :: ids, _, h => removeResource_lookup (removeAll_lookup ids _ h)

theorem heartbeat_lookup {e : Env} {id r : ResourceId} {epoch : UInt64} {s : Fabric F}
    {resource : RegisteredResource F} (h : (heartbeat e id epoch s).2.resources.lookup r = some resource) :
    ∃ known, s.resources.lookup r = some known ∧ known.descriptor.epoch = resource.descriptor.epoch := by
  unfold heartbeat at h
  simp only [state_bind] at h
  cases hl : s.resources.lookup id with
  | none => rw [hl] at h; exact ⟨resource, h, rfl⟩
  | some registered =>
    rw [hl] at h
    simp only [okOr_some, pure_bind'] at h
    split at h
    · exact ⟨resource, h, rfl⟩
    · simp only [update_bind, pure_apply, Map.lookup_insert_eq] at h
      split at h
      · rename_i hr
        cases h
        exact ⟨registered, hr ▸ hl, rfl⟩
      · exact ⟨resource, h, rfl⟩

end Fabric

/-- The resources are the same. -/
def SameResources (s s' : Fabric F) : Prop := s'.resources = s.resources

instance : IsPreorder (Fabric F) SameResources where
  refl _ := rfl
  trans _ _ _ hab hbc := hbc.trans hab

theorem keptByRoles_sameResources : KeptByRoles (SameResources (F := F)) :=
  keptByRoles_grows.mono fun _ _ h => h.resources

/-- A call keeps the epoch of a resource, removes the resource, or is a registration of it. -/
theorem event_epoch [F64 F] (e : Env) (s : Fabric F) (op : Op F) {r : ResourceId} {resource : RegisteredResource F}
    (h : (Event.of e s op).after.resources.lookup r = some resource) :
    (∃ known, s.resources.lookup r = some known ∧ known.descriptor.epoch = resource.descriptor.epoch) ∨
    ∃ descriptor, op = .registerResource descriptor ∧ descriptor.id = r ∧
      resource.descriptor.epoch = s.nextEpoch descriptor := by
  have same : SameResources s (Event.of e s op).after → ∃ known, s.resources.lookup r = some known ∧
      known.descriptor.epoch = resource.descriptor.epoch := by
    intro hs
    rw [SameResources] at hs
    exact ⟨resource, hs ▸ h, rfl⟩
  have along : ∀ {α : Type} {m : FabricM F α} {g : α → Reply}, m.Along SameResources →
      exec e op = (m >>= fun a => pure (g a)) → ∃ known, s.resources.lookup r = some known ∧
        known.descriptor.epoch = resource.descriptor.epoch := by
    intro α m g hm hx
    refine same ?_
    simp only [Event.of, hx, bind_pure_apply]
    exact hm s
  cases op with
  | setTopology topology => exact .inl (same rfl)
  | upsertLink link => exact .inl (same rfl)
  | removeLink a b => exact .inl (same rfl)
  | registerResource descriptor =>
    have hl : (Event.of e s (.registerResource descriptor)).after.resources.lookup r =
        if r = descriptor.id then some ⟨{ descriptor with epoch := s.nextEpoch descriptor },
          saturatingAdd e.clock s.membershipTtlMs⟩ else s.resources.lookup r := Map.lookup_insert_eq _ _ _ _
    rw [hl] at h
    split at h
    · rename_i hr
      cases h
      exact .inr ⟨descriptor, rfl, hr.symm, rfl⟩
    · exact .inl ⟨resource, h, rfl⟩
  | heartbeat id epoch =>
    simp only [Event.of, exec_heartbeat] at h
    exact .inl (heartbeat_lookup h)
  | unregisterResource id => exact .inl ⟨resource, removeResource_lookup h, rfl⟩
  | expireResourcesAt unixMs => exact .inl ⟨resource, removeAll_lookup _ _ h, rfl⟩
  | publishObject object =>
    exact .inl (along (g := fun _ => .unit) (publishObject_along (fun _ _ => rfl) object) rfl)
  | addObjectLocation object location =>
    exact .inl (along (g := fun _ => .unit) (addObjectLocation_along (fun _ _ => rfl) object location) rfl)
  | submit task => exact .inl (along (keptByRoles_sameResources.submit task) rfl)
  | submitCooperative job =>
    exact .inl (along (submitCooperative_along (fun _ _ => rfl) keptByRoles_sameResources e job) rfl)
  | submitLogical job =>
    exact .inl (along (submitLogical_along (fun _ _ => rfl) keptByRoles_sameResources e job) rfl)
  | beginExecution t r' => exact .inl (along (beginExecution_along (fun _ _ _ => rfl) e t r') rfl)
  | renewExecution lease => exact .inl (along (renewExecution_along (fun _ _ _ => rfl) e lease) rfl)
  | completeExecution lease outputs =>
    exact .inl (along (g := fun _ => .unit) (completeExecution_along (fun _ _ _ => rfl)
      (publishObject_along fun _ _ => rfl) keptByRoles_sameResources e lease outputs) rfl)
  | reapExpiredExecutionsAt unixMs => exact .inl (same (reapExpiredExecutionsAt_resources e unixMs s))
  | refreshReadyRoles =>
    exact .inl (along (g := fun _ => .unit) (refreshReadyRoles_along keptByRoles_sameResources e) rfl)

/-! ## The fence -/

/-- The lease `lease` was granted and its resource registered again later. -/
def Superseded (history : List (Event F)) (lease : ExecutionLease) : Prop :=
  ∃ pre granting mid registering post descriptor, history = pre ++ granting :: (mid ++ registering :: post) ∧
    granting.begun lease.taskId = some lease ∧ registering.op = .registerResource descriptor ∧
    descriptor.id = lease.resourceId

/-- In this run, no renewal or completion succeeds for an attempt that was granted to an old incarnation. -/
def FencesOldIncarnations (events : List (Event F)) : Prop :=
  ∀ pre ev post granted lease, events = pre ++ ev :: post → Superseded pre granted →
    ev.op.presented = some lease → lease.taskId = granted.taskId → lease.executionId = granted.executionId →
    ∃ err, ev.reply = .error err

/-- A registration does not get the epoch of a lease that is still stored as running on the resource. -/
def SeparatesEpochs (ev : Event F) : Prop :=
  ∀ descriptor, ev.op = .registerResource descriptor → ∀ t lease, ev.before.taskStatus t = some (.running lease) →
    lease.resourceId = descriptor.id → ev.before.nextEpoch descriptor ≠ lease.resourceEpoch

/-- The leases stored as running. -/
def runningLeases (s : Fabric F) : List ExecutionLease :=
  s.tasks.values.filterMap fun record => match record.status with
    | .running lease => some lease
    | _ => none

theorem mem_runningLeases {s : Fabric F} {lease : ExecutionLease} :
    lease ∈ runningLeases s ↔ ∃ t, s.taskStatus t = some (.running lease) := by
  constructor
  · intro h
    obtain ⟨record, hrecord, hst⟩ := List.mem_filterMap.mp h
    obtain ⟨t, hl⟩ := Map.mem_values.mp hrecord
    refine ⟨t, ?_⟩
    rw [taskStatus_of_lookup hl]
    split at hst
    · rename_i hrun; cases hst; rw [hrun]
    · cases hst
  · rintro ⟨t, hrun⟩
    obtain ⟨spec, hl⟩ := taskStatus_eq hrun
    exact List.mem_filterMap.mpr ⟨_, Map.mem_values.mpr ⟨t, hl⟩, rfl⟩

instance (ev : Event F) : Decidable (SeparatesEpochs ev) :=
  match hop : ev.op with
  | .registerResource descriptor =>
    decidable_of_iff (∀ lease ∈ runningLeases ev.before, lease.resourceId = descriptor.id →
        ev.before.nextEpoch descriptor ≠ lease.resourceEpoch) <| by
      constructor
      · intro h descriptor' hop' t lease hrun
        obtain rfl : descriptor = descriptor' := by rw [hop] at hop'; cases hop'; rfl
        exact h lease (mem_runningLeases.mpr ⟨t, hrun⟩)
      · intro h lease hlease
        obtain ⟨t, hrun⟩ := mem_runningLeases.mp hlease
        exact h descriptor hop t lease hrun
  | .setTopology _ | .upsertLink _ | .removeLink _ _ | .heartbeat _ _ | .unregisterResource _ | .expireResourcesAt _
  | .publishObject _ | .addObjectLocation _ _ | .submit _ | .submitCooperative _ | .submitLogical _
  | .beginExecution _ _ | .renewExecution _ | .completeExecution _ _ | .reapExpiredExecutionsAt _
  | .refreshReadyRoles => .isTrue fun descriptor h => by rw [hop] at h; cases h

/-- Attempts have identifiers of their own, and a stored attempt of an old incarnation differs from the registered one
in its epoch. -/
structure Fenced (e : Env) (history : List (Event F)) (s : Fabric F) : Prop where
  fresh : e.Fresh
  used : ∀ ev ∈ history, ∀ t lease, ev.begun t = some lease → ¬e.Mints lease.executionId.uuid
  stored : ∀ ev ∈ history, ∀ t granted current, ev.begun t = some granted →
    s.taskStatus t = some (.running current) → current.executionId = granted.executionId → SameAttempt current granted
  apart : ∀ granted current resource, Superseded history granted →
    s.taskStatus granted.taskId = some (.running current) → current.executionId = granted.executionId →
    s.resources.lookup granted.resourceId = some resource → resource.descriptor.epoch ≠ granted.resourceEpoch

theorem fenced_nil [F64 F] {e : Env} (he : e.Fresh) (m x : UInt64) : Fenced e ([] : List (Event F)) (Fabric.new m x) := by
  refine ⟨he, fun ev hev => absurd hev List.not_mem_nil, fun ev hev => absurd hev List.not_mem_nil, ?_⟩
  rintro granted current resource ⟨pre, granting, mid, registering, post, descriptor, h, -⟩
  simp at h

/-- A superseded lease was superseded before this call, or the call is the registration. -/
theorem superseded_append {history : List (Event F)} {ev : Event F} {granted : ExecutionLease}
    (h : Superseded (history ++ [ev]) granted) :
    Superseded history granted ∨
    ((∃ granting ∈ history, granting.begun granted.taskId = some granted) ∧
      ∃ descriptor, ev.op = .registerResource descriptor ∧ descriptor.id = granted.resourceId) := by
  obtain ⟨pre, granting, mid, registering, post, descriptor, heq, hb, hop, hid⟩ := h
  rcases List.eq_nil_or_concat post with rfl | ⟨post', last, rfl⟩
  · have heq' : history ++ [ev] = (pre ++ granting :: mid) ++ [registering] := by rw [heq]; simp
    obtain ⟨rfl, hev⟩ := List.append_inj' heq' rfl
    obtain rfl := List.singleton_inj.mp hev
    exact .inr ⟨⟨granting, by simp, hb⟩, descriptor, hop, hid⟩
  · have heq' : history ++ [ev] = (pre ++ granting :: (mid ++ registering :: post')) ++ [last] := by rw [heq]; simp
    obtain ⟨rfl, -⟩ := List.append_inj' heq' rfl
    exact .inl ⟨pre, granting, mid, registering, post', descriptor, rfl, hb, hop, hid⟩

theorem Superseded.granted {history : List (Event F)} {granted : ExecutionLease} (h : Superseded history granted) :
    ∃ granting ∈ history, granting.begun granted.taskId = some granted := by
  obtain ⟨pre, granting, mid, registering, post, descriptor, rfl, hb, -⟩ := h
  exact ⟨granting, by simp, hb⟩

section Step

variable {e : Env} {history : List (Event F)} {s : Fabric F} (h : Fenced e history s) (op : Op F)

include h

variable [F64 F]

/-- A running attempt was granted by this call, or was running the same attempt before it. -/
theorem Fenced.running_before {t : TaskId} {granted current : ExecutionLease} {granting : Event F}
    (hg : granting ∈ history) (hb : granting.begun t = some granted)
    (hc : (Event.of (e.sub 0) s op).after.taskStatus t = some (.running current))
    (hx : current.executionId = granted.executionId) :
    ∃ before, s.taskStatus t = some (.running before) ∧ SameAttempt current before := by
  obtain ⟨spec, hl⟩ := taskStatus_eq hc
  have hm := event_moves (e.sub 0) s op t
  rw [hl] at hm
  generalize hbefore : s.tasks.lookup t = r at hm
  cases hm with
  | stays => exact ⟨current, taskStatus_of_lookup hbefore, rfl, rfl, rfl⟩
  | begins spec lease hbegun =>
    -- the identifier of a new attempt is not that of an old one
    obtain ⟨-, -, -, -, -, hid, -⟩ := begun_cases hbegun
    refine absurd ?_ (h.used granting hg t granted hb)
    rw [← hx, hid]
    exact (Env.mints_newUuid (e.sub 0)).of_sub
  | renews spec lease before deadline => exact ⟨before, taskStatus_of_lookup hbefore, rfl, rfl, rfl⟩

theorem Fenced.stored_step (ev : Event F) (hev : ev ∈ history ++ [Event.of (e.sub 0) s op]) (t : TaskId)
    (granted current : ExecutionLease) (hb : ev.begun t = some granted)
    (hc : (Event.of (e.sub 0) s op).after.taskStatus t = some (.running current))
    (hx : current.executionId = granted.executionId) : SameAttempt current granted := by
  rcases List.mem_append.mp hev with hev | hev
  · obtain ⟨before, hbefore, hsame⟩ := h.running_before op hev hb hc hx
    have := h.stored ev hev t granted before hb hbefore (hsame.1.symm.trans hx)
    exact ⟨hx, hsame.2.trans this.2, hsame.3.trans this.3⟩
  · obtain rfl := List.mem_singleton.mp hev
    obtain ⟨-, spec, -, ht, hafter, -⟩ := begun_cases hb
    rw [hafter, taskStatus, setStatus_lookup, if_pos rfl, ht] at hc
    cases hc
    exact ⟨rfl, rfl, rfl⟩

theorem Fenced.apart_step (hsep : SeparatesEpochs (Event.of (e.sub 0) s op)) (granted current : ExecutionLease)
    (resource : RegisteredResource F) (hsup : Superseded (history ++ [Event.of (e.sub 0) s op]) granted)
    (hc : (Event.of (e.sub 0) s op).after.taskStatus granted.taskId = some (.running current))
    (hx : current.executionId = granted.executionId)
    (hr : (Event.of (e.sub 0) s op).after.resources.lookup granted.resourceId = some resource) :
    resource.descriptor.epoch ≠ granted.resourceEpoch := by
  have hgranted : ∃ granting ∈ history, granting.begun granted.taskId = some granted :=
    (superseded_append hsup).elim (·.granted) (·.1)
  obtain ⟨granting, hg, hb⟩ := hgranted
  obtain ⟨before, hbefore, hsame⟩ := h.running_before op hg hb hc hx
  have hid : before.executionId = granted.executionId := hsame.1.symm.trans hx
  have hstored := h.stored granting hg _ granted before hb hbefore hid
  rcases event_epoch (e.sub 0) s op hr with ⟨known, hk, hke⟩ | ⟨descriptor, hop, hdid, hde⟩
  · rcases superseded_append hsup with hold | ⟨-, descriptor, hop, hdid⟩
    · rw [← hke]
      exact h.apart granted before known hold hbefore hid hk
    · -- the registration itself wrote the epoch
      have hreg : (Event.of (e.sub 0) s op).after.resources.lookup granted.resourceId =
          some ⟨{ descriptor with epoch := s.nextEpoch descriptor },
            saturatingAdd (e.sub 0).clock s.membershipTtlMs⟩ := by
        obtain rfl : op = .registerResource descriptor := hop
        rw [← hdid]
        exact AList.lookup_insert _
      rw [hreg] at hr
      cases hr
      have := hsep descriptor hop _ before hbefore (hstored.2.trans hdid.symm)
      rwa [hstored.3] at this
  · have := hsep descriptor hop _ before hbefore (hstored.2.trans hdid.symm)
    rw [hstored.3] at this
    rwa [hde]

theorem Fenced.step (hsep : SeparatesEpochs (Event.of (e.sub 0) s op)) :
    Fenced (e.sub 1) (history ++ [Event.of (e.sub 0) s op]) (Event.of (e.sub 0) s op).after where
  fresh := h.fresh.sub 1
  used ev hev t lease hb := by
    rcases List.mem_append.mp hev with hev | hev
    · exact fun hm => h.used ev hev t lease hb hm.of_sub
    · obtain rfl := List.mem_singleton.mp hev
      obtain ⟨-, -, -, -, -, hid, -⟩ := begun_cases hb
      rw [hid]
      intro hm
      exact absurd (h.fresh.sub_inj hm (Env.mints_newUuid (e.sub 0))) (by decide)
  stored := h.stored_step op
  apart := h.apart_step op hsep

end Step

/-- **No commit from an old incarnation**, in every run whose registrations keep the epochs of the running leases
apart. -/
theorem old_incarnations_fenced [F64 F] (e : Env) (he : e.Fresh) (m x : UInt64) (ops : List (Op F))
    (hsep : ∀ ev ∈ trace e (Fabric.new m x) ops, SeparatesEpochs ev) :
    FencesOldIncarnations (trace e (Fabric.new m x) ops) := by
  intro pre ev post granted lease htrace hsup hop ht hx
  obtain ⟨e', hev, hfenced, -⟩ := trace_rule (I := Fenced) (C := SeparatesEpochs)
    (fun _ _ _ op hI hC => hI.step op hC) ops e [] (Fabric.new m x) pre (fenced_nil he m x) hsep htrace
  rw [List.nil_append] at hfenced
  have hcases := presented_cases (e'.sub 0) ev.before hop
  rw [← hev] at hcases
  rcases hcases with ⟨hreply, -⟩ | ⟨current, hc⟩
  · exact hreply
  · -- the stored attempt is the granted one, whose epoch the registered incarnation does not have
    obtain ⟨resource, record, hr, hep, hl, hst, hid, -, hown, hown'⟩ := currentLease_ok hc
    obtain ⟨hreg, -⟩ := activeResource_eq hr
    have hrun : ev.before.taskStatus granted.taskId = some (.running current) := by
      rw [← ht, taskStatus_of_lookup hl, hst]
    obtain ⟨granting, hg, hb⟩ := hsup.granted
    have hsame := hfenced.stored granting hg _ granted current hb hrun (hid.trans hx)
    have hapart := hfenced.apart granted current resource hsup hrun (hid.trans hx)
      (by rw [← hsame.2, hown]; exact hreg)
    exact absurd (hep.trans (hown'.symm.trans hsame.3)) hapart

/-! ## The hole in the fence -/

/-- The lease granted by the third call of the runs below. -/
def sampleLease : ExecutionLease where
  taskId := ⟨7⟩
  executionId := ⟨52⟩
  resourceId := ⟨1⟩
  resourceEpoch := 1
  expiresAtUnixMs := 102

/-- A resource expires while it executes a task, and registers again. -/
def expiredAndBack : List (Op ℚ) :=
  [.registerResource (Sample.resource 1), .submit (Sample.task 7), .beginExecution ⟨7⟩ ⟨1⟩, .expireResourcesAt 3,
    .registerResource (Sample.resource 1), .completeExecution sampleLease []]

/-- The same without the expiry. -/
def registeredTwice : List (Op ℚ) :=
  [.registerResource (Sample.resource 1), .submit (Sample.task 7), .beginExecution ⟨7⟩ ⟨1⟩,
    .registerResource (Sample.resource 1), .completeExecution sampleLease []]

/-- The epoch restarts after the expiry, so the lease of the old incarnation commits. -/
theorem old_incarnation_commits :
    ¬FencesOldIncarnations (trace (Env.numbered Sample.clock) (Fabric.new 3 100) expiredAndBack) := by
  intro h
  obtain ⟨err, herr⟩ := h [_, _, _, _, _] _ [] sampleLease sampleLease rfl
    ⟨[_, _], _, [_], _, [], Sample.resource 1, rfl, by decide, rfl, rfl⟩ rfl rfl rfl
  have hok := congrArg Except.isOk herr
  change _ = false at hok
  exact absurd hok (by decide)

/-- Without the expiry the second registration gets the next epoch and the old lease is refused. -/
theorem old_incarnations_fenced_registeredTwice :
    FencesOldIncarnations (trace (Env.numbered Sample.clock) (Fabric.new 3 100) registeredTwice) :=
  old_incarnations_fenced _ (Env.fresh_numbered _) 3 100 registeredTwice (by decide)

end Plurifold
