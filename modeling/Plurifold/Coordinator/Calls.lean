import Plurifold.Coordinator.Booking
import Plurifold.Lib.Reroute

/-!
# The coordinator as a client of the fabric

`respond` is the handling of a request with its answer. A request makes a few calls on the fabric (`Request.Makes`) and
lends each a part of its own world; what the request does to the fabric is what these calls do (`respond_calls`). So a
run of the coordinator is a run of the fabric, in a world spliced of the parts that the calls were lent
(`coordinator_refines_fabric`), and what is proved of all runs of the fabric holds of the coordinator's.
-/

namespace Plurifold

open Lib Attempt CoordinatorState

variable {F : Type} {c : CoordinatorState F} {s s' : Fabric F}

/-! ## Answers -/

variable [F64 F]

/-- The body of a successful response. -/
inductive ResponseBody (F : Type)
  | membership (lease : MembershipLease)
  | work (assignment : Option (WorkAssignment F))
  | execution (lease : ExecutionLease)
  | task (id : TaskId)
  | job (id : JobId)
  | noContent

/-- What the answer passes on of what a call returned. -/
def ResponseBody.reply : ResponseBody F → Option Reply
  | .membership lease => some (.membership lease)
  | .work (some assignment) => some (.lease assignment.lease)
  | .execution lease => some (.lease lease)
  | .task id => some (.task id)
  | .job id => some (.job id)
  | .work none | .noContent => none

namespace CoordinatorState

/-- The handling of a request, with its answer. -/
def respond (e : Env) : Request F → CoordinatorM F (ResponseBody F)
  | .registerResource descriptor dataEndpoint => do return .membership (← registerResource e descriptor dataEndpoint)
  | .heartbeat resource epoch => do return .membership (← onFabric (Fabric.heartbeat e resource epoch))
  | .pollWork resource epoch => do return .work (← pollWork e resource epoch)
  | .renewExecution lease => do return .execution (← onFabric (Fabric.renewExecution e lease))
  | .completeExecution lease outputs => do onFabric (Fabric.completeExecution e lease outputs); pure .noContent
  | .publishObject object => do publishObject object; pure .noContent
  | .registerReplica object resource => do registerReplica e object resource; pure .noContent
  | .submitTask task => do return .task (← onFabric (Fabric.submit task))
  | .submitCooperativeJob job => do return .job (← onFabric (Fabric.submitCooperative e job))
  | .submitPlannedJob preview job => do return .job (← submitPlannedJob e preview job)
  | .updateLink link => do updateLink link; pure .noContent
  | .reportLinkMeasurement reporter reporterEpoch peer measurement => do
    reportLinkMeasurement e reporter reporterEpoch peer measurement
    pure .noContent
  | .maintenanceTick => do update (maintenanceTick e); pure .noContent

/-- `serve` is `respond` without the answer. -/
theorem serve_respond (e : Env) (request : Request F) (c : CoordinatorState F) :
    serve e request c = ((respond e request c).1.map fun _ => (), (respond e request c).2) := by
  have wrapped : ∀ {α : Type} (m : CoordinatorM F α) (g : α → ResponseBody F), serve e request = (m >>= fun _ => pure ()) →
      respond e request = (m >>= fun a => pure (g a)) →
      serve e request c = ((respond e request c).1.map fun _ => (), (respond e request c).2) := by
    intro α m g hserve hrespond
    rw [hserve, hrespond, bind_pure_apply m (fun _ => ()), bind_pure_apply m g]
    cases (m c).1 <;> rfl
  have plain : ∀ m : CoordinatorM F Unit, serve e request = m →
      respond e request = (m >>= fun _ => pure .noContent) →
      serve e request c = ((respond e request c).1.map fun _ => (), (respond e request c).2) := by
    intro m hserve hrespond
    rw [hserve, hrespond, bind_pure_apply m fun _ => ResponseBody.noContent]
    cases h : m c with
    | mk r c' => cases r <;> rfl
  cases request with
  | registerResource | heartbeat | pollWork | renewExecution | submitTask | submitCooperativeJob | submitPlannedJob =>
    exact wrapped _ _ rfl rfl
  | completeExecution | publishObject | registerReplica | updateLink | reportLinkMeasurement | maintenanceTick =>
    exact plain _ rfl rfl

theorem respond_state (e : Env) (request : Request F) (c : CoordinatorState F) :
    (respond e request c).2 = (serve e request c).2 := by rw [serve_respond]

end CoordinatorState

/-! ## Calls -/

/-- The calls that a request can make on the fabric, in its world. -/
def Request.Makes (e : Env) : Request F → Op F → Prop
  | .registerResource descriptor _, op => op = .registerResource descriptor
  | .heartbeat resource epoch, op => op = .heartbeat resource epoch
  | .pollWork resource _, op => op = .refreshReadyRoles ∨ ∃ t, op = .beginExecution t resource
  | .renewExecution lease, op => op = .renewExecution lease
  | .completeExecution lease outputs, op => op = .completeExecution lease outputs
  | .publishObject object, op => op = .publishObject object
  | .registerReplica object resource, op => op = .addObjectLocation object resource
  | .submitTask task, op => op = .submit task
  | .submitCooperativeJob job, op => op = .submitCooperative job
  | .submitPlannedJob _ job, op => op = .submitLogical job
  | .updateLink link, op => op = .upsertLink link
  | .reportLinkMeasurement reporter _ peer _, op =>
    (∃ rttMs bandwidthMbps, op = .upsertLink ⟨reporter, peer, rttMs, bandwidthMbps⟩) ∨ op = .removeLink reporter peer
  | .maintenanceTick, op => op = .expireResourcesAt e.clock ∨ op = .reapExpiredExecutionsAt e.clock

/-- A call with the part of the caller's world that it is lent. -/
structure Call (F : Type) where
  part : List Nat
  op : Op F

/-- The same call, seen from a world of which the caller's is part `i`. -/
def Call.lift (i : Nat) (call : Call F) : Call F := { call with part := i :: call.part }

namespace Fabric

/-- The events of calls made one after the other. -/
def events (e : Env) : List (Call F) → Fabric F → List (Event F)
  | [], _ => []
  | call :: calls, s =>
    Event.of (e.under call.part) s call.op :: events e calls (Event.of (e.under call.part) s call.op).after

/-- The fabric after calls made one after the other. -/
def perform (e : Env) : List (Call F) → Fabric F → Fabric F
  | [], s => s
  | call :: calls, s => perform e calls (Event.of (e.under call.part) s call.op).after

theorem events_append (e : Env) : ∀ (calls later : List (Call F)) (s : Fabric F),
    events e (calls ++ later) s = events e calls s ++ events e later (perform e calls s)
  | [], _, _ => rfl
  | _ :: calls, later, _ => congrArg (List.cons _) (events_append e calls later _)

theorem perform_append (e : Env) : ∀ (calls later : List (Call F)) (s : Fabric F),
    perform e (calls ++ later) s = perform e later (perform e calls s)
  | [], _, _ => rfl
  | _ :: calls, later, _ => perform_append e calls later _

theorem events_lift (e : Env) (i : Nat) : ∀ (calls : List (Call F)) (s : Fabric F),
    events e (calls.map (Call.lift i)) s = events (e.sub i) calls s
  | [], _ => rfl
  | _ :: calls, _ => congrArg (List.cons _) (events_lift e i calls _)

theorem perform_lift (e : Env) (i : Nat) : ∀ (calls : List (Call F)) (s : Fabric F),
    perform e (calls.map (Call.lift i)) s = perform (e.sub i) calls s
  | [], _ => rfl
  | _ :: calls, _ => perform_lift e i calls _

theorem events_ops (e : Env) : ∀ (calls : List (Call F)) (s : Fabric F), (events e calls s).map (·.op) = calls.map (·.op)
  | [], _ => rfl
  | _ :: calls, _ => congrArg (List.cons _) (events_ops e calls _)

/-- In the spliced world, a run of the fabric makes the same calls to the same effect. -/
theorem trace_splice {e : Env} : ∀ (calls : List (Call F)) (spare : List Nat) (s : Fabric F),
    trace (e.splice spare (calls.map (·.part))) s (calls.map (·.op)) = events e calls s ∧
      final (e.splice spare (calls.map (·.part))) s (calls.map (·.op)) = perform e calls s
  | [], _, _ => ⟨rfl, rfl⟩
  | call :: calls, spare, s => by
    obtain ⟨htrace, hfinal⟩ := trace_splice (e := e) calls (spare ++ [1])
      (Event.of (e.under call.part) s call.op).after
    simp only [List.map_cons, trace, final, Env.splice_first, Env.splice_rest]
    exact ⟨congrArg (List.cons _) htrace, hfinal⟩

end Fabric

open Fabric

/-- The events lead from one state of the fabric to the other. -/
def Links : Fabric F → List (Event F) → Fabric F → Prop
  | s, [], s' => s' = s
  | s, ev :: events, s' => ev.before = s ∧ Links ev.after events s'

theorem links_events (e : Env) : ∀ (calls : List (Call F)) (s : Fabric F), Links s (events e calls s) (perform e calls s)
  | [], _ => rfl
  | _ :: calls, _ => ⟨rfl, links_events e calls _⟩

/-- What a request does to the fabric: the calls `calls` in the parts they are lent, one of which returned what the
answer passes on. -/
structure Implements (e : Env) (request : Request F) (c : CoordinatorState F) (calls : List (Call F)) : Prop where
  makes : ∀ call ∈ calls, request.Makes e call.op
  inOrder : (calls.map (·.part)).Pairwise Env.Before
  fabric : (respond e request c).2.fabric = perform e calls c.fabric
  reports : ∀ answer reply, (respond e request c).1 = .ok answer → answer.reply = some reply →
    ∃ ev ∈ events e calls c.fabric, ev.reply = .ok reply

/-- A request that makes no call. -/
theorem Implements.none {e : Env} {request : Request F} (hfabric : (respond e request c).2.fabric = c.fabric)
    (hanswer : ∀ answer, (respond e request c).1 = .ok answer → answer.reply = none) : Implements e request c [] where
  makes := fun _ h => (List.not_mem_nil h).elim
  inOrder := .nil
  fabric := hfabric
  reports := fun answer reply hok hreply => by
    rw [hanswer answer hok] at hreply
    cases hreply

/-- A request that makes one call, in its own world. -/
theorem Implements.one {e : Env} {request : Request F} (op : Op F) (hmakes : request.Makes e op)
    (hfabric : (respond e request c).2.fabric = (exec e op c.fabric).2)
    (hreports : ∀ answer reply, (respond e request c).1 = .ok answer → answer.reply = some reply →
      (exec e op c.fabric).1 = .ok reply) : Implements e request c [⟨[], op⟩] where
  makes := fun call hcall => by
    rw [List.mem_singleton.mp hcall]
    exact hmakes
  inOrder := List.pairwise_singleton ..
  fabric := hfabric
  reports := fun answer reply hok hreply => ⟨_, List.mem_singleton_self _, hreports answer reply hok hreply⟩

/-- A request that passes a call on to the fabric and wraps what it returns. -/
theorem Implements.wrapped {e : Env} {request : Request F} (op : Op F) {α : Type} {m : FabricM F α} {g : α → ResponseBody F}
    {h : α → Reply} (hrespond : respond e request = (onFabric m >>= fun a => pure (g a)))
    (hexec : exec e op = (m >>= fun a => pure (h a))) (hmakes : request.Makes e op)
    (hreply : ∀ a reply, (g a).reply = some reply → reply = h a) : Implements e request c [⟨[], op⟩] := by
  refine .one op hmakes ?_ fun answer reply hok hanswer => ?_
  · rw [hrespond, bind_pure_apply _ g, onFabric_fabric, hexec, bind_pure_apply _ h]
  · rw [hrespond, bind_pure_apply _ g] at hok
    rw [hexec, bind_pure_apply _ h]
    dsimp only at hok ⊢
    have hx : (onFabric m c).1 = (m c.fabric).1.mapError ApiError.fromFabric := by
      unfold onFabric zoom
      cases hm : m c.fabric with
      | mk r s => cases r <;> rfl
    rw [hx] at hok
    cases hm : (m c.fabric).1 with
    | error err =>
      rw [hm] at hok
      cases hok
    | ok a =>
      rw [hm] at hok
      cases hok
      rw [hreply a reply hanswer]
      rfl

/-- A request whose answer has no content passes nothing on. -/
theorem Implements.silent {e : Env} {request : Request F} {m : CoordinatorM F Unit} {calls : List (Call F)}
    (hrespond : respond e request = (m >>= fun _ => pure .noContent)) (hmakes : ∀ call ∈ calls, request.Makes e call.op)
    (hinOrder : (calls.map (·.part)).Pairwise Env.Before) (hfabric : (m c).2.fabric = perform e calls c.fabric) :
    Implements e request c calls := by
  refine ⟨hmakes, hinOrder, by rw [hrespond, bind_pure_state, hfabric], fun answer reply hok hreply => ?_⟩
  rw [hrespond, bind_pure_apply m fun _ => ResponseBody.noContent] at hok
  dsimp only at hok
  cases hr : (m c).1 with
  | error err =>
    rw [hr] at hok
    cases hok
  | ok u =>
    rw [hr] at hok
    cases hok
    cases hreply

/-! ## Each request -/

omit [F64 F] in
theorem registerResource_cases (e : Env) (descriptor : ResourceDescriptor F) (dataEndpoint : String)
    (c : CoordinatorState F) :
    (∃ err, CoordinatorState.registerResource e descriptor dataEndpoint c = (.error err, c)) ∨
    ∃ endpoint, normalizeEndpoint dataEndpoint = .ok endpoint ∧
      CoordinatorState.registerResource e descriptor dataEndpoint c = (.ok (Fabric.registerResource e descriptor c.fabric).1,
        { c with
          fabric := (Fabric.registerResource e descriptor c.fabric).2
          dataEndpoints := c.dataEndpoints.insert descriptor.id endpoint }) := by
  unfold CoordinatorState.registerResource
  cases normalizeEndpoint dataEndpoint with
  | error err => exact .inl ⟨err, rfl⟩
  | ok endpoint => exact .inr ⟨endpoint, rfl, rfl⟩

theorem registerResource_implements (e : Env) (descriptor : ResourceDescriptor F) (dataEndpoint : String)
    (c : CoordinatorState F) : ∃ calls, Implements e (.registerResource descriptor dataEndpoint) c calls := by
  have hrespond : respond e (.registerResource descriptor dataEndpoint) =
      (CoordinatorState.registerResource e descriptor dataEndpoint >>= fun lease => pure (ResponseBody.membership (F := F) lease)) :=
    rfl
  rcases registerResource_cases e descriptor dataEndpoint c with ⟨err, hrun⟩ | ⟨endpoint, -, hrun⟩
  · have hrefused : respond e (.registerResource descriptor dataEndpoint) c = (.error err, c) := by
      rw [hrespond, bind_apply, hrun]
    refine ⟨[], .none (congrArg (fun r => r.2.fabric) hrefused) fun answer hok => ?_⟩
    rw [hrefused] at hok
    cases hok
  · have haccepted : respond e (.registerResource descriptor dataEndpoint) c =
        (.ok (.membership (Fabric.registerResource e descriptor c.fabric).1),
          { c with
            fabric := (Fabric.registerResource e descriptor c.fabric).2
            dataEndpoints := c.dataEndpoints.insert descriptor.id endpoint }) := by
      rw [hrespond, bind_apply, hrun]
      rfl
    refine ⟨_, .one (.registerResource descriptor) rfl (congrArg (fun r => r.2.fabric) haccepted)
      fun answer reply hok hreply => ?_⟩
    rw [haccepted] at hok
    cases hok
    cases hreply
    rfl

theorem publishObject_implements (e : Env) (object : ObjectMetadata) (c : CoordinatorState F) :
    ∃ calls, Implements e (.publishObject object) c calls := by
  by_cases hdigest : object.digest.isNone
  · refine ⟨[], .silent (m := CoordinatorState.publishObject object) rfl (fun _ h => (List.not_mem_nil h).elim) .nil ?_⟩
    unfold CoordinatorState.publishObject
    rw [if_pos hdigest, fail_apply]
    rfl
  · refine ⟨[⟨[], .publishObject object⟩], .silent (m := CoordinatorState.publishObject object) rfl ?_
      (List.pairwise_singleton ..) ?_⟩
    · intro call hcall
      rw [List.mem_singleton.mp hcall]
      rfl
    · unfold CoordinatorState.publishObject
      rw [if_neg hdigest, onFabric_fabric]
      exact (congrArg Prod.snd (exec_publishObject (e.under []) c.fabric object)).symm

theorem registerReplica_implements (e : Env) (o : ObjectId) (r : ResourceId) (c : CoordinatorState F) :
    ∃ calls, Implements e (.registerReplica o r) c calls := by
  by_cases hactive : (c.fabric.resourceEpoch e r).isNone
  · refine ⟨[], .silent (m := registerReplica e o r) rfl (fun _ h => (List.not_mem_nil h).elim) .nil ?_⟩
    unfold registerReplica
    rw [state_bind, if_pos hactive, fail_apply]
    rfl
  · refine ⟨[⟨[], .addObjectLocation o r⟩], .silent (m := registerReplica e o r) rfl ?_ (List.pairwise_singleton ..) ?_⟩
    · intro call hcall
      rw [List.mem_singleton.mp hcall]
      rfl
    · unfold registerReplica
      rw [state_bind, if_neg hactive, onFabric_fabric]
      exact (bind_pure_state (Fabric.addObjectLocation o r) Reply.unit c.fabric).symm

theorem submitPlannedJob_implements (e : Env) (preview : Except PlanError Unit) (job : LogicalJobSpec F)
    (c : CoordinatorState F) : ∃ calls, Implements e (.submitPlannedJob preview job) c calls := by
  have accepted : submitPlannedJob e preview job = onFabric (Fabric.submitLogical e job) →
      ∃ calls, Implements e (.submitPlannedJob preview job) c calls := by
    intro h
    have hrespond : respond e (.submitPlannedJob preview job) =
        (submitPlannedJob e preview job >>= fun j => pure (ResponseBody.job (F := F) j)) := rfl
    rw [h] at hrespond
    exact ⟨_, .wrapped (.submitLogical job) (h := .job) hrespond rfl rfl fun j reply hreply => by
      cases hreply
      rfl⟩
  cases preview with
  | ok u => exact accepted rfl
  | error err =>
    cases err with
    | noFeasibleImplementation role => exact accepted rfl
    | invalidLogicalJob message =>
      refine ⟨[], .none rfl fun answer hok => ?_⟩
      cases hok

theorem updateLink_implements (e : Env) (link : LinkProfile F) (c : CoordinatorState F) :
    ∃ calls, Implements e (.updateLink link) c calls := by
  cases hv : validateLink link with
  | error err =>
    refine ⟨[], .silent (m := updateLink link) rfl (fun _ h => (List.not_mem_nil h).elim) .nil ?_⟩
    unfold updateLink
    rw [hv, lift_error, fail_bind]
    rfl
  | ok u =>
    refine ⟨[⟨[], .upsertLink link⟩], .silent (m := updateLink link) rfl ?_ (List.pairwise_singleton ..) ?_⟩
    · intro call hcall
      rw [List.mem_singleton.mp hcall]
      rfl
    · unfold updateLink
      rw [hv, lift_ok, pure_bind']
      rfl

theorem reportLinkMeasurement_cases (e : Env) (reporter : ResourceId) (epoch : UInt64) (peer : ResourceId)
    (measurement : LinkMeasurement F) (c : CoordinatorState F) :
    let after := (reportLinkMeasurement e reporter epoch peer measurement c).2.fabric
    after = c.fabric ∨ (∃ rttMs bandwidthMbps, after = c.fabric.upsertLink ⟨reporter, peer, rttMs, bandwidthMbps⟩) ∨
      after = c.fabric.removeLink reporter peer := by
  unfold reportLinkMeasurement
  split
  · exact .inl rfl
  rw [state_bind]
  cases c.fabric.resourceEpoch (e.sub 0) reporter with
  | none => exact .inl rfl
  | some currentEpoch =>
    rw [okOr_some, pure_bind']
    split
    · exact .inl rfl
    split
    · exact .inl rfl
    split
    · exact .inl rfl
    cases measurement with
    | unreachable => exact .inr (.inr rfl)
    | reachable rttMs bandwidthMbps =>
      dsimp only
      cases validateLink { fromResource := reporter, toResource := peer, rttMs, bandwidthMbps } with
      | error err => exact .inl rfl
      | ok u => exact .inr (.inl ⟨rttMs, bandwidthMbps, rfl⟩)

theorem reportLinkMeasurement_implements (e : Env) (reporter : ResourceId) (epoch : UInt64) (peer : ResourceId)
    (measurement : LinkMeasurement F) (c : CoordinatorState F) :
    ∃ calls, Implements e (.reportLinkMeasurement reporter epoch peer measurement) c calls := by
  have hrespond : respond e (.reportLinkMeasurement reporter epoch peer measurement) =
      (reportLinkMeasurement e reporter epoch peer measurement >>= fun _ => pure (ResponseBody.noContent (F := F))) := rfl
  have one : ∀ op : Op F, (Request.reportLinkMeasurement reporter epoch peer measurement).Makes e op →
      (reportLinkMeasurement e reporter epoch peer measurement c).2.fabric = (exec (e.under []) op c.fabric).2 →
      ∃ calls, Implements e (.reportLinkMeasurement reporter epoch peer measurement) c calls := by
    intro op hmakes hafter
    refine ⟨[⟨[], op⟩], .silent hrespond ?_ (List.pairwise_singleton ..) hafter⟩
    intro call hcall
    rw [List.mem_singleton.mp hcall]
    exact hmakes
  rcases reportLinkMeasurement_cases e reporter epoch peer measurement c with hsame | ⟨rtt, bandwidth, hupsert⟩ | hremove
  · exact ⟨[], .silent hrespond (fun _ h => (List.not_mem_nil h).elim) .nil hsame⟩
  · exact one (.upsertLink ⟨reporter, peer, rtt, bandwidth⟩) (.inl ⟨rtt, bandwidth, rfl⟩) hupsert
  · exact one (.removeLink reporter peer) (.inr rfl) hremove

theorem maintenanceTick_implements (e : Env) (c : CoordinatorState F) : ∃ calls, Implements e .maintenanceTick c calls := by
  refine ⟨[⟨[0], .expireResourcesAt e.clock⟩, ⟨[1], .reapExpiredExecutionsAt e.clock⟩],
    .silent (m := update (maintenanceTick e)) rfl ?_ ?_ ?_⟩
  · intro call hcall
    simp only [List.mem_cons, List.not_mem_nil, or_false] at hcall
    rcases hcall with rfl | rfl
    · exact .inl rfl
    · exact .inr rfl
  · exact List.pairwise_pair.mpr (.inl Nat.zero_lt_one)
  · simp only [update_apply, maintenanceTick]
    rw [removeAll_fabric]
    rfl

omit [F64 F] in
/-- Handing out a task is a call of `begin_execution`. -/
theorem assign_calls (visit : Env) (c : CoordinatorState F) (r : ResourceId) (t : TaskId) :
    (∃ err, assign visit c r t c = (.error err, c)) ∨
    ∃ a, Fabric.beginExecution (visit.sub 1) t r c.fabric = (.ok a.lease, c.fabric.setStatus t (.running a.lease)) ∧
      assign visit c r t c = (.ok (some a), { c with fabric := c.fabric.setStatus t (.running a.lease) }) := by
  unfold assign
  cases c.fabric.taskSpec t with
  | none => exact .inl ⟨_, rfl⟩
  | some task =>
    rw [okOr_some, pure_bind']
    cases c.resolveInputs task.inputs with
    | error err => exact .inl ⟨_, rfl⟩
    | ok inputs =>
      rw [lift_ok, pure_bind']
      rcases beginExecution_cases (visit.sub 1) t r c.fabric with ⟨err, hbegin⟩ | ⟨lease, record, resource, hbegin, -⟩
      · refine .inl ⟨.fromFabric err, ?_⟩
        simp only [bind_apply, onFabric, zoom, hbegin]
      · refine .inr ⟨⟨lease, task, inputs⟩, hbegin, ?_⟩
        simp only [bind_apply, onFabric, zoom, hbegin, pure_apply]

/-- What a poll makes of its two calls. -/
theorem pollWork_implements (e : Env) (r : ResourceId) (epoch : UInt64) (c : CoordinatorState F) :
    ∃ calls, Implements e (.pollWork r epoch) c calls := by
  have hrespond : respond e (.pollWork r epoch) = (pollWork e r epoch >>= fun a => pure (ResponseBody.work (F := F) a)) :=
    rfl
  let refresh : Call F := ⟨[1], .refreshReadyRoles⟩
  have hmakes : ∀ call ∈ [refresh], (Request.pollWork (F := F) r epoch).Makes e call.op := by
    intro call hcall
    rw [List.mem_singleton.mp hcall]
    exact .inl rfl
  have idle : ∀ calls, (∀ call ∈ calls, (Request.pollWork (F := F) r epoch).Makes e call.op) →
      (calls.map (·.part)).Pairwise Env.Before → (pollWork e r epoch c).2.fabric = perform e calls c.fabric →
      (∀ a, (pollWork e r epoch c).1 ≠ .ok (some a)) → ∃ calls, Implements e (.pollWork r epoch) c calls := by
    intro calls hmakes hinOrder hfabric hnone
    refine ⟨calls, hmakes, hinOrder, ?_, fun answer reply hok hreply => ?_⟩
    · rw [hrespond, bind_pure_apply _ ResponseBody.work]
      exact hfabric
    · rw [hrespond, bind_pure_apply _ ResponseBody.work] at hok
      dsimp only at hok
      cases hr : (pollWork e r epoch c).1 with
      | error err =>
        rw [hr] at hok
        cases hok
      | ok assignment =>
        rw [hr] at hok
        cases hok
        cases assignment with
        | none => cases hreply
        | some a => exact absurd hr (hnone a)
  have hperform : perform e [refresh] c.fabric = (Fabric.refreshReadyRoles (e.sub 1) c.fabric).2 :=
    congrArg Prod.snd (exec_refreshReadyRoles (e.sub 1) c.fabric)
  have refreshed : ∀ err, pollWork e r epoch c = (.error err, c) → ∃ calls, Implements e (.pollWork r epoch) c calls := by
    intro err h
    exact idle [] (fun _ h => (List.not_mem_nil h).elim) .nil (by rw [h]; rfl) fun a ha => by rw [h] at ha; cases ha
  cases hepoch : c.fabric.resourceEpoch (e.sub 0) r with
  | none =>
    refine refreshed ⟨.notFound, "resource is not active"⟩ ?_
    unfold pollWork
    rw [state_bind, hepoch, okOr_none, fail_bind]
  | some currentEpoch =>
    by_cases hcurrent : currentEpoch ≠ epoch
    · refine refreshed ⟨.conflict, "resource epoch is stale"⟩ ?_
      unfold pollWork
      rw [state_bind, hepoch, okOr_some, pure_bind', if_pos hcurrent, fail_apply]
    have hpoll : pollWork e r epoch c = (onFabric (Fabric.refreshReadyRoles (e.sub 1)) >>= fun _ => state >>= fun c =>
        offerWork (e.sub 3) r 0 (c.fabric.pendingTaskIds (e.sub 2))) c := by
      unfold pollWork
      rw [state_bind, hepoch, okOr_some, pure_bind', if_neg hcurrent]
    have hrefresh := onFabric_fabric (Fabric.refreshReadyRoles (F := F) (e.sub 1)) c
    rw [← hperform] at hrefresh
    cases hr : onFabric (Fabric.refreshReadyRoles (e.sub 1)) c with
    | mk result c' =>
      rw [hr] at hrefresh
      cases result with
      | error err =>
        rw [bind_error hr] at hpoll
        refine idle [refresh] hmakes (List.pairwise_singleton ..) (by rw [hpoll]; exact hrefresh) fun a ha => ?_
        rw [hpoll] at ha
        cases ha
      | ok u =>
        rw [bind_ok hr, state_bind] at hpoll
        rcases offerWork_eq (e := e.sub 3) (c := c') (r := r) 0 (c'.fabric.pendingTaskIds (e.sub 2)) with
          ⟨-, heq⟩ | ⟨t, rest, visit, -, -, -, heq⟩
        · rw [heq] at hpoll
          refine idle [refresh] hmakes (List.pairwise_singleton ..) (by rw [hpoll]; exact hrefresh) fun a ha => ?_
          rw [hpoll] at ha
          cases ha
        · rw [heq] at hpoll
          rcases assign_calls ((e.sub 3).sub visit) c' r t with ⟨err, hassign⟩ | ⟨a, hbegin, hassign⟩
          · rw [hassign] at hpoll
            refine idle [refresh] hmakes (List.pairwise_singleton ..) (by rw [hpoll]; exact hrefresh) fun a ha => ?_
            rw [hpoll] at ha
            cases ha
          · rw [hassign] at hpoll
            have hc' : c'.fabric = perform e [refresh] c.fabric := hrefresh
            have hexec := exec_beginExecution (((e.sub 3).sub visit).sub 1) c'.fabric t r
            rw [hbegin] at hexec
            refine ⟨[refresh, ⟨[3, visit, 1], .beginExecution t r⟩], ?_, ?_, ?_, fun answer reply hok hreply => ?_⟩
            · intro call hcall
              simp only [List.mem_cons, List.not_mem_nil, or_false] at hcall
              rcases hcall with rfl | rfl
              · exact .inl rfl
              · exact .inr ⟨t, rfl⟩
            · exact List.pairwise_pair.mpr (.inl (by decide))
            · rw [hrespond, bind_pure_apply _ ResponseBody.work, hpoll]
              show _ = (exec (((e.sub 3).sub visit).sub 1) (.beginExecution t r) (perform e [refresh] c.fabric)).2
              rw [← hc', hexec]
            · rw [hrespond, bind_pure_apply _ ResponseBody.work, hpoll] at hok
              cases hok
              cases hreply
              refine ⟨_, List.mem_cons_of_mem _ (List.mem_singleton_self _), ?_⟩
              show (exec (((e.sub 3).sub visit).sub 1) (.beginExecution t r) (perform e [refresh] c.fabric)).1 = _
              rw [← hc', hexec]
              rfl

/-- **One request** is a few calls on the fabric. -/
theorem respond_calls (e : Env) (request : Request F) (c : CoordinatorState F) :
    ∃ calls, Implements e request c calls := by
  cases request with
  | registerResource descriptor dataEndpoint => exact registerResource_implements e descriptor dataEndpoint c
  | heartbeat resource epoch =>
    exact ⟨_, .wrapped (.heartbeat resource epoch) (m := Fabric.heartbeat e resource epoch) (g := .membership)
      (h := .membership) rfl rfl rfl fun a reply hreply => by cases hreply; rfl⟩
  | pollWork resource epoch => exact pollWork_implements e resource epoch c
  | renewExecution lease =>
    exact ⟨_, .wrapped (.renewExecution lease) (m := Fabric.renewExecution e lease) (g := .execution) (h := .lease)
      rfl rfl rfl fun a reply hreply => by cases hreply; rfl⟩
  | completeExecution lease outputs =>
    exact ⟨_, .wrapped (.completeExecution lease outputs) (m := Fabric.completeExecution e lease outputs)
      (g := fun _ => .noContent) (h := fun _ => .unit) rfl rfl rfl fun a reply hreply => by cases hreply⟩
  | publishObject object => exact publishObject_implements e object c
  | registerReplica object resource => exact registerReplica_implements e object resource c
  | submitTask task =>
    exact ⟨_, .wrapped (.submit task) (m := Fabric.submit task) (g := .task) (h := .task) rfl rfl rfl
      fun a reply hreply => by cases hreply; rfl⟩
  | submitCooperativeJob job =>
    exact ⟨_, .wrapped (.submitCooperative job) (m := Fabric.submitCooperative e job) (g := .job) (h := .job) rfl rfl
      rfl fun a reply hreply => by cases hreply; rfl⟩
  | submitPlannedJob preview job => exact submitPlannedJob_implements e preview job c
  | updateLink link => exact updateLink_implements e link c
  | reportLinkMeasurement reporter epoch peer measurement =>
    exact reportLinkMeasurement_implements e reporter epoch peer measurement c
  | maintenanceTick => exact maintenanceTick_implements e c

/-! ## Runs -/

/-- The calls that a served request made, one of which returned what its answer passes on. -/
structure Served.Calls (served : Served F) (events : List (Event F)) : Prop where
  links : Links served.before.fabric events served.after.fabric
  makes : ∀ ev ∈ events, served.request.Makes served.env ev.op
  lent : ∀ ev ∈ events, ∃ part, ev.env = served.env.under part
  reports : ∀ answer reply, (respond served.env served.request served.before).1 = .ok answer →
    answer.reply = some reply → ∃ ev ∈ events, ev.reply = .ok reply

theorem mem_events {e : Env} {ev : Event F} : ∀ {calls : List (Call F)} {s : Fabric F}, ev ∈ events e calls s →
    ∃ call ∈ calls, ∃ s, ev = Event.of (e.under call.part) s call.op
  | call :: calls, s, h => by
    rcases List.mem_cons.mp h with rfl | h
    · exact ⟨call, List.mem_cons_self .., s, rfl⟩
    · obtain ⟨call', hcall, s', rfl⟩ := mem_events h
      exact ⟨call', List.mem_cons_of_mem _ hcall, s', rfl⟩

theorem Implements.calls {e : Env} {request : Request F} {calls : List (Call F)} (h : Implements e request c calls) :
    (Served.of e c request).Calls (events e calls c.fabric) where
  links := by
    have hafter : (Served.of e c request).after.fabric = perform e calls c.fabric := by
      rw [← h.fabric, respond_state]
      rfl
    rw [hafter]
    exact links_events e calls c.fabric
  makes := fun ev hev => by
    obtain ⟨call, hcall, s, rfl⟩ := mem_events hev
    exact h.makes call hcall
  lent := fun ev hev => by
    obtain ⟨call, hcall, s, rfl⟩ := mem_events hev
    exact ⟨call.part, rfl⟩
  reports := h.reports

omit [F64 F] in
/-- Calls of one request followed by calls of the rest of the run are lent parts of the whole world in order. -/
theorem lent_append {first rest : List (Call F)} (hfirst : (first.map (·.part)).Pairwise Env.Before)
    (hrest : Env.Lent (rest.map (·.part))) :
    Env.Lent ((first.map (Call.lift 0) ++ rest.map (Call.lift 1)).map (·.part)) := by
  have hparts : (first.map (Call.lift 0) ++ rest.map (Call.lift 1)).map (·.part) =
      (first.map (·.part)).map (List.cons 0) ++ (rest.map (·.part)).map (List.cons 1) := by
    simp only [List.map_append, List.map_map]
    rfl
  have hlift : ∀ (i : Nat) {parts : List (List Nat)}, parts.Pairwise Env.Before →
      (parts.map (List.cons i)).Pairwise Env.Before := fun i parts h =>
    h.map _ fun a b hab => .inr ⟨rfl, hab⟩
  rw [hparts]
  refine ⟨List.pairwise_append.mpr ⟨hlift 0 hfirst, hlift 1 hrest.inOrder, fun a ha b hb => ?_⟩, fun a ha => ?_⟩
  · obtain ⟨p, -, rfl⟩ := List.mem_map.mp ha
    obtain ⟨q, -, rfl⟩ := List.mem_map.mp hb
    exact .inl Nat.zero_lt_one
  · rcases List.mem_append.mp ha with ha | ha
    · obtain ⟨p, -, rfl⟩ := List.mem_map.mp ha
      exact .inl (by decide)
    · obtain ⟨p, -, rfl⟩ := List.mem_map.mp ha
      exact .inl (by decide)

/-- The calls of a run: in order, and request by request what each served request did. -/
theorem run_calls : ∀ (requests : List (Request F)) (e : Env) (c : CoordinatorState F), ∃ calls : List (Call F),
    ∃ segments, Env.Lent (calls.map (·.part)) ∧ events e calls c.fabric = segments.flatten ∧
      perform e calls c.fabric = (run e c requests).fabric ∧
      List.Forall₂ (fun served events => Served.Calls served events) (history e c requests) segments
  | [], _, _ => ⟨[], [], ⟨.nil, fun _ h => (List.not_mem_nil h).elim⟩, rfl, rfl, .nil⟩
  | request :: requests, e, c => by
    obtain ⟨first, hfirst⟩ := respond_calls (e.sub 0) request c
    obtain ⟨rest, segments, hlent, hevents, hperform, hsegments⟩ :=
      run_calls requests (e.sub 1) (serve (e.sub 0) request c).2
    have hafter : perform (e.sub 0) first c.fabric = (serve (e.sub 0) request c).2.fabric := by
      rw [← hfirst.fabric, respond_state]
    refine ⟨first.map (Call.lift 0) ++ rest.map (Call.lift 1), events (e.sub 0) first c.fabric :: segments,
      lent_append hfirst.inOrder hlent, ?_, ?_, .cons hfirst.calls hsegments⟩
    · rw [events_append, events_lift, perform_lift, events_lift, hafter, hevents, List.flatten_cons]
    · rw [perform_append, perform_lift, perform_lift, hafter, hperform]
      rfl

/-- **The coordinator refines the fabric.** Every run of the coordinator is a run of the fabric: in some world, which
generates identifiers that the coordinator's world does, none twice if that one does not, and whose clock does not go
back if that one's does not, there is a run of the fabric that ends in the same fabric and falls into segments, one for
each request, of the calls that the request makes. -/
theorem coordinator_refines_fabric (e : Env) (c : CoordinatorState F) (requests : List (Request F)) :
    ∃ (e' : Env) (ops : List (Op F)) (segments : List (List (Event F))),
      (e.Fresh → e'.Fresh) ∧ (e.Steady → e'.Steady) ∧ (∀ n, e'.Mints n → e.Mints n) ∧
      trace e' c.fabric ops = segments.flatten ∧ final e' c.fabric ops = (run e c requests).fabric ∧
      List.Forall₂ (fun served events => Served.Calls served events) (history e c requests) segments := by
  obtain ⟨calls, segments, hlent, hevents, hperform, hsegments⟩ := run_calls requests e c
  obtain ⟨htrace, hfinal⟩ := trace_splice (e := e) calls [] c.fabric
  exact ⟨e.splice [] (calls.map (·.part)), calls.map (·.op), segments, fun he => he.splice hlent,
    fun he => he.splice hlent, fun n hn => hn.of_splice, htrace.trans hevents, hfinal.trans hperform, hsegments⟩

/-- The world in which the coordinator serves request number `n`. -/
def turnEnv (e : Env) (n : Nat) : Env := (e.under (List.replicate n 1)).sub 0

/-- How request number `n` is served. -/
theorem history_turn {requests : List (Request F)} {n : Nat} {request : Request F} (e : Env) (c : CoordinatorState F)
    (h : requests[n]? = some request) :
    (history e c requests)[n]? = some (Served.of (turnEnv e n) (run e c (requests.take n)) request) := by
  induction requests generalizing e c n with
  | nil => cases h
  | cons first requests ih =>
    cases n with
    | zero =>
      cases h
      rfl
    | succ n => exact ih (e.sub 1) _ h

end Plurifold
