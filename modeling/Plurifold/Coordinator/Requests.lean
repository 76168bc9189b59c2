import Plurifold.Fabric.Run

/-!
# The coordinator (`plurifold-coordinator`)

The coordinator serves one request at a time. Around the fabric it keeps the data endpoints of the agents and the links
that were set by hand. `Request` lists the requests that change its state, `serve` is their effect, `run` a run and
`history` what happened in it. The preview of a logical job is computed before the job is submitted and changes nothing;
the outcome of the preview is part of the request.
-/

namespace Plurifold

open Lib Attempt

variable {F : Type} [F64 F]

/-! ## Errors -/

inductive StatusCode
  | badRequest
  | notFound
  | conflict
  | unprocessableEntity
  deriving DecidableEq

structure ApiError where
  status : StatusCode
  message : String
  deriving DecidableEq

def ScheduleError.message : ScheduleError → String
  | .missingObject id => s!"task references unknown object {id}"
  | .noCandidate => "no compatible resource has reachable inputs"

def FabricError.message : FabricError → String
  | .resourceNotActive id => s!"resource {showUuid id.uuid} is not active"
  | .staleResourceEpoch id => s!"resource {showUuid id.uuid} epoch does not match current incarnation"
  | .unknownTask id => s!"task {id} does not exist"
  | .unknownObject id => s!"object {id} does not exist"
  | .objectConflict id => s!"object {id} conflicts with already published metadata"
  | .duplicateTask id => s!"task {id} already exists"
  | .invalidTask message => s!"invalid task: {message}"
  | .unknownJob id => s!"cooperative job {showUuid id.uuid} does not exist"
  | .duplicateJob id => s!"cooperative job {showUuid id.uuid} already exists"
  | .invalidCooperativeJob message => s!"invalid cooperative job: {message}"
  | .invalidLogicalJob message => s!"invalid logical job: {message}"
  | .taskNotPending id => s!"task {id} is not pending"
  | .staleExecution => "execution lease is stale or does not own the task"
  | .executionExpired => "execution lease has expired"
  | .scheduling error => error.message

def FabricError.statusCode : FabricError → StatusCode
  | .unknownTask _ | .unknownJob _ | .unknownObject _ | .resourceNotActive _ => .notFound
  | .duplicateTask _ | .duplicateJob _ | .objectConflict _ | .taskNotPending _ | .staleExecution | .executionExpired
  | .staleResourceEpoch _ => .conflict
  | .invalidTask _ | .invalidCooperativeJob _ | .invalidLogicalJob _ => .badRequest
  | .scheduling _ => .unprocessableEntity

def ApiError.fromFabric (error : FabricError) : ApiError := ⟨error.statusCode, error.message⟩

def PlanError.message : PlanError → String
  | .invalidLogicalJob message => s!"invalid logical job: {message}"
  | .noFeasibleImplementation role => s!"role {role} has no feasible implementation on the current resources/topology"

def ApiError.fromPlan (error : PlanError) : ApiError :=
  { status := match error with
      | .invalidLogicalJob _ => .badRequest
      | .noFeasibleImplementation _ => .unprocessableEntity
    message := error.message }

/-! ## State -/

structure CoordinatorState (F : Type) where
  fabric : Fabric F
  dataEndpoints : Map ResourceId String
  manualLinks : Finset (ResourceId × ResourceId)

/-- The handling of a request. -/
abbrev CoordinatorM (F α : Type) := Attempt (CoordinatorState F) ApiError α

namespace CoordinatorState

def new (membershipTtlMs executionTtlMs : UInt64) : CoordinatorState F where
  fabric := Fabric.new membershipTtlMs executionTtlMs
  dataEndpoints := ∅
  manualLinks := ∅

/-- An operation of the fabric, its error turned into an API error. -/
def onFabric {α : Type} (m : FabricM F α) : CoordinatorM F α :=
  zoom fabric (fun fabric c => { c with fabric := fabric }) ApiError.fromFabric m

/-- Change the fabric. -/
def updateFabric (f : Fabric F → Fabric F) : CoordinatorM F Unit := update fun c => { c with fabric := f c.fabric }

/-! ## Membership -/

def normalizeEndpoint (endpoint : String) : Except ApiError String :=
  let endpoint := String.ofList ((trim endpoint.toList).reverse.dropWhile (· = '/')).reverse
  if !(endpoint.startsWith "http://" || endpoint.startsWith "https://") then
    .error ⟨.badRequest, "data_endpoint must be an http:// or https:// URL"⟩
  else .ok endpoint

def registerResource (e : Env) (descriptor : ResourceDescriptor F) (dataEndpoint : String) :
    CoordinatorM F MembershipLease := do
  let endpoint ← lift (normalizeEndpoint dataEndpoint)
  let c ← state
  let (lease, fabric) := c.fabric.registerResource e descriptor
  update fun c => { c with fabric := fabric, dataEndpoints := c.dataEndpoints.insert lease.resourceId endpoint }
  pure lease

def maintenanceTick (e : Env) (c : CoordinatorState F) : CoordinatorState F :=
  let now := e.clock
  let (expired, fabric) := c.fabric.expireResourcesAt (e.sub 0) now
  let c := expired.foldl (fun c id =>
    { c with
      dataEndpoints := c.dataEndpoints.erase id
      manualLinks := c.manualLinks.filter fun link => link.1 ≠ id ∧ link.2 ≠ id }) { c with fabric := fabric }
  { c with fabric := (c.fabric.reapExpiredExecutionsAt (e.sub 1) now).2 }

/-! ## Work -/

structure ObjectReplica where
  resourceId : ResourceId
  url : String
  deriving DecidableEq

structure ResolvedObject where
  metadata : ObjectMetadata
  replicas : List ObjectReplica
  deriving DecidableEq

structure WorkAssignment (F : Type) where
  lease : ExecutionLease
  task : TaskSpec F
  inputs : List ResolvedObject

/-- The text after a leading text, if it leads. -/
def stripLeading (lead text : String) : Option String :=
  if text.startsWith lead then some (String.ofList (text.toList.drop lead.length)) else none

/-- Where one input can be read. -/
def resolveInput (c : CoordinatorState F) (objectId : ObjectId) : Except ApiError ResolvedObject :=
  match c.fabric.objects.lookup objectId with
  | none => .error ⟨.notFound, s!"unknown object {objectId}"⟩
  | some metadata =>
    match metadata.digest with
    | none => .error ⟨.conflict, s!"object {objectId} has no content digest"⟩
    | some digest =>
      match stripLeading "sha256:" digest with
      | none => .error ⟨.conflict, s!"unsupported digest {digest}"⟩
      | some suffix =>
        let replicas := metadata.locations.filterMap fun resourceId =>
          (c.dataEndpoints.lookup resourceId).map fun endpoint =>
            { resourceId, url := s!"{endpoint}/v1/blobs/{suffix}" }
        if replicas.isEmpty then .error ⟨.conflict, s!"object {objectId} has no reachable registered replica"⟩
        else .ok ⟨metadata, replicas⟩

def resolveInputs (c : CoordinatorState F) (inputIds : List ObjectId) : Except ApiError (List ResolvedObject) :=
  inputIds.mapM c.resolveInput

/-- The loop of `poll_work` over the pending tasks. A task that cannot be scheduled or goes to another resource is
passed over; a task placed on `r` whose inputs do not resolve ends the poll with an error. -/
def offerWork (e : Env) (r : ResourceId) : Nat → List TaskId → CoordinatorM F (Option (WorkAssignment F))
  | _, [] => pure none
  | i, t :: rest => do
    let c ← state
    match c.fabric.scheduleTask ((e.sub i).sub 0) t with
    | .error _ => offerWork e r (i + 1) rest
    | .ok decision =>
      if decision.resourceId ≠ r then offerWork e r (i + 1) rest
      else do
        let task ← okOr (c.fabric.taskSpec t) ⟨.notFound, "task disappeared during scheduling"⟩
        let inputs ← lift (c.resolveInputs task.inputs)
        let lease ← onFabric (Fabric.beginExecution ((e.sub i).sub 1) t r)
        pure (some { lease, task, inputs })

def pollWork (e : Env) (r : ResourceId) (epoch : UInt64) : CoordinatorM F (Option (WorkAssignment F)) := do
  let c ← state
  let currentEpoch ← okOr (c.fabric.resourceEpoch (e.sub 0) r) ⟨.notFound, "resource is not active"⟩
  if currentEpoch ≠ epoch then fail ⟨.conflict, "resource epoch is stale"⟩
  else do
    onFabric (Fabric.refreshReadyRoles (e.sub 1))
    let c ← state
    offerWork (e.sub 3) r 0 (c.fabric.pendingTaskIds (e.sub 2))

/-! ## Jobs -/

/-- `preview` is what `plan_logical_job` returned for the job, its plan left out. -/
def submitPlannedJob (e : Env) (preview : Except PlanError Unit) (job : LogicalJobSpec F) : CoordinatorM F JobId :=
  match preview with
  | .error (.invalidLogicalJob message) => fail (.fromPlan (.invalidLogicalJob message))
  | .error (.noFeasibleImplementation _) | .ok () => onFabric (Fabric.submitLogical e job)

/-! ## Objects and links -/

def publishObject (object : ObjectMetadata) : CoordinatorM F Unit :=
  if object.digest.isNone then fail ⟨.badRequest, "published objects require a digest"⟩
  else onFabric (Fabric.publishObject object)

def registerReplica (e : Env) (objectId : ObjectId) (resourceId : ResourceId) : CoordinatorM F Unit := do
  let c ← state
  if (c.fabric.resourceEpoch e resourceId).isNone then fail ⟨.notFound, "replica resource is not active"⟩
  else onFabric (Fabric.addObjectLocation objectId resourceId)

def validateLink (link : LinkProfile F) : Except ApiError Unit :=
  if link.fromResource = link.toResource then .error ⟨.badRequest, "link endpoints must be different"⟩
  else if !F64.isFinite link.rttMs || !F64.isFinite link.bandwidthMbps || F64.lt link.rttMs (F64.ofNat 0) ||
      F64.le link.bandwidthMbps (F64.ofNat 0) then
    .error ⟨.badRequest, "link requires finite non-negative RTT and finite positive bandwidth"⟩
  else .ok ()

def updateLink (link : LinkProfile F) : CoordinatorM F Unit := do
  lift (validateLink link)
  update fun c => { c with
    manualLinks := insert (link.fromResource, link.toResource) c.manualLinks
    fabric := c.fabric.upsertLink link }

inductive LinkMeasurement (F : Type)
  | reachable (rttMs bandwidthMbps : F)
  | unreachable

def reportLinkMeasurement (e : Env) (reporter : ResourceId) (reporterEpoch : UInt64) (peer : ResourceId)
    (measurement : LinkMeasurement F) : CoordinatorM F Unit := do
  if reporter = peer then fail ⟨.badRequest, "link endpoints must be different"⟩
  else do
    let c ← state
    let currentEpoch ← okOr (c.fabric.resourceEpoch (e.sub 0) reporter) ⟨.notFound, "reporter resource is not active"⟩
    if currentEpoch ≠ reporterEpoch then fail ⟨.conflict, "reporter resource epoch is stale"⟩
    else if (c.fabric.resourceEpoch (e.sub 1) peer).isNone then fail ⟨.notFound, "peer resource is not active"⟩
    else if (reporter, peer) ∈ c.manualLinks ∨ (peer, reporter) ∈ c.manualLinks then pure ()
    else
      match measurement with
      | .reachable rttMs bandwidthMbps => do
        let link := { fromResource := reporter, toResource := peer, rttMs, bandwidthMbps }
        lift (validateLink link)
        updateFabric (Fabric.upsertLink link)
      | .unreachable => updateFabric (Fabric.removeLink reporter peer)

end CoordinatorState

/-! ## Requests -/

inductive Request (F : Type)
  | registerResource (descriptor : ResourceDescriptor F) (dataEndpoint : String)
  | heartbeat (resource : ResourceId) (epoch : UInt64)
  | pollWork (resource : ResourceId) (epoch : UInt64)
  | renewExecution (lease : ExecutionLease)
  | completeExecution (lease : ExecutionLease) (outputs : List ObjectMetadata)
  | publishObject (object : ObjectMetadata)
  | registerReplica (object : ObjectId) (resource : ResourceId)
  | submitTask (task : TaskSpec F)
  | submitCooperativeJob (job : CooperativeJobSpec F)
  | submitPlannedJob (preview : Except PlanError Unit) (job : LogicalJobSpec F)
  | updateLink (link : LinkProfile F)
  | reportLinkMeasurement (reporter : ResourceId) (reporterEpoch : UInt64) (peer : ResourceId)
      (measurement : CoordinatorState.LinkMeasurement F)
  | maintenanceTick

namespace CoordinatorState

/-- What a request does; its answer is left out. -/
def serve (e : Env) : Request F → CoordinatorM F Unit
  | .registerResource descriptor dataEndpoint => do let _ ← registerResource e descriptor dataEndpoint
  | .heartbeat resource epoch => do let _ ← onFabric (Fabric.heartbeat e resource epoch)
  | .pollWork resource epoch => do let _ ← pollWork e resource epoch
  | .renewExecution lease => do let _ ← onFabric (Fabric.renewExecution e lease)
  | .completeExecution lease outputs => onFabric (Fabric.completeExecution e lease outputs)
  | .publishObject object => publishObject object
  | .registerReplica object resource => registerReplica e object resource
  | .submitTask task => do let _ ← onFabric (Fabric.submit task)
  | .submitCooperativeJob job => do let _ ← onFabric (Fabric.submitCooperative e job)
  | .submitPlannedJob preview job => do let _ ← submitPlannedJob e preview job
  | .updateLink link => updateLink link
  | .reportLinkMeasurement reporter reporterEpoch peer measurement =>
    reportLinkMeasurement e reporter reporterEpoch peer measurement
  | .maintenanceTick => update (maintenanceTick e)

/-- The state after a run. -/
def run (e : Env) (c : CoordinatorState F) : List (Request F) → CoordinatorState F
  | [] => c
  | request :: requests => run (e.sub 1) (serve (e.sub 0) request c).2 requests

end CoordinatorState

/-- One request of a run. -/
structure Served (F : Type) where
  env : Env
  request : Request F
  before : CoordinatorState F
  reply : Except ApiError Unit
  after : CoordinatorState F

/-- The request served in `c`. -/
def Served.of (e : Env) (c : CoordinatorState F) (request : Request F) : Served F where
  env := e
  request := request
  before := c
  reply := (CoordinatorState.serve e request c).1
  after := (CoordinatorState.serve e request c).2

namespace CoordinatorState

/-- The requests of a run, in order. -/
def history (e : Env) (c : CoordinatorState F) : List (Request F) → List (Served F)
  | [] => []
  | request :: requests =>
    Served.of (e.sub 0) c request :: history (e.sub 1) (Served.of (e.sub 0) c request).after requests

/-! ## Invariants of runs -/

section Rule

variable {I : Env → CoordinatorState F → Prop}

/-- What every request keeps holds around every request of a run and at its end. -/
theorem history_rule (hstep : ∀ e c request, I e c → I (e.sub 1) (serve (e.sub 0) request c).2) :
    ∀ (requests : List (Request F)) (e : Env) (c : CoordinatorState F), I e c →
      (∀ served ∈ history e c requests, ∃ e', served = Served.of (e'.sub 0) served.before served.request ∧
        I e' served.before ∧ I (e'.sub 1) served.after) ∧
      ∃ e', I e' (run e c requests)
  | [], e, c, h => ⟨fun _ hmem => (List.not_mem_nil hmem).elim, e, h⟩
  | request :: requests, e, c, h => by
    have hnext := hstep e c request h
    obtain ⟨hrest, hend⟩ := history_rule hstep requests (e.sub 1) _ hnext
    refine ⟨fun served hmem => ?_, hend⟩
    rcases List.mem_cons.mp hmem with rfl | hmem
    · exact ⟨e, rfl, h, hnext⟩
    · exact hrest served hmem

/-- What every request of a run keeps, if it is not one of a kind that the run does not have. -/
theorem run_rule {J : CoordinatorState F → Prop} {C : Served F → Prop}
    (hstep : ∀ e c request, J c → C (Served.of e c request) → J (Served.of e c request).after) :
    ∀ (requests : List (Request F)) (e : Env) (c : CoordinatorState F), J c →
      (∀ served ∈ history e c requests, C served) → J (run e c requests)
  | [], _, _, h, _ => h
  | request :: requests, e, c, h, hC =>
    run_rule hstep requests (e.sub 1) _ (hstep (e.sub 0) c request h (hC _ (List.mem_cons_self ..)))
      fun served hmem => hC served (List.mem_cons_of_mem _ hmem)

/-- A run up to a request, and the run that goes on from there. -/
theorem history_split : ∀ (requests : List (Request F)) (e : Env) (c : CoordinatorState F)
    (pre post : List (Served F)) (served : Served F), history e c requests = pre ++ served :: post →
    ∃ (e' : Env) (later : List (Request F)), served = Served.of (e'.sub 0) served.before served.request ∧
      post = history (e'.sub 1) served.after later ∧ run e c requests = run (e'.sub 1) served.after later
  | [], _, _, pre, post, served, h => by simp [history] at h
  | request :: requests, e, c, [], post, served, h => by
    obtain ⟨rfl, rfl⟩ := List.cons.inj h
    exact ⟨e, requests, rfl, rfl, rfl⟩
  | request :: requests, e, c, first :: pre, post, served, h => by
    obtain ⟨-, hrest⟩ := List.cons.inj h
    exact history_split requests (e.sub 1) _ pre post served hrest

end Rule

end CoordinatorState

end Plurifold
