import Plurifold.Agent.Worker

/-!
# Agents, coordinator and clients together

A `Site` is all that the processes of one deployment share: the coordinator, the exchanges with it that are under way,
the stores and the memory of the agents. `system` runs them side by side: the coordinator, the tasks of every agent, and
any number of clients with a command each, one question at a time. Requests and answers may be delayed or lost, the clocks
of agents may show anything, agents may stop. A request is served at most once.

Fields that the program does not have record what has happened: `log` the requests in the order in which they were
served, `written` the blobs that were ever stored, `executed` the tasks that were ever executed.
-/

namespace Plurifold

open Lib CoordinatorState

variable {F : Type}

/-- What is given from outside: the agents with what they advertise and where they keep their blobs. -/
structure Deployment (F : Type) where
  sha : Sha256
  showStatus : Nat → String
  descriptor : ResourceId → ResourceDescriptor F
  descriptor_id : ∀ r, (descriptor r).id = r
  /-- The endpoint that an agent advertises. -/
  advertise : ResourceId → String
  /-- The agent whose data plane answers at an endpoint. -/
  agentAt : String → Option ResourceId
  /-- The directory of the store of an agent. Agents may share one. -/
  storeDir : ResourceId → String
  executor : ResourceId → Executor

inductive Party
  | coordinator
  | worker (r : ResourceId)
  | execution (n : Nat)
  | renewal (n : Nat)
  | discovery (r : ResourceId)
  | client (n : Nat)
  deriving DecidableEq

/-- A request that was sent, who sent it, and its answer with its turn among the requests served. -/
structure Exchange (F : Type) where
  sender : Party
  request : Request F
  answer : Option (Nat × Except ApiError (ResponseBody F))

/-- An execution that an agent has spawned, with what it shares with its renewal. -/
structure ExecutionCell (F : Type) where
  agent : ResourceId
  assignment : WorkAssignment F
  leaseState : ExecutionLease
  aborted : Bool
  finished : Bool

structure Site (F : Type) where
  coordinator : CoordinatorState F
  log : List (Request F)
  exchanges : List (Exchange F)
  stores : String → LocalObjectStore
  written : List Bytes
  objectIds : Nat
  busy : ResourceId → Bool
  probing : ResourceId → Option MembershipLease
  cells : Nat → Option (ExecutionCell F)
  executed : List (Nat × TaskId)

/-- What a client may ask for. Objects are published through an agent. -/
inductive Command (F : Type)
  | put (agent : String) (bytes : Bytes)
  | submit (task : TaskSpec F)
  | submitJob (job : CooperativeJobSpec F)
  | autoSubmit (preview : Except PlanError Unit) (job : LogicalJobSpec F)
  | link (link : LinkProfile F)

/-- Which branch of its loop the worker or the coordinator takes. -/
inductive Branch
  | heartbeat
  | poll
  | probe
  | shutdown
  | maintenance
  | request

/-- What no process chooses. -/
structure Chance (F : Type) where
  branch : Branch
  command : Command F
  /-- The exchange that is served. -/
  exchange : Nat
  /-- Whether a response arrives, and whether its body does. -/
  transport : Except String Unit
  body : Except String Unit
  /-- Whether a new file can be written. -/
  disk : Except String Unit
  /-- What the clock shows, if it is not read for a request to the coordinator. -/
  clock : UInt64
  elapsed : Except String F
  /-- Whether an aborted renewal has come to its end. -/
  cancelled : Bool

/-! ## The data plane -/

/-- The base and the last segment of the URL of a blob. -/
def splitBlobUrl (url : String) : Option (String × String) :=
  let front := url.toList.reverse.dropWhile (· ≠ '/')
  let path := "/v1/blobs/".toList.reverse
  if path.isPrefixOf front then
    some (String.ofList (front.drop path.length).reverse, String.ofList (url.toList.reverse.takeWhile (· ≠ '/')).reverse)
  else none

/-- The error of `checked` of the command line. -/
def checkedError (showStatus : Nat → String) (status : Nat) (message : Option String) : String :=
  let error := message.getD "request failed"
  s!"{showStatus status}: {error}"

namespace Site

/-- The store of an agent. -/
def storeOf (d : Deployment F) (r : ResourceId) (site : Site F) : LocalObjectStore := site.stores (d.storeDir r)

/-- `LocalObjectStore::put` on the store of an agent. -/
def putBlob (d : Deployment F) (disk : Except String Unit) (r : ResourceId) (bytes : Bytes) (site : Site F) :
    Except StoreError String × Site F :=
  match (site.storeOf d r).put d.sha disk bytes with
  | .error error => (.error error, site)
  | .ok (stored, store) =>
    (.ok stored, { site with stores := Function.update site.stores (d.storeDir r) store, written := bytes :: site.written })

def newObjectId (ids : Env) (site : Site F) : ObjectId × Site F :=
  (⟨ids.uuid [site.objectIds]⟩, { site with objectIds := site.objectIds + 1 })

/-- The handler `put_object` of an agent. -/
def putObject (d : Deployment F) (ids : Env) (disk : Except String Unit) (r : ResourceId) (bytes : Bytes) (site : Site F) :
    Except DataError ObjectMetadata × Site F :=
  match site.putBlob d disk r bytes with
  | (.error error, site) => (.error ⟨500, error.message⟩, site)
  | (.ok stored, site) =>
    let (id, site) := site.newObjectId ids
    (.ok {
      id := id
      sizeBytes := UInt64.ofNat bytes.length
      digest := some stored
      encoding := some "application/octet-stream"
      locations := [r]
      producer := none }, site)

/-- A `GET` of a blob, served by the agent at its base URL. -/
def fetch (d : Deployment F) (chance : Chance F) (url : String) (range : Option String) (site : Site F) :
    Except String Response :=
  match chance.transport, splitBlobUrl url with
  | .error error, _ => .error error
  | .ok (), none => .error "connection refused"
  | .ok (), some (base, digest) =>
    match d.agentAt base with
    | none => .error "connection refused"
    | some r =>
      let response := intoResponse (getBlob d.sha (site.storeOf d r) digest range)
      .ok (match chance.body with
        | .ok () => response
        | .error error => { response with body := .error error })

/-- A `POST` of a blob, served by the agent at its base URL. The response may be lost after the blob has been stored. -/
def upload (d : Deployment F) (ids : Env) (chance : Chance F) (agent : String) (bytes : Bytes) (site : Site F) :
    Except String ObjectMetadata × Site F :=
  match chance.transport, d.agentAt agent with
  | .error error, _ => (.error error, site)
  | .ok (), none => (.error "connection refused", site)
  | .ok (), some r =>
    match site.putObject d ids chance.disk r bytes with
    | (.ok object, site) => (chance.body.map fun _ => object, site)
    | (.error error, site) =>
      (.error (checkedError d.showStatus error.status (chance.body.toOption.map fun _ => error.message)), site)

/-! ## The coordinator -/

variable [F64 F]

/-- The coordinator serves a request. -/
def serveRequest (e : Env) (request : Request F) (site : Site F) : Except ApiError (ResponseBody F) × Site F :=
  let (answer, coordinator) := respond (turnEnv e site.log.length) request site.coordinator
  (answer, { site with coordinator, log := site.log ++ [request] })

def serveExchange (e : Env) (n : Nat) (site : Site F) : Site F :=
  match site.exchanges[n]? with
  | none => site
  | some exchange =>
    match exchange.answer with
    | some _ => site
    | none =>
      let turn := site.log.length
      let (answer, site) := site.serveRequest e exchange.request
      { site with exchanges := site.exchanges.set n { exchange with answer := some (turn, answer) } }

/-- `GET /v1/resources`, at the time `now`. -/
def listResources (e : Env) (now : UInt64) (site : Site F) : List (ResourceView F) :=
  ((turnEnv e site.log.length).iter site.coordinator.fabric.resources.pairs).filterMap fun entry =>
    if now < entry.2.expiresAtUnixMs then
      some ⟨entry.2.descriptor, site.coordinator.dataEndpoints.lookup entry.1⟩
    else none

/-- What has come back for an exchange, if anything has. -/
def reception (chance : Chance F) (n : Nat) (site : Site F) : Option (Reception F) :=
  match chance.transport with
  | .error error => some (.lost error)
  | .ok () =>
    match site.exchanges[n]?.bind (·.answer) with
    | none => none
    | some (_, .error error) => some (.rejected error.status (chance.body.toOption.map fun _ => error.message))
    | some (_, .ok body) =>
      match chance.body with
      | .ok () => some (.answered body)
      | .error error => some (.garbled error)

/-- The agent that a party is a part of. -/
def agentOf (site : Site F) : Party → Option ResourceId
  | .worker r | .discovery r => some r
  | .execution n | .renewal n => (site.cells n).map (·.agent)
  | .coordinator | .client _ => none

/-- Change the execution of a party, if it has been spawned. -/
def updateCell (n : Nat) (f : ExecutionCell F → ExecutionCell F) (site : Site F) : Site F :=
  { site with cells := Function.update site.cells n ((site.cells n).map f) }

/-- The execution or renewal with this number. -/
def cellOf : Party → Option Nat
  | .execution n | .renewal n => some n
  | _ => none

/-- An aborted renewal ends at one of its next questions. -/
def cancelled (site : Site F) (chance : Chance F) : Party → Bool
  | .renewal n => chance.cancelled && (site.cells n).any (·.aborted)
  | _ => false

/-- A question that concerns the own agent. -/
def onAgent {α : Type} (site : Site F) (i : Party) (f : ResourceId → α × Site F) : Option (α × Site F) :=
  (site.agentOf i).map f

/-- A question that concerns the own execution. -/
def onCell {α : Type} (site : Site F) (i : Party) (f : Nat → ExecutionCell F → α × Site F) : Option (α × Site F) :=
  (cellOf i).bind fun n => (site.cells n).map (f n)

/-- The answer to a question, and what asking it does. -/
def answer (d : Deployment F) (e ids : Env) (i : Party) (chance : Chance F) :
    (question : Question F) → Site F → Option (question.Answer × Site F)
  | .contains digest, site => site.onAgent i fun r => ((site.storeOf d r).contains digest, site)
  | .get digest, site => site.onAgent i fun r => ((site.storeOf d r).get d.sha digest, site)
  | .put bytes, site => site.onAgent i fun r => site.putBlob d chance.disk r bytes
  | .fetch url range, site => some (site.fetch d chance url range, site)
  | .fetchProbe _ _, site => some (chance.elapsed, site)
  | .upload agent bytes, site => some (site.upload d ids chance agent bytes)
  | .send request, site => some (site.exchanges.length, { site with exchanges := site.exchanges ++ [⟨i, request, none⟩] })
  | .receive exchange, site => (site.reception chance exchange).map fun reception => (reception, site)
  | .resources, site => some (chance.transport.bind fun _ => chance.body.map fun _ => site.listResources e chance.clock, site)
  | .execute task inputs, site => site.onCell i fun n cell =>
    (executeTaskWithPolicy (d.executor cell.agent) task inputs, { site with executed := (n, task.id) :: site.executed })
  | .newObjectId, site => some (site.newObjectId ids)
  | .nowUnixMs, site => some (chance.clock, site)
  | .sleep _, site => some ((), site)
  | .busy, site => site.onAgent i fun r => (site.busy r, site)
  | .spawn exchange assignment, site => site.onAgent i fun r => ((), { site with
      busy := Function.update site.busy r true
      cells := Function.update site.cells exchange (some ⟨r, assignment, assignment.lease, false, false⟩) })
  | .assignment, site =>
    some ((cellOf i).bind fun n => (site.cells n).map fun cell => (cell.agent, cell.assignment), site)
  | .clearBusy, site => site.onCell i fun n cell => ((), { site.updateCell n (fun cell => { cell with finished := true }) with
      busy := Function.update site.busy cell.agent false })
  | .leaseState, site => site.onCell i fun _ cell => (cell.leaseState, site)
  | .setLeaseState lease, site => site.onCell i fun n _ => ((), site.updateCell n fun cell => { cell with leaseState := lease })
  | .abortRenewal, site => site.onCell i fun n _ => ((), site.updateCell n fun cell => { cell with aborted := true })
  | .swapProbing lease, site => site.onAgent i fun r =>
    ((), if (site.probing r).isSome then site else { site with probing := Function.update site.probing r (some lease) })
  | .probing, site => site.onAgent i fun r => (site.probing r, site)
  | .clearProbing, site => site.onAgent i fun r => ((), { site with probing := Function.update site.probing r none })
  | .serve exchange, site => some ((), site.serveExchange e exchange)
  | .maintain, site => some ((), (site.serveRequest e .maintenanceTick).2)

/-- A question of a task that has not been cancelled. -/
def perform (d : Deployment F) (e ids : Env) (i : Party) (chance : Chance F) (question : Question F) (site : Site F) :
    Option (question.Answer × Site F) :=
  if site.cancelled chance i then none else site.answer d e ids i chance question

end Site

/-! ## Processes -/

/-- What a process remembers between two rounds. -/
inductive Own
  | fresh
  | joined (lease : MembershipLease)
  | retired

namespace Agent

section Commands

variable (showStatus : Nat → String)

def checked : Reception F → Except String Unit
  | .lost error => .error error
  | .rejected status message => .error (checkedError showStatus (statusNumber status) message)
  | .garbled _ | .answered _ => .ok ()

/-- The body of a response that has been `checked`. -/
def checkedJson {α : Type} (select : ResponseBody F → Option α) : Reception F → Except String α
  | .lost error => .error error
  | .rejected status message => .error (checkedError showStatus (statusNumber status) message)
  | .garbled error => .error error
  | .answered body => match select body with
    | some a => .ok a
    | none => .error "error decoding response body"

def asTask : ResponseBody F → Option TaskId
  | .task id => some id
  | _ => none

def asJob : ResponseBody F → Option JobId
  | .job id => some id
  | _ => none

/-- `put` of the command line. -/
def putFile (agent : String) (bytes : Bytes) : Routine F Unit := do
  let object ← orFail (← ask (.upload (trimEndSlashes agent) bytes))
  orFail (checked showStatus (← post (.publishObject object)))

/-- A command, without what it prints. -/
def runCommand : Command F → Routine F Unit
  | .put agent bytes => putFile showStatus agent bytes
  | .submit task => do let _ ← orFail (checkedJson showStatus asTask (← post (.submitTask task)))
  | .submitJob job => do let _ ← orFail (checkedJson showStatus asJob (← post (.submitCooperativeJob job)))
  | .autoSubmit preview job => do let _ ← orFail (checkedJson showStatus asJob (← post (.submitPlannedJob preview job)))
  | .link link => do orFail (checked showStatus (← post (.updateLink link)))

end Commands

variable [F64 F] (d : Deployment F)

/-- One round of `run_worker`. Only the first registration is not retried: its error ends the worker. -/
def workerRound (r : ResourceId) (branch : Branch) : Own → Routine F Own
  | .fresh => do
    let lease ← orFail (← register d.showStatus (d.descriptor r) (d.advertise r))
    pure (.joined lease)
  | .joined lease =>
    match branch with
    | .heartbeat => do return .joined (← heartbeatTick d.showStatus (d.descriptor r) (d.advertise r) lease)
    | .poll => do
      pollTick d.showStatus lease
      pure (.joined lease)
    | .probe => do
      ask (.swapProbing lease)
      pure (.joined lease)
    | .shutdown => pure .retired
    | .maintenance | .request => pure (.joined lease)
  | .retired => pure .retired

/-- What a process does next. -/
def round (i : Party) (chance : Chance F) (own : Own) : Routine F Own :=
  match i with
  | .coordinator => do
    match chance.branch with
    | .maintenance => ask .maintain
    | _ => ask (.serve chance.exchange)
    pure .fresh
  | .worker r => workerRound d r chance.branch own
  | .execution _ =>
    match own with
    | .fresh => ask .assignment >>= fun
      | none => pure .fresh
      | some (r, assignment) => do
        spawned d.sha d.showStatus r assignment
        pure .retired
    | _ => pure .retired
  | .renewal _ =>
    match own with
    | .fresh => ask .assignment >>= fun
      | none => pure .fresh
      | some _ => do
        let goesOn ← renewExecution d.showStatus
        pure (if goesOn then .fresh else .retired)
    | _ => pure .retired
  | .discovery _ => ask .probing >>= fun
    | none => pure .fresh
    | some lease => do
      let _ ← (discoverTopology d.showStatus lease).attempt
      ask .clearProbing
      pure .fresh
  | .client _ =>
    match own with
    | .fresh => do
      runCommand d.showStatus chance.command
      pure .retired
    | _ => pure .retired

end Agent

variable [F64 F]

/-- The processes of a deployment. The coordinator's identifiers and clock are from `e`, the identifiers of objects from
`ids`. -/
def threads (d : Deployment F) (e ids : Env) : Threads (surroundings F) Party (Chance F) Abort Own (Site F) where
  start := Agent.round d
  perform i chance question site := Site.perform d e ids i chance question site

def system (d : Deployment F) (e ids : Env) : Processes Party (Chance F) (Thread (surroundings F) Abort Own) (Site F) :=
  (threads d e ids).processes

/-- Nothing has happened yet. -/
def Site.new (membershipTtlMs executionTtlMs : UInt64) : Site F where
  coordinator := CoordinatorState.new membershipTtlMs executionTtlMs
  log := []
  exchanges := []
  stores _ := ⟨∅⟩
  written := []
  objectIds := 0
  busy _ := false
  probing _ := none
  cells _ := none
  executed := []

def initially (membershipTtlMs executionTtlMs : UInt64) :
    Processes.State Party (Thread (surroundings F) Abort Own) (Site F) :=
  ⟨fun _ => .rests .fresh, Site.new membershipTtlMs executionTtlMs⟩

end Plurifold
