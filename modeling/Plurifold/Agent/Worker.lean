import Plurifold.Agent.Blobs
import Plurifold.Coordinator.Calls
import Plurifold.Lib.Script

/-!
# The agent at work (`plurifold-agent`)

The tasks of an agent run side by side, and other agents run beside them: a worker loop that keeps the membership and
polls, the execution of a leased task, the renewal of its lease, and a probe of the links. Each is a script of the
questions that it asks (`Question`): of its own store and memory, of the data planes of other agents, of the coordinator.
A request to the coordinator is sent and answered in two questions, since much may happen in between, and the answer may
be lost.
-/

namespace Plurifold

open Lib CoordinatorState

/-! ## Questions -/

/-- What comes back for a request to the coordinator. -/
inductive Reception (F : Type)
  /-- No response arrives; the request may have been served all the same. -/
  | lost (error : String)
  /-- A status other than success, and the text of the error if it arrives. -/
  | rejected (status : StatusCode) (message : Option String)
  /-- Success, but the body does not arrive or is not understood. -/
  | garbled (error : String)
  | answered (body : ResponseBody F)

structure ResourceView (F : Type) where
  descriptor : ResourceDescriptor F
  dataEndpoint : Option String

inductive Question (F : Type)
  /-- Look for a blob in the own store. -/
  | contains (digest : String)
  | get (digest : String)
  | put (bytes : Bytes)
  /-- `GET` of a blob from the data plane of an agent. -/
  | fetch (url : String) (range : Option String)
  /-- `GET` of `/v1/probe/{bytes}`; the answer is the time that it took, in milliseconds. -/
  | fetchProbe (endpoint : String) (bytes : Nat)
  /-- `POST` of a blob to the data plane of an agent. -/
  | upload (agent : String) (bytes : Bytes)
  /-- Send a request to the coordinator; the answer is the number of the exchange. -/
  | send (request : Request F)
  | receive (exchange : Nat)
  /-- `GET` of `/v1/resources` from the coordinator. -/
  | resources
  | execute (task : TaskSpec F) (inputs : List Bytes)
  | newObjectId
  | nowUnixMs
  | sleep (ms : UInt64)
  | busy
  /-- Set the busy flag and spawn the execution of an assignment, which is named by the exchange that brought it. -/
  | spawn (exchange : Nat) (assignment : WorkAssignment F)
  /-- The agent and the assignment of the own execution, once it has been spawned. -/
  | assignment
  /-- Clear the busy flag. -/
  | clearBusy
  | leaseState
  | setLeaseState (lease : ExecutionLease)
  | abortRenewal
  /-- Set the probing flag, and spawn a probe if it was not set. -/
  | swapProbing (lease : MembershipLease)
  /-- The lease that the own probe was spawned with. -/
  | probing
  | clearProbing
  /-- The coordinator serves an exchange, if it has not done so yet. -/
  | serve (exchange : Nat)
  | maintain

abbrev Question.Answer {F : Type} : Question F → Type
  | .contains _ => Bool
  | .get _ => Except StoreError Bytes
  | .put _ => Except StoreError String
  | .fetch _ _ => Except String Response
  | .fetchProbe _ _ => Except String F
  | .upload _ _ => Except String ObjectMetadata
  | .send _ => Nat
  | .receive _ => Reception F
  | .resources => Except String (List (ResourceView F))
  | .execute _ _ => Execution
  | .newObjectId => ObjectId
  | .nowUnixMs => UInt64
  | .busy => Bool
  | .assignment => Option (ResourceId × WorkAssignment F)
  | .leaseState => ExecutionLease
  | .probing => Option MembershipLease
  | .sleep _ | .spawn _ _ | .clearBusy | .setLeaseState _ | .abortRenewal | .swapProbing _ | .clearProbing | .serve _ |
    .maintain => Unit

/-- The surroundings of a task. -/
def surroundings (F : Type) : Interface := ⟨Question F, Question.Answer⟩

/-- A task. A panic ends it, and so do the other errors where nobody handles them. -/
abbrev Routine (F α : Type) := Script (surroundings F) Abort α

namespace Agent

variable {F : Type}

def ask (question : Question F) : Routine F question.Answer := Script.put (I := surroundings F) question

/-- An error of the kind that the source returns as a `String`. -/
def orFail {α : Type} : Except String α → Routine F α
  | .ok a => .done a
  | .error error => .fail (.error error)

/-- `trim_end_matches('/')`. -/
def trimEndSlashes (endpoint : String) : String := String.ofList (endpoint.toList.reverse.dropWhile (· = '/')).reverse

/-! ## Requests -/

def statusNumber : StatusCode → Nat
  | .badRequest => 400
  | .notFound => 404
  | .conflict => 409
  | .unprocessableEntity => 422

section Responses

variable (showStatus : Nat → String)

def responseError (status : StatusCode) : Option String → String
  | some message => s!"{showStatus (statusNumber status)}: {message}"
  | none => showStatus (statusNumber status)

def expectSuccess : Reception F → Except String Unit
  | .lost error => .error error
  | .rejected status message => .error (responseError showStatus status message)
  | .garbled _ | .answered _ => .ok ()

/-! The bodies that requests expect. -/

def asMembership : ResponseBody F → Option MembershipLease
  | .membership lease => some lease
  | _ => none

def asWork : ResponseBody F → Option (Option (WorkAssignment F))
  | .work assignment => some assignment
  | _ => none

def asExecution : ResponseBody F → Option ExecutionLease
  | .execution lease => some lease
  | _ => none

/-- `select` is the body that is expected. -/
def parseJson {α : Type} (select : ResponseBody F → Option α) : Reception F → Except String α
  | .lost error => .error error
  | .rejected status message => .error (responseError showStatus status message)
  | .garbled error => .error error
  | .answered body => match select body with
    | some a => .ok a
    | none => .error "error decoding response body"

/-- Send a request and wait for what comes back. -/
def post (request : Request F) : Routine F (Reception F) := do
  let exchange ← ask (.send request)
  ask (.receive exchange)

end Responses

/-! ## Inputs -/

section Inputs

variable (sha : Sha256) (showStatus : Nat → String)

/-- The loop over the replicas for a range. -/
def fetchRange (offset stop length : UInt64) : List ObjectReplica → String → Routine F Bytes
  | [], lastError => .fail (.error lastError)
  | replica :: rest, _ => ask (.fetch replica.url (some s!"bytes={offset}-{stop - 1}")) >>= fun
    | .error error => fetchRange offset stop length rest error
    | .ok response =>
      if response.status ≠ 206 then fetchRange offset stop length rest
        s!"replica {replica.url} returned {showStatus response.status} for byte range"
      else
        match response.rangeDigest.bind headerText with
        | none => fetchRange offset stop length rest s!"replica {replica.url} omitted range digest"
        | some expected =>
          match response.body with
          | .error error => .fail (.error error)
          | .ok bytes =>
            if UInt64.ofNat bytes.length ≠ length then fetchRange offset stop length rest
              s!"replica {replica.url} returned {bytes.length} range bytes, expected {length}"
            else
              let actual := sha.digest bytes
              if actual ≠ expected then fetchRange offset stop length rest
                s!"replica range digest mismatch: expected {expected}, received {actual}"
              else pure bytes

/-- The loop over the replicas for a whole blob, which is stored and registered as a new replica. -/
def fetchBlob (resourceId : ResourceId) (objectId : ObjectId) (digest : String) :
    List ObjectReplica → String → Routine F Bytes
  | [], lastError => .fail (.error lastError)
  | replica :: rest, _ => ask (.fetch replica.url none) >>= fun
    | .error error => fetchBlob resourceId objectId digest rest error
    | .ok response =>
      if !(200 ≤ response.status && response.status < 300) then
        fetchBlob resourceId objectId digest rest s!"replica {replica.url} returned {showStatus response.status}"
      else
        match response.body with
        | .error error => .fail (.error error)
        | .ok bytes => ask (.put bytes) >>= fun
          | .error error => .fail (.error error.message)
          | .ok stored =>
            if stored ≠ digest then
              fetchBlob resourceId objectId digest rest s!"replica digest mismatch: expected {digest}, received {stored}"
            else do
              orFail (expectSuccess showStatus (← post (.registerReplica objectId resourceId)))
              pure bytes

def materializeInput (resourceId : ResourceId) (input : ResolvedObject) (range : Option (UInt64 × UInt64)) :
    Routine F Bytes :=
  match input.metadata.digest with
  | none => .fail (.error s!"input {input.metadata.id} has no digest")
  | some digest =>
    match normalizeRange input.metadata.sizeBytes range with
    | some (offset, length) =>
      -- `checked_add`
      if 2 ^ 64 ≤ offset.toNat + length.toNat then .fail (.error "input byte range overflows")
      else
        let stop := offset + length
        if input.metadata.sizeBytes < stop then .fail (.error
          s!"input byte range {offset}..{stop} exceeds object size {input.metadata.sizeBytes}")
        else if length = 0 then pure []
        else ask (.contains digest) >>= fun
          | true => ask (.get digest) >>= fun
            | .error error => .fail (.error error.message)
            | .ok bytes =>
              -- `bytes[start..end]` with `start ≤ end`
              if bytes.length < stop.toNat then .fail .panic else pure (subslice bytes offset.toNat stop.toNat)
          | false => fetchRange sha showStatus offset stop length input.replicas "no replicas supplied"
    | none => ask (.contains digest) >>= fun
      | true => ask (.get digest) >>= fun
        | .error error => .fail (.error error.message)
        | .ok bytes => pure bytes
      | false => fetchBlob showStatus resourceId input.metadata.id digest input.replicas "no replicas supplied"

/-! ## The leased task -/

/-- The loop over the inputs of an assignment, from position `i` on. -/
def materializeInputs (resourceId : ResourceId) (task : TaskSpec F) : Nat → List ResolvedObject → Routine F (List Bytes)
  | _, [] => pure []
  | i, input :: rest => do
    let bytes ← materializeInput sha showStatus resourceId input (task.inputByteRange i)
    let others ← materializeInputs resourceId task (i + 1) rest
    pure (bytes :: others)

/-- The block of `execute_and_commit` up to the stored output. -/
def workResult (resourceId : ResourceId) (assignment : WorkAssignment F) : Routine F ObjectMetadata := do
  let inputBytes ← materializeInputs sha showStatus resourceId assignment.task 0 assignment.inputs
  ask (.execute assignment.task inputBytes) >>= fun
  | .error error => .fail (.failed error)
  | .ok outputBytes => ask (.put outputBytes) >>= fun
    | .error error => .fail (.error error.message)
    | .ok stored => do
      let id ← ask .newObjectId
      pure {
        id := id
        sizeBytes := UInt64.ofNat outputBytes.length
        digest := some stored
        encoding := some "application/octet-stream"
        locations := [resourceId]
        producer := some assignment.task.id }

/-- The renewal is aborted and the lease read before the output is reported; a panic does neither. -/
def executeAndCommit (resourceId : ResourceId) (assignment : WorkAssignment F) : Routine F Unit :=
  (workResult sha showStatus resourceId assignment).attempt >>= fun
  | .error .panic => .fail .panic
  | .error error => do
    ask .abortRenewal
    .fail error
  | .ok output => do
    ask .abortRenewal
    let lease ← ask .leaseState
    orFail (expectSuccess showStatus (← post (.completeExecution lease [output])))

/-- The spawned task: the busy flag is cleared when the execution is over, whether it failed or not. -/
def spawned (resourceId : ResourceId) (assignment : WorkAssignment F) : Routine F Unit :=
  (executeAndCommit sha showStatus resourceId assignment).attempt >>= fun
  | .error .panic => .fail .panic
  | _ => ask .clearBusy

end Inputs

/-- One round of `renew_execution_loop`; `false` ends the loop. -/
def renewExecution (showStatus : Nat → String) : Routine F Bool := do
  let lease ← ask .leaseState
  let now : UInt64 ← ask .nowUnixMs
  -- `saturating_sub`
  let remaining := if lease.expiresAtUnixMs ≤ now then 0 else lease.expiresAtUnixMs - now
  if remaining = 0 then pure false
  else do
    ask (.sleep (min (max (remaining / 3) 50) 5000))
    let current ← ask .leaseState
    let reception ← post (.renewExecution current)
    match reception with
    | .lost _ => pure true
    | _ =>
      match parseJson showStatus asExecution reception with
      | .ok renewed => do
        ask (.setLeaseState renewed)
        pure true
      | .error _ => pure false

/-! ## The worker -/

section Worker

variable (showStatus : Nat → String) (descriptor : ResourceDescriptor F) (dataEndpoint : String)

def register : Routine F (Except String MembershipLease) := do
  let reception ← post (.registerResource descriptor dataEndpoint)
  pure (parseJson showStatus asMembership reception)

def sendHeartbeat (lease : MembershipLease) : Routine F (Except String MembershipLease) := do
  let reception ← post (.heartbeat lease.resourceId lease.epoch)
  pure (parseJson showStatus asMembership reception)

/-- The exchange is handed on with what it brought. -/
def pollWork (lease : MembershipLease) : Routine F (Nat × Except String (Option (WorkAssignment F))) := do
  let exchange ← ask (.send (.pollWork lease.resourceId lease.epoch))
  let reception ← ask (.receive exchange)
  pure (exchange, parseJson showStatus asWork reception)

/-- The heartbeat branch of `run_worker`: a rejected heartbeat leads to another registration. -/
def heartbeatTick (lease : MembershipLease) : Routine F MembershipLease :=
  sendHeartbeat showStatus lease >>= fun
  | .ok updated => pure updated
  | .error _ => register showStatus descriptor dataEndpoint >>= fun
    | .ok updated => pure updated
    | .error _ => pure lease

/-- The poll branch of `run_worker`; it is not taken while an execution is under way. -/
def pollTick (lease : MembershipLease) : Routine F Unit :=
  ask .busy >>= fun
  | true => pure ()
  | false => pollWork showStatus lease >>= fun
    | (exchange, .ok (some assignment)) => ask (.spawn exchange assignment)
    | (_, .ok none) => pure ()
    | (_, .error _) => pure ()

end Worker

/-! ## Links -/

section Links

variable [F64 F] (showStatus : Nat → String)

def probeBytes : Nat := 256 * 1024

def rttProbeSamples : Nat := 3

/-- `f64::min`, for elapsed times, which are no NaN. -/
def minElapsed (a b : F) : F := if F64.lt b a then b else a

/-- The loop that measures the round trip time. -/
def measureRtt (endpoint : String) : Nat → F → Routine F F
  | 0, rttMs => pure rttMs
  | samples + 1, rttMs => do
    let elapsed ← orFail (← ask (.fetchProbe endpoint 0))
    measureRtt endpoint samples (minElapsed rttMs elapsed)

def measurePeer (endpoint : String) : Routine F (F × F) := do
  let endpoint := trimEndSlashes endpoint
  let rttMs ← measureRtt endpoint rttProbeSamples F64.infinity
  let elapsed ← orFail (← ask (.fetchProbe endpoint probeBytes))
  let payloadElapsedMs := F64.max (elapsed - rttMs) (F64.ofNat 1 / F64.ofNat 10)
  let bandwidthMbps := F64.ofNat probeBytes * F64.ofNat 8 / payloadElapsedMs / F64.ofNat 1000
  pure (rttMs, bandwidthMbps)

/-- The loop over the peers. Of two agents, the one whose identifier is the smaller text measures the link. -/
def measurePeers (lease : MembershipLease) : List (ResourceView F) → Routine F Unit
  | [] => pure ()
  | peer :: rest =>
    if peer.descriptor.id = lease.resourceId ∨
        ¬showUuid lease.resourceId.uuid < showUuid peer.descriptor.id.uuid then measurePeers lease rest
    else
      match peer.dataEndpoint with
      | none => measurePeers lease rest
      | some endpoint => do
        let measured ← (measurePeer endpoint).attempt
        let measurement := match measured with
          | .ok (rttMs, bandwidthMbps) => LinkMeasurement.reachable rttMs bandwidthMbps
          | .error _ => .unreachable
        orFail (expectSuccess showStatus
          (← post (.reportLinkMeasurement lease.resourceId lease.epoch peer.descriptor.id measurement)))
        measurePeers lease rest

def discoverTopology (lease : MembershipLease) : Routine F Unit := do
  let resources ← orFail (← ask .resources)
  measurePeers showStatus lease resources

end Links

end Agent

end Plurifold
