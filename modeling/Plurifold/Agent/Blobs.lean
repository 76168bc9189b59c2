import Plurifold.Agent.Pipeline
import Plurifold.Coordinator.Requests

/-!
# Blobs of the agent: store, server and client (`plurifold-store`, `plurifold-agent`)

An agent keeps blobs under their SHA-256, serves them and ranges of them (`getBlob`), and reads the inputs of a task
from its own store or from replicas (`materializeInput`). What the agent gets from the network and whether the disk
takes a new file is a `World`. Reading past the end of a blob aborts the task (`Abort.panic`): the source has no answer
to it, and the worker stays busy (`busyAfter`).
-/

namespace Plurifold

open Lib Attempt

/-! ## Digests -/

/-- `u8::is_ascii_hexdigit`. -/
def isAsciiHexdigit (c : Char) : Bool := c.isDigit || ('a' ≤ c && c ≤ 'f') || ('A' ≤ c && c ≤ 'F')

/-- SHA-256 in hexadecimal, as the agent gets it from `sha2` and `hex`. -/
structure Sha256 where
  hex : Bytes → String
  hex_digits : ∀ bytes, (hex bytes).length = 64 ∧ (hex bytes).toList.all isAsciiHexdigit = true

/-- The digest of a blob. -/
def Sha256.digest (sha : Sha256) (bytes : Bytes) : String := s!"sha256:{sha.hex bytes}"

/-! ## The store -/

inductive StoreError
  | notFound
  | io (message : String)
  | unsupportedDigest (digest : String)
  | digestMismatch (expected actual : String)
  deriving DecidableEq

def StoreError.message : StoreError → String
  | .notFound => "No such file or directory (os error 2)"
  | .io message => message
  | .unsupportedDigest digest => s!"unsupported digest {digest}"
  | .digestMismatch expected actual => s!"object digest mismatch: expected {expected}, got {actual}"

/-- The files of the store by name, and what reading them gives. Their content may have been damaged. -/
structure LocalObjectStore where
  files : Map String (Except String Bytes)

namespace LocalObjectStore

/-- The name of the file of a digest. -/
def pathForDigest (digest : String) : Except StoreError String :=
  match CoordinatorState.stripLeading "sha256:" digest with
  | none => .error (.unsupportedDigest digest)
  | some hexDigest =>
    if hexDigest.length ≠ 64 || !hexDigest.toList.all isAsciiHexdigit then .error (.unsupportedDigest digest)
    else .ok hexDigest

def verify (sha : Sha256) (expected : String) (bytes : Bytes) : Except StoreError Unit :=
  let actual := sha.digest bytes
  if actual = expected then .ok () else .error (.digestMismatch expected actual)

def get (sha : Sha256) (self : LocalObjectStore) (digest : String) : Except StoreError Bytes := do
  let path ← pathForDigest digest
  match self.files.lookup path with
  | none => .error .notFound
  | some (.error message) => .error (.io message)
  | some (.ok bytes) => do
    verify sha digest bytes
    .ok bytes

def contains (self : LocalObjectStore) (digest : String) : Bool :=
  match pathForDigest digest with
  | .ok path => (self.files.lookup path).isSome
  | .error _ => false

/-- Store a blob and return its digest. An existing file is left as it is; `write` tells whether a new one can be
written. -/
def put (sha : Sha256) (write : Except String Unit) (bytes : Bytes) (self : LocalObjectStore) :
    Except StoreError (String × LocalObjectStore) :=
  if (self.files.lookup (sha.hex bytes)).isSome then .ok (sha.digest bytes, self)
  else
    match write with
    | .error message => .error (.io message)
    | .ok () => .ok (sha.digest bytes, ⟨self.files.insert (sha.hex bytes) (.ok bytes)⟩)

end LocalObjectStore

/-! ## The server -/

structure DataError where
  status : Nat
  message : String
  deriving DecidableEq

/-- What a client sees of a response: the status, the header `x-plurifold-range-digest`, and the body, if it arrives. -/
structure Response where
  status : Nat
  rangeDigest : Option String
  body : Except String Bytes

/-- `HeaderValue::to_str`: visible ASCII, blanks and tabs. -/
def headerText (value : String) : Option String :=
  if value.toList.all fun c => (32 ≤ c.toNat && c.toNat < 127) || c.toNat = 9 then some value else none

/-- `str::split_once`. -/
def splitOnce (separator : Char) : List Char → Option (List Char × List Char)
  | [] => none
  | c :: rest =>
    if c = separator then some ([], rest)
    else (splitOnce separator rest).map fun (before, after) => (c :: before, after)

/-- The range that a `Range` header asks for: its start and its exclusive end. `usize` has 64 bits. -/
def parseByteRange (range : Option String) (total : Nat) : Except DataError (Option (Nat × Nat)) :=
  match range with
  | none => .ok none
  | some value =>
    match headerText value with
    | none => .error ⟨400, "Range header is not valid ASCII"⟩
    | some value =>
      match CoordinatorState.stripLeading "bytes=" value with
      | none => .error ⟨400, "only byte ranges are supported"⟩
      | some spec =>
        if spec.toList.contains ',' then .error ⟨400, "multiple byte ranges are not supported"⟩
        else
          match splitOnce '-' spec.toList with
          | none => .error ⟨400, "invalid byte range"⟩
          | some (start, stop) =>
            match parseU64 start with
            | none => .error ⟨400, "byte range start must be an integer"⟩
            | some start =>
              match parseU64 stop with
              | none => .error ⟨400, "byte range end must be an integer"⟩
              | some stop =>
                if stop < start || decide (total ≤ stop.toNat) then .error ⟨416, "byte range is outside the object"⟩
                else .ok (some (start.toNat, stop.toNat + 1))

/-- `bytes[start..stop]`; the source indexes only where this is in range. -/
def subslice (bytes : Bytes) (start stop : Nat) : Bytes := (bytes.drop start).take (stop - start)

def getBlob (sha : Sha256) (store : LocalObjectStore) (digest : String) (range : Option String) :
    Except DataError Response :=
  match store.get sha s!"sha256:{digest}" with
  | .error .notFound => .error ⟨404, "object not found"⟩
  | .error error => .error ⟨500, error.message⟩
  | .ok bytes =>
    match parseByteRange range bytes.length with
    | .error error => .error error
    | .ok none => .ok { status := 200, rangeDigest := none, body := .ok bytes }
    | .ok (some (start, stop)) =>
      let payload := subslice bytes start stop
      .ok { status := 206, rangeDigest := some (sha.digest payload), body := .ok payload }

/-- What the client receives for the outcome of `getBlob`. The JSON around the message of an error is left out: no client
reads the body of a failed response. -/
def intoResponse : Except DataError Response → Response
  | .ok response => response
  | .error error => { status := error.status, rangeDigest := none, body := .ok (textBytes error.message) }

/-! ## The client -/

/-- What the outside answers while an input is read. -/
structure World where
  /-- A `GET` of a URL, with or without a `Range` header. -/
  get : String → Option String → Except String Response
  /-- How a status is written in a message. -/
  showStatus : Nat → String
  /-- The registration of a new replica with the coordinator. -/
  register : Except String Unit
  /-- Whether a new file can be written. -/
  write : Except String Unit

/-- Why a leased task does not finish. -/
inductive Abort
  | error (message : String)
  | failed (error : ExecError)
  /-- The task aborts: a slice ends past the end of the bytes. -/
  | panic
  deriving DecidableEq

/-- The loop over the replicas for a range. -/
def fetchRange (sha : Sha256) (world : World) (offset stop length : UInt64) :
    List CoordinatorState.ObjectReplica → String → Except Abort Bytes
  | [], lastError => .error (.error lastError)
  | replica :: rest, _ =>
    match world.get replica.url (some s!"bytes={offset}-{stop - 1}") with
    | .error error => fetchRange sha world offset stop length rest error
    | .ok response =>
      if response.status ≠ 206 then fetchRange sha world offset stop length rest
        s!"replica {replica.url} returned {world.showStatus response.status} for byte range"
      else
        match response.rangeDigest.bind headerText with
        | none => fetchRange sha world offset stop length rest s!"replica {replica.url} omitted range digest"
        | some expected =>
          match response.body with
          | .error error => .error (.error error)
          | .ok bytes =>
            if UInt64.ofNat bytes.length ≠ length then fetchRange sha world offset stop length rest
              s!"replica {replica.url} returned {bytes.length} range bytes, expected {length}"
            else
              let actual := sha.digest bytes
              if actual ≠ expected then fetchRange sha world offset stop length rest
                s!"replica range digest mismatch: expected {expected}, received {actual}"
              else .ok bytes

/-- The loop over the replicas for a whole blob, which is stored and registered as a new replica. -/
def fetchBlob (sha : Sha256) (world : World) (digest : String) :
    List CoordinatorState.ObjectReplica → String → Attempt LocalObjectStore Abort Bytes
  | [], lastError => fail (.error lastError)
  | replica :: rest, _ =>
    match world.get replica.url none with
    | .error error => fetchBlob sha world digest rest error
    | .ok response =>
      if !(200 ≤ response.status && response.status < 300) then
        fetchBlob sha world digest rest s!"replica {replica.url} returned {world.showStatus response.status}"
      else
        match response.body with
        | .error error => fail (.error error)
        | .ok bytes => do
          let store ← state
          match store.put sha world.write bytes with
          | .error error => fail (.error error.message)
          | .ok (stored, store) => do
            update fun _ => store
            if stored ≠ digest then
              fetchBlob sha world digest rest s!"replica digest mismatch: expected {digest}, received {stored}"
            else
              match world.register with
              | .error error => fail (.error error)
              | .ok () => pure bytes

/-- The range to read: a range that covers the whole object is none. -/
def normalizeRange (size : UInt64) : Option (UInt64 × UInt64) → Option (UInt64 × UInt64)
  | some (offset, length) => if offset = 0 ∧ length = size then none else some (offset, length)
  | none => none

def materializeInput (sha : Sha256) (world : World) (input : CoordinatorState.ResolvedObject)
    (range : Option (UInt64 × UInt64)) : Attempt LocalObjectStore Abort Bytes := do
  let digest ← okOr input.metadata.digest (.error s!"input {input.metadata.id} has no digest")
  let store ← state
  match normalizeRange input.metadata.sizeBytes range with
  | some (offset, length) =>
    -- `checked_add`
    if 2 ^ 64 ≤ offset.toNat + length.toNat then fail (.error "input byte range overflows")
    else
      let stop := offset + length
      if input.metadata.sizeBytes < stop then fail (.error
        s!"input byte range {offset}..{stop} exceeds object size {input.metadata.sizeBytes}")
      else if length = 0 then pure []
      else if store.contains digest then
        match store.get sha digest with
        | .error error => fail (.error error.message)
        | .ok bytes =>
          -- `bytes[start..end]` with `start ≤ end`
          if bytes.length < stop.toNat then fail .panic else pure (subslice bytes offset.toNat stop.toNat)
      else lift (fetchRange sha world offset stop length input.replicas "no replicas supplied")
  | none =>
    if store.contains digest then
      match store.get sha digest with
      | .error error => fail (.error error.message)
      | .ok bytes => pure bytes
    else fetchBlob sha world digest input.replicas "no replicas supplied"

/-! ## The leased task -/

variable {F : Type}

/-- The loop over the inputs of an assignment, from position `i` on. -/
def materializeInputs (sha : Sha256) (world : World) (task : TaskSpec F) :
    Nat → List CoordinatorState.ResolvedObject → Attempt LocalObjectStore Abort (List Bytes)
  | _, [] => pure []
  | i, input :: rest => do
    let bytes ← materializeInput sha world input (task.inputByteRange i)
    let others ← materializeInputs sha world task (i + 1) rest
    pure (bytes :: others)

/-- Run an assignment and report its output. `complete` is what the coordinator answers to the report; renewing the lease
meanwhile takes no part in it. -/
def executeAndCommit (sha : Sha256) (world : World) (executor : Executor) (e : Env) (resourceId : ResourceId)
    (complete : ObjectMetadata → Except String Unit) (assignment : CoordinatorState.WorkAssignment F) :
    Attempt LocalObjectStore Abort Unit := do
  let inputBytes ← materializeInputs sha world assignment.task 0 assignment.inputs
  match executeTaskWithPolicy executor assignment.task inputBytes with
  | .error error => fail (.failed error)
  | .ok outputBytes => do
    let store ← state
    match store.put sha world.write outputBytes with
    | .error error => fail (.error error.message)
    | .ok (stored, store) => do
      update fun _ => store
      let output : ObjectMetadata := {
        id := ObjectId.new e
        sizeBytes := UInt64.ofNat outputBytes.length
        digest := some stored
        encoding := some "application/octet-stream"
        locations := [resourceId]
        producer := some assignment.task.id }
      match complete output with
      | .error error => fail (.error error)
      | .ok () => pure ()

/-- The busy flag of the worker once the spawned task is over. It is set before the task starts and cleared by the last
statement of the task, which a panic skips. -/
def busyAfter : Except Abort Unit → Bool
  | .error .panic => true
  | _ => false

end Plurifold
