import Plurifold.Agent.Transfer
import Plurifold.Coordinator.Answers
import Plurifold.System.Site

/-!
# What holds in a deployment

`Site.Ok` is what holds whatever the processes have done: the coordinator's table of objects is true, completed tasks are
what executing them gives (`Site.Right`), every request on its way is one that its sender is entitled to make
(`Site.Entitled`), an answer says what the coordinator replied at its turn, and an agent executes what it was assigned, one
task at a time. All of this refers to things that only grow (`Site.Later`).

It holds as long as the blobs that were stored have different hashes (`Site.Sane`).
-/

namespace Plurifold

open Lib Attempt Fabric CoordinatorState

variable {F : Type} {d : Deployment F} {site site' site'' : Site F}

/-! ## Contents -/

/-- The blob of an object. -/
structure Describes (sha : Sha256) (object : ObjectMetadata) (b : Bytes) : Prop where
  digest : object.digest = some (sha.digest b)
  size : object.sizeBytes = UInt64.ofNat b.length

/-- What is read of a blob: all of it, or a range within it. -/
structure ReadsAs (b : Bytes) (range : Option (UInt64 × UInt64)) (bytes : Bytes) : Prop where
  bytes : bytes = requested b range
  inside : ∀ offset length, range = some (offset, length) → offset.toNat + length.toNat ≤ b.length

/-- The lease is for the attempt that an execution was spawned for. -/
structure ExecutionCell.Owns (cell : ExecutionCell F) (lease : ExecutionLease) : Prop where
  task : lease.taskId = cell.assignment.lease.taskId
  attempt : SameAttempt lease cell.assignment.lease

namespace Site

/-- Blobs that were stored have different hashes, and their sizes can be announced. -/
structure Sane (sha : Sha256) (site : Site F) : Prop where
  hex_inj : ∀ b ∈ site.written, ∀ b' ∈ site.written, sha.hex b = sha.hex b' → b = b'
  sizes : ∀ b ∈ site.written, b.length < 2 ^ 64

/-- What is true of objects: their blobs were stored, and an agent at a location holds the blob. -/
def holdings (d : Deployment F) (site : Site F) : Holdings where
  known object := ∃ b ∈ site.written, Describes d.sha object b
  held object r := ∀ digest, object.digest = some digest → (site.storeOf d r).contains digest = true

/-- The content of an object in the table. -/
structure Contents (d : Deployment F) (site : Site F) (o : ObjectId) (b : Bytes) : Prop where
  written : b ∈ site.written
  known : ∃ known, site.coordinator.fabric.identityOf o = some known ∧ Describes d.sha known b

/-- The output of a task, executed by agent `r` on what it reads of the contents of its inputs. -/
def Produces (d : Deployment F) (site : Site F) (r : ResourceId) (task : TaskSpec F) (output : Bytes) : Prop :=
  ∃ inputs, List.Forall₂ (fun entry bytes => ∃ b, site.Contents d entry.1 b ∧ ReadsAs b (task.inputByteRange entry.2) bytes)
    task.inputs.zipIdx inputs ∧ executeTaskWithPolicy (d.executor r) task inputs = .ok output

/-- The outputs of a task are what executing it gives. -/
def Right (d : Deployment F) (site : Site F) (t : TaskId) (outputs : List ObjectId) : Prop :=
  ∃ task o output r, site.coordinator.fabric.taskSpec t = some task ∧ outputs = [o] ∧ site.Contents d o output ∧
    site.Produces d r task output

/-! ## What only grows -/

structure Later (site site' : Site F) : Prop where
  remembers : Remembers site.coordinator.fabric site'.coordinator.fabric
  log : site.log <+: site'.log
  written : site.written ⊆ site'.written
  files : ∀ dir name file, (site.stores dir).files.lookup name = some file → (site'.stores dir).files.lookup name = some file
  exchanges : ∀ (n : Nat) (x : Exchange F), site.exchanges[n]? = some x →
    ∃ answer, site'.exchanges[n]? = some { x with answer } ∧ ∀ a, x.answer = some a → answer = some a
  cells : ∀ n cell, site.cells n = some cell → ∃ cell', site'.cells n = some cell' ∧ cell'.agent = cell.agent ∧
    cell'.assignment = cell.assignment ∧ (cell.finished = true → cell'.finished = true)
  executed : site.executed ⊆ site'.executed

instance : IsPreorder (Site F) Later where
  refl site := {
    remembers := refl_of Remembers _
    log := List.prefix_refl _
    written := List.Subset.refl _
    files := fun _ _ _ h => h
    exchanges := fun n x h => ⟨x.answer, h, fun _ h => h⟩
    cells := fun n cell h => ⟨cell, h, rfl, rfl, id⟩
    executed := List.Subset.refl _ }
  trans site site' site'' h h' := {
    remembers := trans_of Remembers h.remembers h'.remembers
    log := h.log.trans h'.log
    written := List.Subset.trans h.written h'.written
    files := fun dir name file hfile => h'.files dir name file (h.files dir name file hfile)
    exchanges := fun n x hx => by
      obtain ⟨answer, hx', hanswer⟩ := h.exchanges n x hx
      obtain ⟨answer', hx'', hanswer'⟩ := h'.exchanges n _ hx'
      exact ⟨answer', hx'', fun a ha => hanswer' a (hanswer a ha)⟩
    cells := fun n cell hcell => by
      obtain ⟨cell', hcell', hagent, hassignment, hfinished⟩ := h.cells n cell hcell
      obtain ⟨cell'', hcell'', hagent', hassignment', hfinished'⟩ := h'.cells n cell' hcell'
      exact ⟨cell'', hcell'', hagent'.trans hagent, hassignment'.trans hassignment, fun hf => hfinished' (hfinished hf)⟩
    executed := List.Subset.trans h.executed h'.executed }

theorem Later.contains (h : Later site site') {dir digest : String} (hthere : (site.stores dir).contains digest = true) :
    (site'.stores dir).contains digest = true := by
  unfold LocalObjectStore.contains at hthere ⊢
  cases hpath : LocalObjectStore.pathForDigest digest with
  | error error =>
    rw [hpath] at hthere
    cases hthere
  | ok path =>
    rw [hpath] at hthere
    obtain ⟨file, hfile⟩ := Option.isSome_iff_exists.mp hthere
    exact Option.isSome_iff_exists.mpr ⟨file, h.files dir path file hfile⟩

theorem Later.known (h : Later site site') (object : ObjectMetadata) (hknown : (site.holdings d).known object) :
    (site'.holdings d).known object := by
  obtain ⟨b, hb, hdescribes⟩ := hknown
  exact ⟨b, h.written hb, hdescribes⟩

theorem Later.held (h : Later site site') (object : ObjectMetadata) (r : ResourceId) (hheld : (site.holdings d).held object r) :
    (site'.holdings d).held object r := fun digest hdigest => h.contains (hheld digest hdigest)

theorem Contents.later {o : ObjectId} {b : Bytes} (hc : site.Contents d o b) (h : Later site site') :
    site'.Contents d o b where
  written := h.written hc.written
  known := by
    obtain ⟨known, hknown, hdescribes⟩ := hc.known
    exact ⟨known, h.remembers.identities o known hknown, hdescribes⟩

theorem Produces.later {r : ResourceId} {task : TaskSpec F} {output : Bytes} (hp : site.Produces d r task output)
    (h : Later site site') : site'.Produces d r task output := by
  obtain ⟨inputs, hinputs, hrun⟩ := hp
  refine ⟨inputs, hinputs.imp fun entry bytes hentry => ?_, hrun⟩
  obtain ⟨b, hb, hreads⟩ := hentry
  exact ⟨b, hb.later h, hreads⟩

theorem Right.later {t : TaskId} {outputs : List ObjectId} (hr : site.Right d t outputs) (h : Later site site') :
    site'.Right d t outputs := by
  obtain ⟨task, o, output, r, htask, houtputs, hcontents, hproduces⟩ := hr
  exact ⟨task, o, output, r, h.remembers.specs t task htask, houtputs, hcontents.later h, hproduces.later h⟩

/-! ## Requests and answers -/

/-- What an execution of `cell` reports: one object, which is the output of its task. It is listed for the agent alone,
and whom an object is listed for holds its blob. -/
def Reports (d : Deployment F) (site : Site F) (cell : ExecutionCell F) (outputs : List ObjectMetadata) : Prop :=
  ∃ object output, outputs = [object] ∧ object.locations = [cell.agent] ∧ (site.holdings d).Lists object ∧
    output ∈ site.written ∧ Describes d.sha object output ∧ site.Produces d cell.agent cell.assignment.task output

/-- The sender speaks for itself, and what it tells is true. -/
def Entitled (d : Deployment F) (site : Site F) (sender : Party) : Request F → Prop
  | .registerResource descriptor _ => ∃ r, sender = .worker r ∧ descriptor = d.descriptor r
  | .heartbeat r _ | .pollWork r _ => sender = .worker r
  | .renewExecution lease => ∃ n cell, sender = .renewal n ∧ site.cells n = some cell ∧ cell.Owns lease
  | .completeExecution lease outputs =>
    ∃ n cell, sender = .execution n ∧ site.cells n = some cell ∧ cell.Owns lease ∧ site.Reports d cell outputs
  | .publishObject object => (∃ n, sender = .client n) ∧ (site.holdings d).Lists object
  | .registerReplica o r => (∃ n cell, sender = .execution n ∧ site.cells n = some cell ∧ cell.agent = r) ∧
      ∃ known, site.coordinator.fabric.identityOf o = some known ∧ (site.holdings d).held known r
  | .reportLinkMeasurement reporter _ peer _ =>
    sender = .discovery reporter ∧ showUuid reporter.uuid < showUuid peer.uuid
  | .submitTask _ | .submitCooperativeJob _ | .submitPlannedJob _ _ | .updateLink _ => ∃ n, sender = .client n
  | .maintenanceTick => False

theorem Reports.later {cell cell' : ExecutionCell F} {outputs : List ObjectMetadata} (hr : site.Reports d cell outputs)
    (h : Later site site') (hagent : cell'.agent = cell.agent) (hassignment : cell'.assignment = cell.assignment) :
    site'.Reports d cell' outputs := by
  obtain ⟨object, output, houtputs, hlocations, hlists, hwritten, hdescribes, hproduces⟩ := hr
  refine ⟨object, output, houtputs, by rw [hagent]; exact hlocations, hlists.mono h.known h.held, h.written hwritten,
    hdescribes, ?_⟩
  rw [hagent, hassignment]
  exact hproduces.later h

theorem Entitled.later {sender : Party} {request : Request F} (hr : site.Entitled d sender request) (h : Later site site') :
    site'.Entitled d sender request := by
  have owns : ∀ {n cell lease}, site.cells n = some cell → cell.Owns lease → ∃ cell', site'.cells n = some cell' ∧
      cell'.agent = cell.agent ∧ cell'.assignment = cell.assignment ∧ cell'.Owns lease := by
    intro n cell lease hcell howns
    obtain ⟨cell', hcell', hagent, hassignment, -⟩ := h.cells n cell hcell
    exact ⟨cell', hcell', hagent, hassignment, by rw [hassignment]; exact howns.task, by rw [hassignment]; exact howns.attempt⟩
  cases request with
  | renewExecution lease =>
    obtain ⟨n, cell, hsender, hcell, howns⟩ := hr
    obtain ⟨cell', hcell', -, -, howns'⟩ := owns hcell howns
    exact ⟨n, cell', hsender, hcell', howns'⟩
  | completeExecution lease outputs =>
    obtain ⟨n, cell, hsender, hcell, howns, hreports⟩ := hr
    obtain ⟨cell', hcell', hagent, hassignment, howns'⟩ := owns hcell howns
    exact ⟨n, cell', hsender, hcell', howns', hreports.later h hagent hassignment⟩
  | publishObject object => exact ⟨hr.1, hr.2.mono h.known h.held⟩
  | registerReplica o r =>
    obtain ⟨⟨n, cell, hsender, hcell, hagent⟩, known, hknown, hheld⟩ := hr
    obtain ⟨cell', hcell', hagent', -⟩ := h.cells n cell hcell
    exact ⟨⟨n, cell', hsender, hcell', hagent'.trans hagent⟩, known, h.remembers.identities o known hknown,
      h.held known r hheld⟩
  | _ => exact hr

/-- Entitled senders are honest. -/
theorem Entitled.honest {sender : Party} {request : Request F} (h : site.Entitled d sender request) :
    (site.holdings d).Honest site.coordinator.fabric request := by
  cases request with
  | publishObject object => exact h.2
  | registerReplica o r => exact h.2
  | completeExecution lease outputs =>
    obtain ⟨n, cell, -, -, -, object, output, rfl, -, hlists, -⟩ := h
    intro object' hobject
    obtain rfl := List.mem_singleton.mp hobject
    exact hlists
  | _ => trivial

/-- The request was served in its turn, and the answer is what the coordinator replied then. -/
structure Answered [F64 F] (e : Env) (m x : UInt64) (site : Site F) (request : Request F) (turn : Nat)
    (result : Except ApiError (ResponseBody F)) : Prop where
  served : site.log[turn]? = some request
  replied : (respond (turnEnv e turn) request (CoordinatorState.run e (CoordinatorState.new m x) (site.log.take turn))).1 =
    result
  tells : ∀ body, result = .ok body → Answers site.coordinator.fabric request body

theorem Answered.later [F64 F] {e : Env} {m x : UInt64} {request : Request F} {turn : Nat}
    {result : Except ApiError (ResponseBody F)} (ha : site.Answered e m x request turn result) (h : Later site site') :
    site'.Answered e m x request turn result := by
  have hturn := (List.getElem?_eq_some_iff.mp ha.served).1
  obtain ⟨rest, hlog⟩ := h.log
  refine ⟨?_, ?_, fun body hbody => (ha.tells body hbody).mono h.remembers⟩
  · rw [← hlog, List.getElem?_append_left hturn]
    exact ha.served
  · rw [← hlog, List.take_append_of_le_length (Nat.le_of_lt hturn)]
    exact ha.replied

/-- Execution `n` was spawned for the assignment that exchange `n` brought. -/
structure Spawned (site : Site F) (n : Nat) (cell : ExecutionCell F) : Prop where
  exchange : ∃ epoch turn, site.exchanges[n]? =
    some ⟨.worker cell.agent, .pollWork cell.agent epoch, some (turn, .ok (.work (some cell.assignment)))⟩
  owns : cell.Owns cell.leaseState

theorem Spawned.later {n : Nat} {cell cell' : ExecutionCell F} (hs : site.Spawned n cell) (h : Later site site')
    (hagent : cell'.agent = cell.agent) (hassignment : cell'.assignment = cell.assignment)
    (howns : cell'.Owns cell'.leaseState) : site'.Spawned n cell' where
  exchange := by
    obtain ⟨epoch, turn, hx⟩ := hs.exchange
    obtain ⟨answer, hx', hanswer⟩ := h.exchanges n _ hx
    refine ⟨epoch, turn, ?_⟩
    rw [hx', hanswer _ rfl, hagent, hassignment]
  owns := howns

/-! ## The invariant -/

structure Ok [F64 F] (d : Deployment F) (e : Env) (m x : UInt64) (site : Site F) : Prop where
  /-- The coordinator has served the requests of the log. -/
  coordinator : site.coordinator = CoordinatorState.run e (CoordinatorState.new m x) site.log
  named : TasksNamed site.coordinator.fabric
  /-- Files are named by the hash of their content. -/
  files : ∀ dir name file, (site.stores dir).files.lookup name = some file →
    ∃ b ∈ site.written, file = .ok b ∧ d.sha.hex b = name
  table : (site.holdings d).Table site.coordinator.fabric
  completed : ∀ t outputs, site.coordinator.fabric.taskStatus t = some (.completed outputs) → site.Right d t outputs
  requests : ∀ (n : Nat) (exchange : Exchange F), site.exchanges[n]? = some exchange → site.Entitled d exchange.sender exchange.request
  answers : ∀ (n : Nat) (exchange : Exchange F) turn result, site.exchanges[n]? = some exchange → exchange.answer = some (turn, result) →
    site.Answered e m x exchange.request turn result
  /-- Each turn is for one exchange. -/
  turns : ∀ (n n' : Nat) (exchange exchange' : Exchange F) turn result result', site.exchanges[n]? = some exchange →
    site.exchanges[n']? = some exchange' → exchange.answer = some (turn, result) →
    exchange'.answer = some (turn, result') → n = n'
  cells : ∀ n cell, site.cells n = some cell → site.Spawned n cell
  idle : ∀ r n cell, site.busy r = false → site.cells n = some cell → cell.agent = r → cell.finished = true
  busy : ∀ r, site.busy r = true → ∃ n cell, site.cells n = some cell ∧ cell.agent = r ∧ cell.finished = false
  /-- At most one execution of an agent is under way. -/
  alone : ∀ n n' cell cell', site.cells n = some cell → site.cells n' = some cell' → cell.agent = cell'.agent →
    cell.finished = false → cell'.finished = false → n = n'
  executed : ∀ n t, (n, t) ∈ site.executed → ∃ cell, site.cells n = some cell ∧ cell.assignment.lease.taskId = t
  /-- Every execution executes its task once. -/
  once : (site.executed.map Prod.fst).Nodup
  probing : ∀ r lease, site.probing r = some lease → lease.resourceId = r

/-- What the others leave to a process: only a worker makes its agent busy and spawns its executions, and only an
execution itself executes its task and finishes. -/
def Undisturbed (i : Party) (site site' : Site F) : Prop :=
  match i with
  | .worker r => (site.busy r = false → site'.busy r = false) ∧
      ∀ n cell', site'.cells n = some cell' → cell'.agent = r → ∃ cell, site.cells n = some cell ∧ cell.agent = r
  | .execution n => (∀ cell', site'.cells n = some cell' → cell'.finished = true →
        ∃ cell, site.cells n = some cell ∧ cell.finished = true) ∧
      ∀ t, (n, t) ∈ site'.executed → (n, t) ∈ site.executed
  | _ => True

/-- What leaves the agents alone disturbs nobody. -/
theorem Undisturbed.of_same (i : Party) (hbusy : site'.busy = site.busy) (hcells : site'.cells = site.cells)
    (hexecuted : site'.executed = site.executed) : Undisturbed i site site' := by
  cases i with
  | worker r => exact ⟨fun h => by rw [hbusy]; exact h, fun n cell hcell hr => ⟨cell, by rw [← hcells]; exact hcell, hr⟩⟩
  | execution n =>
    exact ⟨fun cell hcell hf => ⟨cell, by rw [← hcells]; exact hcell, hf⟩, fun t ht => by rw [← hexecuted]; exact ht⟩
  | _ => trivial

theorem Undisturbed.refl (i : Party) (site : Site F) : Undisturbed i site site := .of_same i rfl rfl rfl

theorem Undisturbed.trans {i : Party} (h : Undisturbed i site site') (h' : Undisturbed i site' site'') :
    Undisturbed i site site'' := by
  cases i with
  | worker r =>
    refine ⟨fun hidle => h'.1 (h.1 hidle), fun n cell'' hcell'' hr'' => ?_⟩
    obtain ⟨cell', hcell', hr'⟩ := h'.2 n cell'' hcell'' hr''
    exact h.2 n cell' hcell' hr'
  | execution n =>
    refine ⟨fun cell'' hcell'' hf => ?_, fun t ht => h.2 t (h'.2 t ht)⟩
    obtain ⟨cell', hcell', hf'⟩ := h'.1 cell'' hcell'' hf
    exact h.1 cell' hcell' hf'
  | _ => trivial

/-- What may have become of a site since, if process `i` has done nothing of its own. -/
structure Since (i : Party) (site site' : Site F) : Prop where
  later : Later site site'
  undisturbed : Undisturbed i site site'

theorem Since.refl (i : Party) (site : Site F) : Since i site site := ⟨refl_of Later site, .refl i site⟩

theorem Since.trans {i : Party} (h : Since i site site') (h' : Since i site' site'') : Since i site site'' :=
  ⟨trans_of Later h.later h'.later, h.undisturbed.trans h'.undisturbed⟩

/-- Nobody else spawns an execution for an exchange of a worker. -/
theorem Since.no_cell [F64 F] {e : Env} {m x : UInt64} {r : ResourceId} {n : Nat} {exchange : Exchange F}
    (h : Since (.worker r) site site') (hok : Ok d e m x site') (hx : site.exchanges[n]? = some exchange)
    (hsender : exchange.sender = .worker r) (hnone : site.cells n = none) : site'.cells n = none := by
  cases hcell : site'.cells n with
  | none => rfl
  | some cell' =>
    -- the execution would be of the agent whose worker made the exchange
    obtain ⟨epoch, turn, hx'⟩ := (hok.cells n cell' hcell).exchange
    obtain ⟨answer, hx'', -⟩ := h.later.exchanges n exchange hx
    rw [hx'] at hx''
    have hagent : cell'.agent = r := by
      have hsame := congrArg Exchange.sender (Option.some.inj hx'')
      exact Party.worker.inj (hsame.trans hsender)
    obtain ⟨cell, hold, -⟩ := h.undisturbed.2 n cell' hcell hagent
    rw [hnone] at hold
    cases hold

end Site

open Site Threads

/-- What the processes of a deployment grant each other. -/
def siteTerms [F64 F] (d : Deployment F) (e : Env) (m x : UInt64) : Terms Party (Site F) where
  inv := Site.Ok d e m x
  rely := Since
  refl := Since.refl
  trans _ {_ _ _} h h' := h.trans h'

theorem Site.Later.sane {sha : Sha256} (h : Later site site') (hsane : Sane sha site') : Sane sha site where
  hex_inj b hb b' hb' := hsane.hex_inj b (h.written hb) b' (h.written hb')
  sizes b hb := hsane.sizes b (h.written hb)

variable [F64 F]

/-- Blobs with the same hash have been stored. -/
def collided (d : Deployment F) (e : Env) (m x : UInt64) : (siteTerms d e m x).Escape where
  bad site := ¬Sane d.sha site
  stays hrely hbad hsane := hbad (hrely.later.sane hsane)

/-- The terms, until blobs with the same hash have been stored. -/
def soundTerms (d : Deployment F) (e : Env) (m x : UInt64) : Terms Party (Site F) :=
  (siteTerms d e m x).unless (collided d e m x)

/-- Nothing has happened, and all is well. -/
theorem Site.ok_new (d : Deployment F) (e : Env) (m x : UInt64) : Site.Ok d e m x (Site.new m x) where
  coordinator := rfl
  named := ⟨fun _ _ h => (by cases h), fun _ _ h => (by cases h)⟩
  files _ _ _ h := by cases h
  table _ _ h := by cases h
  completed _ _ h := by cases h
  requests _ _ h := by cases h
  answers _ _ _ _ h := by cases h
  turns _ _ _ _ _ _ _ h := by cases h
  cells _ _ h := by cases h
  idle _ _ _ _ h := by cases h
  busy _ h := by cases h
  alone _ _ _ _ h := by cases h
  executed _ _ h := by cases h
  once := .nil
  probing _ _ h := by cases h

end Plurifold
