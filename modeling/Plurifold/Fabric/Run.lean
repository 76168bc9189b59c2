import Plurifold.Fabric.Operations

/-!
# Runs of the fabric

An `Op` is one call of an operation with its arguments, `exec` its effect, `trace` a run: every call with the state
before it, the state after it and its reply. Clients are not trusted: a lease, an object or a task specification in an
`Op` is any value. Each call draws its clock readings, identifiers and iteration orders from its own part of the
environment.
-/

namespace Plurifold

open Lib Attempt

variable {F : Type} [F64 F]

inductive Op (F : Type)
  | setTopology (topology : TopologySnapshot F)
  | upsertLink (link : LinkProfile F)
  | removeLink (a b : ResourceId)
  | registerResource (descriptor : ResourceDescriptor F)
  | heartbeat (resource : ResourceId) (epoch : UInt64)
  | unregisterResource (resource : ResourceId)
  | expireResourcesAt (unixMs : UInt64)
  | publishObject (object : ObjectMetadata)
  | addObjectLocation (object : ObjectId) (resource : ResourceId)
  | submit (task : TaskSpec F)
  | submitCooperative (job : CooperativeJobSpec F)
  | submitLogical (job : LogicalJobSpec F)
  | beginExecution (task : TaskId) (resource : ResourceId)
  | renewExecution (lease : ExecutionLease)
  | completeExecution (lease : ExecutionLease) (outputs : List ObjectMetadata)
  | reapExpiredExecutionsAt (unixMs : UInt64)
  | refreshReadyRoles

/-- What a call returns. -/
inductive Reply
  | unit
  | membership (lease : MembershipLease)
  | resources (ids : List ResourceId)
  | task (id : TaskId)
  | job (id : JobId)
  | lease (lease : ExecutionLease)
  | tasks (ids : List TaskId)
  deriving DecidableEq

namespace Fabric

/-- The effect of a call. -/
def exec (e : Env) : Op F → FabricM F Reply
  | .setTopology topology => do update (setTopology topology); pure .unit
  | .upsertLink link => do update (upsertLink link); pure .unit
  | .removeLink a b => do update (removeLink a b); pure .unit
  | .registerResource descriptor => fun s =>
    let (lease, s) := registerResource e descriptor s
    (.ok (.membership lease), s)
  | .heartbeat resource epoch => do return .membership (← heartbeat e resource epoch)
  | .unregisterResource resource => do update (unregisterResource resource); pure .unit
  | .expireResourcesAt unixMs => fun s =>
    let (ids, s) := expireResourcesAt e unixMs s
    (.ok (.resources ids), s)
  | .publishObject object => do publishObject object; pure .unit
  | .addObjectLocation object resource => do addObjectLocation object resource; pure .unit
  | .submit task => do return .task (← submit task)
  | .submitCooperative job => do return .job (← submitCooperative e job)
  | .submitLogical job => do return .job (← submitLogical e job)
  | .beginExecution task resource => do return .lease (← beginExecution e task resource)
  | .renewExecution lease => do return .lease (← renewExecution e lease)
  | .completeExecution lease outputs => do completeExecution e lease outputs; pure .unit
  | .reapExpiredExecutionsAt unixMs => fun s =>
    let (ids, s) := reapExpiredExecutionsAt e unixMs s
    (.ok (.tasks ids), s)
  | .refreshReadyRoles => do refreshReadyRoles e; pure .unit

section Exec

variable (e : Env) (s : Fabric F)

theorem exec_heartbeat (r : ResourceId) (epoch : UInt64) : exec e (.heartbeat r epoch) s =
    ((heartbeat e r epoch s).1.map .membership, (heartbeat e r epoch s).2) := bind_pure_apply _ _ _

theorem exec_publishObject (object : ObjectMetadata) : exec e (.publishObject object) s =
    ((publishObject object s).1.map fun _ => .unit, (publishObject object s).2) := bind_pure_apply _ _ _

theorem exec_submitCooperative (job : CooperativeJobSpec F) : exec e (.submitCooperative job) s =
    ((submitCooperative e job s).1.map .job, (submitCooperative e job s).2) := bind_pure_apply _ _ _

theorem exec_submitLogical (job : LogicalJobSpec F) : exec e (.submitLogical job) s =
    ((submitLogical e job s).1.map .job, (submitLogical e job s).2) := bind_pure_apply _ _ _

theorem exec_beginExecution (t : TaskId) (r : ResourceId) : exec e (.beginExecution t r) s =
    ((beginExecution e t r s).1.map .lease, (beginExecution e t r s).2) := bind_pure_apply _ _ _

theorem exec_renewExecution (lease : ExecutionLease) : exec e (.renewExecution lease) s =
    ((renewExecution e lease s).1.map .lease, (renewExecution e lease s).2) := bind_pure_apply _ _ _

theorem exec_completeExecution (lease : ExecutionLease) (outputs : List ObjectMetadata) :
    exec e (.completeExecution lease outputs) s =
      ((completeExecution e lease outputs s).1.map fun _ => .unit, (completeExecution e lease outputs s).2) :=
  bind_pure_apply _ _ _

theorem exec_refreshReadyRoles : exec e .refreshReadyRoles s =
    ((refreshReadyRoles e s).1.map fun _ => .unit, (refreshReadyRoles e s).2) := bind_pure_apply _ _ _

end Exec

end Fabric

/-- One call of a run. -/
structure Event (F : Type) where
  env : Env
  op : Op F
  before : Fabric F
  reply : Except FabricError Reply
  after : Fabric F

/-- The call of `op` on `s`. -/
def Event.of (e : Env) (s : Fabric F) (op : Op F) : Event F where
  env := e
  op := op
  before := s
  reply := (Fabric.exec e op s).1
  after := (Fabric.exec e op s).2

/-- The calls of a run, in order. -/
def trace (e : Env) (s : Fabric F) : List (Op F) → List (Event F)
  | [] => []
  | op :: ops => Event.of (e.sub 0) s op :: trace (e.sub 1) (Event.of (e.sub 0) s op).after ops

/-- The state at the end of a run. -/
def final (e : Env) (s : Fabric F) : List (Op F) → Fabric F
  | [] => s
  | op :: ops => final (e.sub 1) (Fabric.exec (e.sub 0) op s).2 ops

/-! ## Invariants of runs -/

section Rule

variable {I : Env → List (Event F) → Fabric F → Prop} {C : Event F → Prop}
  (hstep : ∀ e history s op, I e history s → C (Event.of (e.sub 0) s op) →
    I (e.sub 1) (history ++ [Event.of (e.sub 0) s op]) (Event.of (e.sub 0) s op).after)

include hstep

/-- What every call keeps, of the calls so far, the state, and the world still to come, holds around every call. -/
theorem trace_rule {post : List (Event F)} {ev : Event F} : ∀ (ops : List (Op F)) (e : Env)
    (history : List (Event F)) (s : Fabric F) (pre : List (Event F)), I e history s → (∀ ev ∈ trace e s ops, C ev) →
    trace e s ops = pre ++ ev :: post →
    ∃ e', ev = Event.of (e'.sub 0) ev.before ev.op ∧ I e' (history ++ pre) ev.before ∧
      I (e'.sub 1) (history ++ pre ++ [ev]) ev.after
  | [], _, _, _, _, _, _, h => by simp [trace] at h
  | op :: ops, e, history, s, [], hI, hC, h => by
    obtain ⟨rfl, -⟩ := List.cons.inj h
    have hnext := hstep e history s op hI (hC _ (List.mem_cons_self ..))
    refine ⟨e, rfl, ?_, ?_⟩ <;> rwa [List.append_nil]
  | op :: ops, e, history, s, first :: pre, hI, hC, h => by
    obtain ⟨rfl, hrest⟩ := List.cons.inj h
    have hnext := hstep e history s op hI (hC _ (List.mem_cons_self ..))
    have hlater : ∀ ev ∈ trace (e.sub 1) (Event.of (e.sub 0) s op).after ops, C ev := fun ev hev =>
      hC ev (List.mem_cons_of_mem _ hev)
    obtain ⟨e', hev, hbefore, hafter⟩ := trace_rule ops (e.sub 1) _ _ pre hnext hlater hrest
    rw [List.append_assoc history] at hbefore hafter
    exact ⟨e', hev, hbefore, hafter⟩

/-- What every call keeps holds at the end of a run. -/
theorem final_rule : ∀ (ops : List (Op F)) (e : Env) (history : List (Event F)) (s : Fabric F), I e history s →
    (∀ ev ∈ trace e s ops, C ev) → ∃ e', I e' (history ++ trace e s ops) (final e s ops)
  | [], e, history, s, hI, _ => ⟨e, by rwa [trace, List.append_nil]⟩
  | op :: ops, e, history, s, hI, hC => by
    have hnext := hstep e history s op hI (hC _ (List.mem_cons_self ..))
    obtain ⟨e', hI'⟩ := final_rule ops (e.sub 1) _ _ hnext fun ev hev => hC ev (List.mem_cons_of_mem _ hev)
    exact ⟨e', by rwa [List.append_assoc] at hI'⟩

end Rule

/-! ## Sample values

A resource, a task and a clock that advances by one millisecond a call, for runs on concrete inputs. -/

namespace Sample

def resource (n : Nat) : ResourceDescriptor ℚ where
  id := ⟨n⟩
  epoch := 0
  architecture := .x86_64
  memoryBytes := 1024
  accelerators := []
  features := ∅
  performanceScore := 1
  queueDelayMs := 0
  startupDelayMs := 0
  failureProbability := 0

def task (n : Nat) : TaskSpec ℚ where
  id := ⟨n⟩
  artifact := "builtin:echo"
  entrypoint := "run"
  arguments := []
  inputs := []
  requirements := {}
  effects := .pure
  cost := ⟨1, 0⟩
  shard := none
  pipeline := none

/-- The number of calls made before the reading. -/
def clock (path : List Nat) : UInt64 := UInt64.ofNat (path.takeWhile fun i => i = 1).length

end Sample

end Plurifold
