import Plurifold.Coordinator.Calls
import Plurifold.Fabric.Origin
import Plurifold.Fabric.Table

/-!
# What the coordinator remembers and what it answers

What the coordinator knows of a task or of the identity of an object it knows from then on (`respond_remembers`). It
believes what honest requests tell of objects (`respond_table`), and a task is completed by a report of its outputs only
(`respond_completes`). An assignment that it hands out is the task as it was submitted, with inputs as they are in the table
and URLs of their blobs (`respond_work`).
-/

namespace Plurifold

open Lib Attempt Fabric CoordinatorState

variable {F : Type} {c : CoordinatorState F} {s s' : Fabric F}

/-! ## Calls one after the other -/

section

variable [F64 F]

theorem perform_keeps {e : Env} {P : Fabric F → Prop} : ∀ {calls : List (Call F)},
    (∀ call ∈ calls, ∀ s, P s → P (Event.of (e.under call.part) s call.op).after) →
    ∀ {s : Fabric F}, P s → P (perform e calls s)
  | [], _, _, hs => hs
  | call :: _, hcall, s, hs =>
    perform_keeps (fun call' hmem => hcall call' (List.mem_cons_of_mem _ hmem))
      (hcall call (List.mem_cons_self ..) s hs)

/-! ## What is remembered -/

theorem perform_remembers (e : Env) (calls : List (Call F)) (s : Fabric F) : Remembers s (perform e calls s) :=
  perform_keeps (P := Remembers s) (fun call _ s' h => trans_of Remembers h (event_remembers _ s' call.op))
    (refl_of Remembers s)

/-- **The coordinator does not forget.** -/
theorem respond_remembers (e : Env) (request : Request F) (c : CoordinatorState F) :
    Remembers c.fabric (respond e request c).2.fabric := by
  obtain ⟨calls, h⟩ := respond_calls e request c
  rw [h.fabric]
  exact perform_remembers e calls c.fabric

/-- Tasks and the leases for them are stored under the identifier of the task. -/
structure TasksNamed (s : Fabric F) : Prop where
  specs : ∀ t spec, s.taskSpec t = some spec → spec.id = t
  leases : ∀ t lease, s.taskStatus t = some (.running lease) → lease.taskId = t

theorem event_tasksNamed (e : Env) (op : Op F) (h : TasksNamed s) : TasksNamed (Event.of e s op).after where
  specs t spec hspec := by
    obtain ⟨record, hl, rfl⟩ := Option.map_eq_some_iff.mp hspec
    have hmoves := event_moves e s op t
    cases hb : s.tasks.lookup t with
    | none =>
      rw [hb, hl] at hmoves
      cases hmoves with
      | submitted spec hid => exact hid
    | some before =>
      rw [hb] at hmoves
      obtain ⟨status, hafter⟩ := hmoves.spec
      rw [hl] at hafter
      cases hafter
      exact h.specs t before.spec (taskSpec_of_lookup hb)
  leases t lease hlease := by
    obtain ⟨spec, hl⟩ := taskStatus_eq hlease
    have hmoves := event_moves e s op t
    rw [hl] at hmoves
    generalize hb : s.tasks.lookup t = before at hmoves
    cases hmoves with
    | stays => exact h.leases t lease (taskStatus_of_lookup hb)
    | begins spec lease hbegun =>
      obtain ⟨r, spec, -, -, -, -, -, ht⟩ := begun_cases hbegun
      exact ht
    | renews spec presented current deadline hop ht hcurrent => exact h.leases t current (taskStatus_of_lookup hb)

theorem respond_tasksNamed (e : Env) (request : Request F) (h : TasksNamed c.fabric) :
    TasksNamed (respond e request c).2.fabric := by
  obtain ⟨calls, hcalls⟩ := respond_calls e request c
  rw [hcalls.fabric]
  exact perform_keeps (P := TasksNamed) (fun call _ s hs => event_tasksNamed _ call.op hs) h

end

/-! ## Honest requests -/

section Honest

variable {H H' : Holdings}

theorem Holdings.Lists.mono (hknown : ∀ known, H.known known → H'.known known)
    (hheld : ∀ known r, H.held known r → H'.held known r) {object : ObjectMetadata} (h : H.Lists object) :
    H'.Lists object := ⟨hknown _ h.known, fun r hr => hheld _ r (h.held r hr)⟩

theorem Holdings.Table.mono (hknown : ∀ known, H.known known → H'.known known)
    (hheld : ∀ known r, H.held known r → H'.held known r) (h : H.Table s) : H'.Table s := fun o object ho =>
  ⟨(h o object ho).1, (h o object ho).2.mono hknown hheld⟩

/-- What the request tells of objects is true. -/
def Holdings.Honest (H : Holdings) (s : Fabric F) : Request F → Prop
  | .publishObject object => H.Lists object
  | .registerReplica o r => ∃ known, s.identityOf o = some known ∧ H.held known r
  | .completeExecution _ outputs => ∀ object ∈ outputs, H.Lists object
  | _ => True

theorem Holdings.Honest.mono (hknown : ∀ known, H.known known → H'.known known)
    (hheld : ∀ known r, H.held known r → H'.held known r) (hremembers : Remembers s s') {request : Request F}
    (h : H.Honest s request) : H'.Honest s' request := by
  cases request with
  | publishObject object => exact Lists.mono hknown hheld h
  | registerReplica o r =>
    obtain ⟨known, hk, hr⟩ := h
    exact ⟨known, hremembers.identities o known hk, hheld known r hr⟩
  | completeExecution lease outputs => exact fun object hobject => Lists.mono hknown hheld (h object hobject)
  | _ => trivial

/-- The calls of an honest request tell the truth. -/
theorem Holdings.Honest.told {e : Env} {request : Request F} {op : Op F} (h : H.Honest s request)
    (hmakes : request.Makes e op) : H.Told s op := by
  cases request with
  | publishObject object =>
    cases hmakes
    exact h
  | registerReplica o r =>
    cases hmakes
    obtain ⟨known, hk, hr⟩ := h
    intro known' hk'
    rw [hk] at hk'
    cases hk'
    exact hr
  | completeExecution lease outputs =>
    cases hmakes
    exact h
  | pollWork r epoch =>
    rcases hmakes with rfl | ⟨t, rfl⟩
    · trivial
    · trivial
  | reportLinkMeasurement reporter epoch peer measurement =>
    rcases hmakes with ⟨rtt, bandwidth, rfl⟩ | rfl
    · trivial
    · trivial
  | maintenanceTick =>
    rcases hmakes with rfl | rfl
    · trivial
    · trivial
  | _ =>
    cases hmakes
    trivial

/-- **An honest request leaves a true table.** -/
theorem respond_table [F64 F] {e : Env} {request : Request F} (hhonest : H.Honest c.fabric request)
    (htable : H.Table c.fabric) :
    H.Table (respond e request c).2.fabric := by
  obtain ⟨calls, h⟩ := respond_calls e request c
  rw [h.fabric]
  refine (perform_keeps (P := fun s => H.Table s ∧ H.Honest s request) (fun call hcall s hs => ?_) ⟨htable, hhonest⟩).1
  exact ⟨event_table _ (hs.2.told (h.makes call hcall)) hs.1,
    hs.2.mono (fun _ h => h) (fun _ _ h => h) (event_remembers _ s call.op)⟩

end Honest

/-! ## Reports -/

/-- Only a report makes the call that completes a task. -/
theorem makes_completeExecution {e : Env} {request : Request F} {lease : ExecutionLease} {outputs : List ObjectMetadata}
    (h : request.Makes e (.completeExecution lease outputs)) : request = .completeExecution lease outputs := by
  cases request with
  | completeExecution lease' outputs' =>
    cases h
    rfl
  | pollWork r epoch =>
    rcases h with h | ⟨t, h⟩
    · cases h
    · cases h
  | reportLinkMeasurement reporter epoch peer measurement =>
    rcases h with ⟨rtt, bandwidth, h⟩ | h
    · cases h
    · cases h
  | maintenanceTick =>
    rcases h with h | h
    · cases h
    · cases h
  | _ => cases h

/-- Among the calls of a request, the one that completes a task. -/
theorem perform_completes [F64 F] {e : Env} {request : Request F} {t : TaskId} {outputs : List ObjectId} :
    ∀ {calls : List (Call F)} {s : Fabric F}, (∀ call ∈ calls, request.Makes e call.op) →
      (perform e calls s).taskStatus t = some (.completed outputs) →
      s.taskStatus t = some (.completed outputs) ∨
      ∃ lease objects, request = .completeExecution lease objects ∧ lease.taskId = t ∧ outputs = objects.map (·.id) ∧
        ∀ object, objects = [object] → (perform e calls s).identityOf object.id = some object.identity
  | [], _, _, h => .inl h
  | call :: calls, s, hmakes, h => by
    rcases perform_completes (fun call' hmem => hmakes call' (List.mem_cons_of_mem _ hmem)) h with hbefore | hreport
    · rcases event_completes (e.under call.part) s call.op hbefore with hbefore | ⟨lease, objects, hop, ht, hids, hknown⟩
      · exact .inl hbefore
      · have hmade := hmakes call (List.mem_cons_self ..)
        rw [hop] at hmade
        refine .inr ⟨lease, objects, makes_completeExecution hmade, ht, hids, fun object hone => ?_⟩
        exact (perform_remembers e calls _).identities object.id _ (hknown object hone)
    · exact .inr hreport

/-- **A task is completed by a report** of its outputs. -/
theorem respond_completes [F64 F] {e : Env} {request : Request F} {t : TaskId} {outputs : List ObjectId}
    (h : (respond e request c).2.fabric.taskStatus t = some (.completed outputs)) :
    c.fabric.taskStatus t = some (.completed outputs) ∨
    ∃ lease objects, request = .completeExecution lease objects ∧ lease.taskId = t ∧ outputs = objects.map (·.id) ∧
      ∀ object, objects = [object] → (respond e request c).2.fabric.identityOf object.id = some object.identity := by
  obtain ⟨calls, hcalls⟩ := respond_calls e request c
  rw [hcalls.fabric] at h ⊢
  exact perform_completes hcalls.makes h

/-! ## Assignments -/

/-- Where the blob of an object can be fetched. -/
structure NamesBlob (input : ResolvedObject) (digest : String) : Prop where
  names : input.metadata.digest = some digest
  urls : ∃ suffix, stripLeading "sha256:" digest = some suffix ∧
    ∀ replica ∈ input.replicas, ∃ endpoint : String, replica.url = s!"{endpoint}/v1/blobs/{suffix}"

theorem resolveInput_names {o : ObjectId} {input : ResolvedObject} (h : c.resolveInput o = .ok input) :
    c.fabric.objects.lookup o = some input.metadata ∧ ∃ digest, NamesBlob input digest := by
  unfold resolveInput at h
  split at h
  · cases h
  rename_i metadata hobject
  split at h
  · cases h
  rename_i digest hdigest
  split at h
  · cases h
  rename_i suffix hsuffix
  dsimp only at h
  split at h
  · cases h
  · cases h
    refine ⟨hobject, digest, hdigest, suffix, hsuffix, fun replica hreplica => ?_⟩
    obtain ⟨r, -, hr⟩ := List.mem_filterMap.mp hreplica
    obtain ⟨endpoint, -, rfl⟩ := Option.map_eq_some_iff.mp hr
    exact ⟨endpoint, rfl⟩

/-- The input of a task, as it was resolved. -/
def Resolves (s : Fabric F) (o : ObjectId) (input : ResolvedObject) : Prop :=
  input.metadata.id = o ∧ s.identityOf o = some input.metadata.identity ∧ ∃ digest, NamesBlob input digest

/-- An assignment as the coordinator hands it out to agent `r`. -/
structure HandedTo (s : Fabric F) (r : ResourceId) (a : WorkAssignment F) : Prop where
  resource : a.lease.resourceId = r
  task : s.taskSpec a.lease.taskId = some a.task
  inputs : List.Forall₂ (Resolves s) a.task.inputs a.inputs

theorem HandedTo.mono {r : ResourceId} {a : WorkAssignment F} (h : HandedTo s r a) (hremembers : Remembers s s') :
    HandedTo s' r a where
  resource := h.resource
  task := hremembers.specs _ _ h.task
  inputs := h.inputs.imp fun o _ ho => ⟨ho.1, hremembers.identities o _ ho.2.1, ho.2.2⟩

/-- Objects are stored under their identifiers. -/
def ObjectsNamed (s : Fabric F) : Prop := ∀ o object, s.objects.lookup o = some object → object.id = o

/-- **What a poll is answered.** -/
theorem respond_work [F64 F] {e : Env} {r : ResourceId} {epoch : UInt64} {a : WorkAssignment F}
    (hnamed : ObjectsNamed (respond e (.pollWork r epoch) c).2.fabric)
    (h : (respond e (.pollWork r epoch) c).1 = .ok (.work (some a))) :
    HandedTo (respond e (.pollWork r epoch) c).2.fabric r a := by
  have hrespond : respond e (.pollWork r epoch) c =
      ((pollWork e r epoch c).1.map ResponseBody.work, (pollWork e r epoch c).2) := bind_pure_apply _ _ _
  rw [hrespond] at h hnamed ⊢
  rcases pollWork_cases e r epoch c with ⟨-, hnone⟩ | ⟨c', i, a', -, -, -, hassigned, hpoll⟩
  · cases hr : (pollWork e r epoch c).1 with
    | error err =>
      rw [hr] at h
      cases h
    | ok assignment =>
      rw [hr] at h
      cases h
      exact absurd hr (hnone a)
  · rw [hpoll] at h hnamed ⊢
    cases h
    refine ⟨hassigned.resource, ?_, (mapM_ok_iff.mp hassigned.inputs).imp fun o input hinput => ?_⟩
    · have hrunning : (c'.fabric.setStatus a.lease.taskId (.running a.lease)).tasks.lookup a.lease.taskId =
          some ⟨a.task, .running a.lease⟩ := by
        rw [setStatus_lookup, if_pos rfl, hassigned.pending]
        rfl
      have hspec := taskSpec_of_lookup hrunning
      exact hspec
    · obtain ⟨hobject, hnames⟩ := resolveInput_names hinput
      refine ⟨hnamed o input.metadata hobject, ?_, hnames⟩
      exact Option.map_eq_some_iff.mpr ⟨input.metadata, hobject, rfl⟩

/-- The body of the answer to a request that wraps what `m` returns. -/
theorem respond_wrapped [F64 F] {e : Env} {request : Request F} {α : Type} {m : CoordinatorM F α} {g : α → ResponseBody F}
    (hrespond : respond e request = (m >>= fun a => pure (g a))) {body : ResponseBody F}
    (h : (respond e request c).1 = .ok body) : ∃ a, (m c).1 = .ok a ∧ body = g a := by
  rw [hrespond, bind_pure_apply m g] at h
  cases hr : (m c).1 with
  | error err =>
    rw [hr] at h
    cases h
  | ok a =>
    rw [hr] at h
    exact ⟨a, rfl, (Except.ok.inj h).symm⟩

theorem onFabric_ok {α : Type} {m : FabricM F α} {a : α} (h : (onFabric m c).1 = .ok a) : (m c.fabric).1 = .ok a := by
  unfold onFabric zoom at h
  cases hr : m c.fabric with
  | mk result s =>
    rw [hr] at h
    cases result with
    | error err => cases h
    | ok b =>
      cases h
      rfl

/-- A renewed lease is for the same attempt. -/
theorem renewed_sameAttempt {e : Env} {lease renewed : ExecutionLease} (hnamed : TasksNamed s)
    (h : (Fabric.renewExecution e lease s).1 = .ok renewed) : renewed.taskId = lease.taskId ∧ SameAttempt renewed lease := by
  rcases renewExecution_cases e lease s with ⟨err, hrenew, -⟩ | ⟨current, hcurrent, hrenew⟩
  · rw [hrenew] at h
    cases h
  · rw [hrenew] at h
    cases h
    obtain ⟨resource, record, -, -, hl, hstatus, hid, -, hresource, hepoch⟩ := currentLease_ok hcurrent
    refine ⟨hnamed.leases lease.taskId current ?_, hid, hresource, hepoch⟩
    rw [taskStatus_of_lookup hl, hstatus]

theorem registerResource_resourceId {e : Env} {descriptor : ResourceDescriptor F} {dataEndpoint : String}
    {lease : MembershipLease} (h : (CoordinatorState.registerResource e descriptor dataEndpoint c).1 = .ok lease) :
    lease.resourceId = descriptor.id := by
  rcases registerResource_cases e descriptor dataEndpoint c with ⟨err, hcase⟩ | ⟨endpoint, -, hcase⟩
  · rw [congrArg Prod.fst hcase] at h
    cases h
  · have hlease := (congrArg Prod.fst hcase).symm.trans h
    rw [← Except.ok.inj hlease]
    rfl

theorem heartbeat_resourceId {e : Env} {r : ResourceId} {epoch : UInt64} {lease : MembershipLease}
    (h : (Fabric.heartbeat e r epoch s).1 = .ok lease) : lease.resourceId = r := by
  unfold Fabric.heartbeat at h
  rw [state_bind] at h
  cases hl : s.resources.lookup r with
  | none =>
    rw [hl, okOr_none, fail_bind] at h
    cases h
  | some registered =>
    rw [hl, okOr_some, pure_bind'] at h
    split at h
    · cases h
    · cases h
      rfl

/-- What the body of an answer says, for the request that it answers. -/
def Answers (s : Fabric F) : Request F → ResponseBody F → Prop
  | .registerResource descriptor _, .membership lease => lease.resourceId = descriptor.id
  | .heartbeat r _, .membership lease => lease.resourceId = r
  | .pollWork r _, .work (some a) => HandedTo s r a
  | .renewExecution lease, .execution renewed => renewed.taskId = lease.taskId ∧ SameAttempt renewed lease
  | _, _ => True

theorem Answers.mono {request : Request F} {body : ResponseBody F} (h : Answers s request body)
    (hremembers : Remembers s s') : Answers s' request body := by
  unfold Answers at h ⊢
  split
  · exact h
  · exact h
  · exact HandedTo.mono h hremembers
  · exact h
  · trivial

/-- **Answers are for their requests.** -/
theorem respond_answers [F64 F] {e : Env} {request : Request F} {body : ResponseBody F} (hnamed : TasksNamed c.fabric)
    (hobjects : ObjectsNamed (respond e request c).2.fabric) (h : (respond e request c).1 = .ok body) :
    Answers (respond e request c).2.fabric request body := by
  cases request with
  | registerResource descriptor dataEndpoint =>
    have hrespond : respond e (.registerResource descriptor dataEndpoint) =
        (CoordinatorState.registerResource e descriptor dataEndpoint >>= fun a => pure (ResponseBody.membership a)) := rfl
    obtain ⟨lease, hlease, rfl⟩ := respond_wrapped hrespond h
    exact registerResource_resourceId hlease
  | heartbeat r epoch =>
    obtain ⟨lease, hlease, rfl⟩ := respond_wrapped (m := onFabric (Fabric.heartbeat e r epoch)) (g := .membership) rfl h
    exact heartbeat_resourceId (onFabric_ok hlease)
  | pollWork r epoch =>
    obtain ⟨work, -, rfl⟩ := respond_wrapped (m := pollWork e r epoch) (g := .work) rfl h
    cases work with
    | none => trivial
    | some a => exact respond_work hobjects h
  | renewExecution lease =>
    obtain ⟨renewed, hrenewed, rfl⟩ := respond_wrapped (m := onFabric (Fabric.renewExecution e lease)) (g := .execution)
      rfl h
    exact renewed_sameAttempt hnamed (onFabric_ok hrenewed)
  | _ => trivial

end Plurifold
