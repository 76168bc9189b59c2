import Plurifold.Fabric.Consistent
import Plurifold.Fabric.Stable

/-!
# Calls that fail

A completion and a submission change the fabric step by step and may fail on the way; nothing is rolled back. There are
two ways to fail half-way:

* outputs of one completion that contradict each other: the second is refused after the task is completed;
* a fused pipeline task that validation refuses: `fusable_template` looks at effects and artifact of a template,
  `validate_task` at the entrypoint of every stage too.

Without these (`Agree`, `FusionSafe`), a call that fails leaves the fabric as it was, and a refresh does not fail.
-/

namespace Plurifold

open Lib Attempt Fabric

variable {F : Type} {strict : Prop} {s s' : Fabric F} {e : Env}

/-! ## Where job definitions come from -/

/-- Job definitions are as before. -/
def SameDefinitions (s s' : Fabric F) : Prop := s'.ledger.definition = s.ledger.definition

instance : IsPreorder (Fabric F) SameDefinitions where
  refl _ := rfl
  trans _ _ _ hab hbc := hbc.trans hab

theorem keptByRoles_sameDefinitions : KeptByRoles (SameDefinitions (F := F)) where
  submit task := submit_along task fun _ _ => rfl
  bind _ _ _ := rfl
  job j f s hf := by
    funext j'
    simp only [ledger, modifyJob_lookup]
    split
    · cases s.jobs.lookup j' with
      | none => rfl
      | some job => simp only [Option.map_some, hf]
    · rfl

theorem publishObject_sameDefinitions (object : ObjectMetadata) :
    (publishObject (F := F) object).Along SameDefinitions := fun s => by
  rw [SameDefinitions, publishObject_ledger]

theorem completeExecution_sameDefinitions [F64 F] (e : Env) (lease : ExecutionLease) (outputs : List ObjectMetadata) :
    (completeExecution (F := F) e lease outputs).Along SameDefinitions :=
  completeExecution_along (fun _ _ _ => rfl) publishObject_sameDefinitions
    keptByRoles_sameDefinitions e lease outputs

theorem foldl_mark_definition : ∀ (tasks : List TaskId) (L : Ledger F),
    (tasks.foldl Ledger.mark L).definition = L.definition
  | [], _ => rfl
  | t :: tasks, L => foldl_mark_definition tasks (L.mark t)

theorem reapExpiredExecutionsAt_sameDefinitions (e : Env) (unixMs : UInt64) (s : Fabric F) :
    SameDefinitions s (s.reapExpiredExecutionsAt e unixMs).2 := by
  have hledger := reapExpiredExecutionsAt_ledger e unixMs s
  rw [SameDefinitions, hledger, foldl_mark_definition]
  rfl

variable [F64 F]

/-- The definition that a submission brings. -/
def Op.Defines : Op F → JobDefinition F → Prop
  | .submitCooperative job, definition => definition = .cooperative job
  | .submitLogical job, definition => definition = .logical job
  | _, _ => False

theorem acceptJob_defines (e : Env) (j : JobId) (definition : JobDefinition F) (s : Fabric F) {j' : JobId}
    {d : JobDefinition F} (hd : (acceptJob e j definition s).2.ledger.definition j' = some d) :
    s.ledger.definition j' = some d ∨ d = definition := by
  unfold acceptJob at hd
  rw [state_bind] at hd
  cases hj : s.jobs.lookup j with
  | some job =>
    rw [hj] at hd
    exact .inl hd
  | none =>
    simp only [hj, Option.isSome_none, Bool.false_eq_true, if_false, update_bind] at hd
    have hkept : (materializeReadyRoles (F := F) e j >>= fun _ => pure j).Along SameDefinitions :=
      along_bind ((keptByRoles_sameDefinitions.of_job j).materialize e) fun _ => along_pure _
    have hsame := hkept { s with jobs := s.jobs.insert j (newJob definition) }
    rw [SameDefinitions] at hsame
    rw [hsame] at hd
    simp only [ledger, Map.lookup_insert_eq] at hd
    split at hd
    · exact .inr (Option.some.inj hd).symm
    · exact .inl hd

/-- A job is defined by its submission. -/
theorem exec_defines (e : Env) (op : Op F) (s : Fabric F) {j : JobId} {d : JobDefinition F}
    (hd : (exec e op s).2.ledger.definition j = some d) : s.ledger.definition j = some d ∨ op.Defines d := by
  have same : SameDefinitions s (exec e op s).2 → s.ledger.definition j = some d ∨ op.Defines d := by
    intro h
    rw [SameDefinitions] at h
    exact .inl (h ▸ hd)
  have along : ∀ {α : Type} {m : FabricM F α} {g : α → Reply}, m.Along SameDefinitions →
      exec e op = (m >>= fun a => pure (g a)) → s.ledger.definition j = some d ∨ op.Defines d := by
    intro α m g hm hx
    refine same ?_
    rw [hx, bind_pure_apply]
    exact hm s
  have quiet : ∀ {α : Type} {m : FabricM F α} {g : α → Reply}, (∀ s, (m s).2.ledger = s.ledger) →
      exec e op = (m >>= fun a => pure (g a)) → s.ledger.definition j = some d ∨ op.Defines d := by
    intro α m g hm hx
    refine along (fun s => ?_) hx
    rw [SameDefinitions, hm]
  cases op with
  | setTopology topology => exact same rfl
  | upsertLink link => exact same rfl
  | removeLink a b => exact same rfl
  | registerResource descriptor => exact same rfl
  | heartbeat resource epoch => exact quiet (m := heartbeat e resource epoch) (heartbeat_ledger e resource epoch) rfl
  | unregisterResource resource => exact same rfl
  | expireResourcesAt unixMs => exact same (congrArg Ledger.definition (expireResourcesAt_ledger e unixMs s))
  | publishObject object =>
    exact quiet (m := publishObject object) (g := fun _ => .unit) (publishObject_ledger object) rfl
  | addObjectLocation object resource =>
    exact quiet (m := addObjectLocation object resource) (g := fun _ => .unit)
      (addObjectLocation_ledger object resource) rfl
  | submit task => exact along (keptByRoles_sameDefinitions.submit task) rfl
  | submitCooperative job =>
    rw [exec_submitCooperative] at hd
    unfold submitCooperative at hd
    cases hv : validateCooperativeJob job with
    | error err =>
      rw [hv] at hd
      exact .inl hd
    | ok u =>
      rw [hv] at hd
      exact acceptJob_defines e job.id (.cooperative job) s hd
  | submitLogical job =>
    rw [exec_submitLogical] at hd
    unfold submitLogical at hd
    cases hv : validateLogicalJob job with
    | error err =>
      rw [hv] at hd
      exact .inl hd
    | ok u =>
      simp only [hv, Except.mapError, lift_ok, pure_bind', state_bind] at hd
      cases ho : validateLogicalJobObjects job s.objects with
      | error err =>
        rw [ho] at hd
        exact .inl hd
      | ok u =>
        rw [ho] at hd
        exact acceptJob_defines e job.id (.logical job) s hd
  | beginExecution task resource =>
    exact quiet (m := beginExecution e task resource) (beginExecution_ledger e task resource) rfl
  | renewExecution lease => exact quiet (m := renewExecution e lease) (renewExecution_ledger e lease) rfl
  | completeExecution lease outputs =>
    exact along (g := fun _ => .unit) (completeExecution_sameDefinitions e lease outputs) rfl
  | reapExpiredExecutionsAt unixMs => exact same (reapExpiredExecutionsAt_sameDefinitions e unixMs s)
  | refreshReadyRoles =>
    exact along (g := fun _ => .unit) (refreshReadyRoles_along keptByRoles_sameDefinitions e) rfl

/-- Every logical job that is submitted is fusion safe. -/
def SafeJobs (ops : List (Op F)) : Prop := ∀ job, .submitLogical job ∈ ops → FusionSafe job

/-- The jobs of the state were submitted. -/
def Submitted (history : List (Event F)) (s : Fabric F) : Prop :=
  ∀ j d, s.ledger.definition j = some d → ∃ ev ∈ history, ev.op.Defines d

theorem Submitted.step {history : List (Event F)} (h : Submitted history s) (op : Op F) :
    Submitted (history ++ [Event.of e s op]) (Event.of e s op).after := by
  intro j d hd
  rcases exec_defines e op s hd with hold | hnew
  · obtain ⟨ev, hev, hdef⟩ := h j d hold
    exact ⟨ev, List.mem_append_left _ hev, hdef⟩
  · exact ⟨_, List.mem_append_right _ (List.mem_singleton_self _), hnew⟩

theorem submitted_new (m x : UInt64) : Submitted ([] : List (Event F)) (Fabric.new m x) := by
  intro j d hd
  rw [ledger_new] at hd
  cases hd

omit [F64 F] in
theorem Submitted.safe {history : List (Event F)} (h : Submitted history s) {ops : List (Op F)}
    (hops : ∀ ev ∈ history, ev.op ∈ ops) (hsafe : SafeJobs ops) : Safe s.ledger := by
  intro j d hd
  obtain ⟨ev, hev, hdef⟩ := h j d hd
  have hmem := hops ev hev
  generalize ev.op = op at hmem hdef
  cases op with
  | submitCooperative job => cases hdef; trivial
  | submitLogical job => cases hdef; exact hsafe job hmem
  | _ => cases hdef

/-- In a run of fusion safe jobs, the jobs are fusion safe after every call. -/
theorem trace_safe {m x : UInt64} {ops : List (Op F)} (hsafe : SafeJobs ops) {pre post : List (Event F)} {ev : Event F}
    (h : trace e (Fabric.new m x) ops = pre ++ ev :: post) : Safe ev.after.ledger := by
  obtain ⟨-, -, -, hafter⟩ := trace_rule (I := fun _ => Submitted) (C := fun _ => True) (fun e _ _ op hI _ => hI.step op)
    ops e [] _ pre (submitted_new m x) (fun _ _ => trivial) h
  refine hafter.safe (fun ev' hev' => ?_) hsafe
  refine mem_trace_op (e := e) (s := Fabric.new m x) ?_
  rw [h]
  simp only [List.nil_append, List.mem_append, List.mem_singleton] at hev'
  rcases hev' with hev' | rfl
  · exact List.mem_append_left _ hev'
  · exact List.mem_append_right _ (List.mem_cons_self ..)

/-! ## Runs -/

section Run

variable {m x : UInt64} {ops : List (Op F)} (hfresh : FreshTasks e ops) (hsafe : SafeJobs ops)

include hfresh hsafe

/-- **When completion is all-or-nothing.** In a run of fusion safe jobs with fresh task identifiers, a completion whose
outputs agree and that returns an error leaves the fabric as it was. -/
theorem completion_atomic : ∀ ev ∈ trace e (Fabric.new m x) ops, ∀ lease outputs err,
    ev.op = .completeExecution lease outputs → Agree outputs → ev.reply = .error err → ev.after = ev.before := by
  intro ev hev lease outputs err hop hagree hreply
  obtain ⟨pre, post, htrace⟩ := List.append_of_mem hev
  obtain ⟨e', hof, hbefore, -⟩ := trace_reached hfresh (fun h : False => h.elim) htrace
  have hatomic := (completeExecution_ends hbefore.sound (hbefore.fresh.sub 0)
    (fun n hn => hbefore.unused n hn.of_sub) lease False.elim).2 hagree
  have hsafeAfter := trace_safe hsafe htrace
  rw [hof, hop] at hsafeAfter hreply ⊢
  simp only [Event.of, exec_completeExecution] at hsafeAfter hreply ⊢
  rcases hatomic.atomic hsafeAfter with ⟨u, hok⟩ | hsame
  · rw [hok] at hreply
    cases hreply
  · exact hsame

/-- **When submission is atomic.** In a run of fusion safe jobs with fresh task identifiers, the submission of a job that
returns an error leaves the fabric as it was. -/
theorem submission_atomic : ∀ ev ∈ trace e (Fabric.new m x) ops, ∀ err,
    (∃ job, ev.op = .submitCooperative job) ∨ (∃ job, ev.op = .submitLogical job) → ev.reply = .error err →
    ev.after = ev.before := by
  intro ev hev err hop hreply
  obtain ⟨pre, post, htrace⟩ := List.append_of_mem hev
  obtain ⟨e', hof, hbefore, -⟩ := trace_reached hfresh (fun h : False => h.elim) htrace
  have hunused : Unused (e'.sub 0).Mints ev.before.ledger := fun n hn => hbefore.unused n hn.of_sub
  have hsafeAfter := trace_safe hsafe htrace
  rcases hop with ⟨job, hop⟩ | ⟨job, hop⟩
  · have hatomic := submitCooperative_ends hbefore.sound (hbefore.fresh.sub 0) hunused job
    rw [hof, hop] at hsafeAfter hreply ⊢
    simp only [Event.of, exec_submitCooperative] at hsafeAfter hreply ⊢
    rcases hatomic.atomic hsafeAfter with ⟨j, hok⟩ | hsame
    · rw [hok] at hreply
      cases hreply
    · exact hsame
  · have hatomic := submitLogical_ends hbefore.sound (hbefore.fresh.sub 0) hunused job
    rw [hof, hop] at hsafeAfter hreply ⊢
    simp only [Event.of, exec_submitLogical] at hsafeAfter hreply ⊢
    rcases hatomic.atomic hsafeAfter with ⟨j, hok⟩ | hsame
    · rw [hok] at hreply
      cases hreply
    · exact hsame

/-- In a run of fusion safe jobs, a refresh succeeds. -/
theorem refresh_succeeds : ∀ ev ∈ trace e (Fabric.new m x) ops, ev.op = .refreshReadyRoles → ev.reply = .ok .unit := by
  intro ev hev hop
  obtain ⟨pre, post, htrace⟩ := List.append_of_mem hev
  obtain ⟨e', hof, hbefore, -⟩ := trace_reached hfresh (fun h : False => h.elim) htrace
  have hends := refreshReadyRoles_ends hbefore.sound (hbefore.fresh.sub 0) fun n hn => hbefore.unused n hn.of_sub
  have hsafeAfter := trace_safe hsafe htrace
  rw [hof, hop] at hsafeAfter ⊢
  simp only [Event.of, exec_refreshReadyRoles] at hsafeAfter ⊢
  obtain ⟨u, hok⟩ := hends.2 hsafeAfter
  rw [hok]
  rfl

end Run

/-- The task that a selection submits is accepted, for every way to build tasks for a role of the job. -/
structure BuildsAccepted (spec : LogicalJobSpec F) : Prop where
  single : ∀ e, ∀ role ∈ spec.roles, ∀ inputs scheduler resources objects topology selected,
    selectReadyRole e role inputs scheduler resources objects topology = some selected →
    validateTask selected.task = .ok ()
  shards : ∀ e, ∀ role ∈ spec.roles, ∀ inputs context selected, selectReadyShards e role inputs context = some selected →
    ∀ shard ∈ selected, validateTask shard.task = .ok ()
  fusion : ∀ e statuses, ∀ first ∈ spec.roles, ∀ inputs context selected,
    selectReadyFusion e (fusionChain spec statuses first) inputs context = some selected →
    validateTask selected.task = .ok ()
  reduction : ∀ e, ∀ role ∈ spec.roles, ∀ reduction, role.reduction = some reduction → ∀ inputs readyMs available context
    items, (selectReductionLevel e reduction inputs readyMs available context).1 = some items → ∀ selected,
    ReadyReductionItem.reduce selected ∈ items → validateTask selected.task = .ok ()

theorem buildsAccepted {spec : LogicalJobSpec F} (hvalid : validateLogicalJob spec = .ok ()) (hsafe : FusionSafe spec) :
    BuildsAccepted spec where
  single _ _ _ _ _ _ _ _ _ h := ready_role_accepted h
  shards _ role hrole _ _ _ h := by
    obtain ⟨e', count, -, -, hof⟩ := selectReadyShards_spec ((validateLogicalJob_ok hvalid).2 role hrole).shards h
    exact hof.accepted
  fusion _ _ _ hfirst _ _ _ h := fusion_accepted hsafe hfirst h
  reduction _ _ _ _ _ _ _ _ _ _ h := reduction_level_accepted h

/-- **When planner and task validator agree.** Every task built for an accepted job that is fusion safe is accepted, and
in a run of such jobs with fresh task identifiers every refresh succeeds. -/
theorem planner_agrees :
    (∀ spec : LogicalJobSpec F, validateLogicalJob spec = .ok () → FusionSafe spec → BuildsAccepted spec) ∧
    ∀ (e : Env) (m x : UInt64) (ops : List (Op F)), FreshTasks e ops → SafeJobs ops →
      ∀ ev ∈ trace e (Fabric.new m x) ops, ev.op = .refreshReadyRoles → ev.reply = .ok .unit :=
  ⟨fun _ hvalid hsafe => buildsAccepted hvalid hsafe, fun _ _ _ _ hfresh hsafe => refresh_succeeds hfresh hsafe⟩

/-! ## Calls that fail half-way -/

namespace Sample

/-- Two outputs with one identifier and different sizes. -/
def contradictingOutputs : List ObjectMetadata :=
  [⟨⟨9⟩, 0, none, none, [⟨1⟩], none⟩, ⟨⟨9⟩, 1, none, none, [⟨1⟩], none⟩]

/-- A task is begun and completed with these outputs. -/
def contradictingRun : List (Op ℚ) :=
  [.registerResource (resource 1), .submit (task 7), .beginExecution ⟨7⟩ ⟨1⟩,
    .completeExecution ⟨⟨7⟩, ⟨((((Env.numbered clock).sub 1).sub 1).sub 0).newUuid⟩, ⟨1⟩, 1, 0⟩ contradictingOutputs]

def unshardedRole (name entrypoint : String) (dependsOn : List String) : LogicalRoleSpec ℚ where
  name := name
  implementations := [⟨"echo", { template with entrypoint := entrypoint }⟩]
  dependsOn := dependsOn
  shards := .fixed 1
  reduction := none

/-- Two roles, the second with an entrypoint of its own. -/
def pairJob (entrypoint : String) : LogicalJobSpec ℚ where
  id := ⟨1⟩
  roles := [unshardedRole "first" "run" [], unshardedRole "second" entrypoint ["first"]]
  outputs := ["second"]

/-- Two resources with a slow link between them, on which a transfer is worth saving. -/
def pairRun (entrypoint : String) : List (Op ℚ) :=
  [.registerResource (resource 1), .registerResource (resource 2), .upsertLink ⟨⟨1⟩, ⟨2⟩, 100, 1⟩,
    .submitLogical (pairJob entrypoint), .refreshReadyRoles]

theorem freshTasks_pairRun (entrypoint : String) : FreshTasks (Env.numbered clock) (pairRun entrypoint) :=
  freshTasks_numbered fun task h => by
    simp only [pairRun, List.mem_cons, List.not_mem_nil, reduceCtorEq, or_false] at h

theorem safeJobs_pairRun : SafeJobs (pairRun "run") := by
  intro job h
  simp only [pairRun, List.mem_cons, List.not_mem_nil, reduceCtorEq, false_or, or_false, Op.submitLogical.injEq] at h
  rw [h]
  decide +kernel

/-- An object of this size. -/
def sizedObject (size : UInt64) : ObjectMetadata := ⟨⟨9⟩, size, none, none, [⟨1⟩], none⟩

/-- The task of both roles is completed with an object that is stored with another size, and the job is submitted again. -/
def refusedRun : List (Op ℚ) :=
  pairRun "run" ++ [.publishObject (sizedObject 0), .beginExecution ⟨7644884⟩ ⟨1⟩,
    .completeExecution ⟨⟨7644884⟩, ⟨13652⟩, ⟨1⟩, 1, 106⟩ [sizedObject 1], .submitLogical (pairJob "run")]

theorem freshTasks_refusedRun : FreshTasks (Env.numbered clock) refusedRun :=
  freshTasks_numbered fun task h => by
    simp only [refusedRun, pairRun, List.cons_append, List.nil_append, List.mem_cons, List.not_mem_nil, reduceCtorEq,
      or_false] at h

theorem safeJobs_refusedRun : SafeJobs refusedRun := by
  intro job h
  rcases List.mem_append.mp h with h | h
  · exact safeJobs_pairRun job h
  · simp only [List.mem_cons, List.not_mem_nil, reduceCtorEq, false_or, or_false, Op.submitLogical.injEq] at h
    rw [h]
    decide +kernel

end Sample

omit [F64 F] in
/-- A refused call that has changed the fabric is an error, and its states differ. -/
theorem ne_of_error (ev : Event F) {α : Type} (g : Fabric F → α) (hreply : ev.reply.isOk = false)
    (hne : g ev.after ≠ g ev.before) : ∃ err, ev.reply = .error err ∧ ev.after ≠ ev.before := by
  cases hr : ev.reply with
  | ok reply => rw [hr] at hreply; cases hreply
  | error err => exact ⟨err, rfl, fun h => hne (by rw [h])⟩

/-- The completion is refused, and its task is completed. -/
theorem completion_half_done : ¬∀ ev ∈ trace (Env.numbered Sample.clock) (Fabric.new 100 100) Sample.contradictingRun,
    ∀ lease outputs err, ev.op = .completeExecution lease outputs → ev.reply = .error err → ev.after = ev.before := by
  intro h
  obtain ⟨err, hreply, hne⟩ := ne_of_error ((trace (Env.numbered Sample.clock) (Fabric.new 100 100)
    Sample.contradictingRun).get ⟨3, by decide⟩) (fun s => s.taskStatus ⟨7⟩) (by decide +kernel) (by decide +kernel)
  exact hne (h _ (List.get_mem _ _) _ _ err rfl hreply)

/-- The task of a fused chain is completed with an object that contradicts a stored one. -/
theorem completion_atomic_refused : ∃ ev ∈ trace (Env.numbered Sample.clock) (Fabric.new 100 100) Sample.refusedRun,
    ∃ lease outputs, ev.op = .completeExecution lease outputs ∧ Agree outputs ∧
      ev.before.taskRoles.lookup lease.taskId = some (.fusedChain ⟨1⟩ ["first", "second"]) ∧
      ev.reply = .error (.objectConflict ⟨9⟩) ∧ ev.after = ev.before := by
  have hmem := List.get_mem (trace (Env.numbered Sample.clock) (Fabric.new 100 100) Sample.refusedRun) ⟨7, by decide⟩
  have hagree : Agree [Sample.sizedObject 1] := agree_of_nodup (List.nodup_singleton _)
  have hreply : ((trace (Env.numbered Sample.clock) (Fabric.new 100 100) Sample.refusedRun).get ⟨7, by decide⟩).reply =
      .error (.objectConflict ⟨9⟩) := by decide +kernel
  exact ⟨_, hmem, _, _, rfl, hagree, by decide +kernel, hreply,
    completion_atomic Sample.freshTasks_refusedRun Sample.safeJobs_refusedRun _ hmem _ _ _ rfl hagree hreply⟩

/-- The job is refused, and it is in the fabric. -/
theorem submission_half_done : ¬∀ ev ∈ trace (Env.numbered Sample.clock) (Fabric.new 100 100) (Sample.pairRun "main"),
    ∀ err, (∃ job, ev.op = .submitCooperative job) ∨ (∃ job, ev.op = .submitLogical job) → ev.reply = .error err →
      ev.after = ev.before := by
  intro h
  obtain ⟨err, hreply, hne⟩ := ne_of_error ((trace (Env.numbered Sample.clock) (Fabric.new 100 100)
    (Sample.pairRun "main")).get ⟨3, by decide⟩) (fun s => (s.jobs.lookup ⟨1⟩).isSome) (by decide +kernel)
    (by decide +kernel)
  exact hne (h _ (List.get_mem _ _) err (.inr ⟨_, rfl⟩) hreply)

/-- A job is submitted that is in the fabric. -/
theorem submission_atomic_refused : ∃ ev ∈ trace (Env.numbered Sample.clock) (Fabric.new 100 100) Sample.refusedRun,
    ev.op = .submitLogical (Sample.pairJob "run") ∧ ev.reply = .error (.duplicateJob ⟨1⟩) ∧ ev.after = ev.before := by
  have hmem := List.get_mem (trace (Env.numbered Sample.clock) (Fabric.new 100 100) Sample.refusedRun) ⟨8, by decide⟩
  have hreply : ((trace (Env.numbered Sample.clock) (Fabric.new 100 100) Sample.refusedRun).get ⟨8, by decide⟩).reply =
      .error (.duplicateJob ⟨1⟩) := by decide +kernel
  exact ⟨_, hmem, rfl, hreply,
    submission_atomic Sample.freshTasks_refusedRun Sample.safeJobs_refusedRun _ hmem _ (.inr ⟨_, rfl⟩) hreply⟩

/-- What the planner sees of two resources with a slow link. -/
def Sample.pairContext : FusionContext ℚ where
  scheduler := .default
  advisor := .default
  resources := [Sample.resource 1, Sample.resource 2]
  objects := ∅
  topology := ⟨[⟨⟨1⟩, ⟨2⟩, 100, 1⟩]⟩

/-- The roles of an accepted job are fused into a task that is refused, and once the job is in the fabric, refreshing
fails. -/
theorem planner_disagrees :
    (¬∀ (spec : LogicalJobSpec ℚ) (objects : Objects), validateLogicalJob spec = .ok () →
      validateLogicalJobObjects spec objects = .ok () → BuildsAccepted spec) ∧
    ¬∀ ev ∈ trace (Env.numbered Sample.clock) (Fabric.new 100 100) (Sample.pairRun "main"),
      ev.op = .refreshReadyRoles → ev.reply = .ok .unit := by
  refine ⟨fun h => ?_, fun h => ?_⟩
  · have hbuilds := (h (Sample.pairJob "main") ∅ (by decide +kernel) (by decide +kernel)).fusion
      (Env.numbered Sample.clock) (Map.collect [("first", .waiting), ("second", .waiting)])
      (Sample.unshardedRole "first" "run" []) (List.mem_cons_self ..) [] Sample.pairContext
    have hrefused : (selectReadyFusion (Env.numbered Sample.clock) (fusionChain (Sample.pairJob "main")
        (Map.collect [("first", .waiting), ("second", .waiting)]) (Sample.unshardedRole "first" "run" [])) []
        Sample.pairContext).map (fun selected => (validateTask selected.task).isOk) = some false := by
      decide +kernel
    obtain ⟨selected, hselected, hnot⟩ := Option.map_eq_some_iff.mp hrefused
    rw [hbuilds selected hselected] at hnot
    cases hnot
  · have hok := h ((trace (Env.numbered Sample.clock) (Fabric.new 100 100) (Sample.pairRun "main")).get ⟨4, by decide⟩)
      (List.get_mem _ _) rfl
    exact absurd hok (by decide +kernel)

theorem planner_agrees_pair : BuildsAccepted (Sample.pairJob "run") ∧
    ∀ ev ∈ trace (Env.numbered Sample.clock) (Fabric.new 100 100) (Sample.pairRun "run"),
      ev.op = .refreshReadyRoles → ev.reply = .ok .unit :=
  ⟨planner_agrees.1 (Sample.pairJob "run") (by decide +kernel) (by decide +kernel),
    planner_agrees.2 (Env.numbered Sample.clock) 100 100 _ (Sample.freshTasks_pairRun "run") Sample.safeJobs_pairRun⟩

end Plurifold
