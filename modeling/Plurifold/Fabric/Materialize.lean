import Plurifold.Fabric.View

/-!
# Materialization, step by step

`materializeReadyRoles` reads the roles that can be started off one snapshot and then starts them one after the other.
Each round is one step of the ledger (`materializeRole_ends`). The rounds do not get in each other's way: a role that
was ready in the snapshot still is when its turn comes, because chains of different roles share none.

A round can fail only on a pipeline that the fabric refuses, and then it has changed nothing. So the loop always ends in
a ledger reached by steps, and without an error if all jobs are fusion safe (`Outcome`).
-/

namespace Plurifold

open Lib Attempt

variable {F : Type} {strict : Prop} {L L' L'' : Ledger F}

/-! ## Outcomes -/

/-- All jobs are fusion safe. -/
def Safe (L : Ledger F) : Prop := ∀ j definition, L.definition j = some definition → definition.FusionSafe

/-- None of these identifiers is taken. -/
def Unused (ids : Nat → Prop) (L : Ledger F) : Prop := ∀ n, ids n → L.spec ⟨n⟩ = none

/-- Steps lead from one ledger to the other, and new tasks have identifiers among `ids`. -/
structure Runs [F64 F] (strict : Prop) (ids : Nat → Prop) (L L' : Ledger F) : Prop where
  steps : Steps strict L L'
  new : ∀ t spec, L.spec t = none → L'.spec t = some spec → ids t.uuid

theorem Step.definition [F64 F] (h : Step strict L L') {j : JobId} {definition : JobDefinition F}
    (hd : L.definition j = some definition) : L'.definition j = some definition := by
  cases h with
  | accept hnew _ =>
    rw [Ledger.accept_definition, if_neg]
    · exact hd
    · rintro rfl
      rw [hnew] at hd
      cases hd
  | shardWaits _ _ _ hL' _ => subst hL'; exact hd
  | shardsComplete _ _ _ hL' => subst hL'; exact hd
  | shardsReduce _ _ _ hL' => subst hL'; exact hd
  | reducerWaits _ _ _ hL' => subst hL'; exact hd
  | levelComplete _ _ _ hL' => subst hL'; exact hd
  | _ => exact hd

theorem Steps.definition [F64 F] (h : Steps strict L L') {j : JobId} {definition : JobDefinition F}
    (hd : L.definition j = some definition) : L'.definition j = some definition := by
  induction h with
  | refl => exact hd
  | tail _ hstep ih => exact hstep.definition ih

section Runs

variable {ids ids' : Nat → Prop}

variable [F64 F]

theorem Runs.refl (ids : Nat → Prop) (L : Ledger F) : Runs strict ids L L :=
  ⟨.refl, fun t spec hn hs => by rw [hn] at hs; cases hs⟩

theorem Runs.mono (h : Runs strict ids L L') (hids : ∀ n, ids n → ids' n) : Runs strict ids' L L' :=
  ⟨h.steps, fun t spec hn hs => hids _ (h.new t spec hn hs)⟩

theorem Runs.trans (h : Runs strict ids L L') (h' : Runs strict ids L' L'') : Runs strict ids L L'' := by
  refine ⟨h.steps.trans h'.steps, fun t spec hn hs => ?_⟩
  cases hmid : L'.spec t with
  | none => exact h'.new t spec hmid hs
  | some mid => exact h.new t mid hn hmid

/-- Identifiers that a run does not use stay unused. -/
theorem Runs.unused (h : Runs strict ids L L') (hids : ∀ n, ids' n → ¬ids n) (hu : Unused ids' L) : Unused ids' L' := by
  intro n hn
  cases hspec : L'.spec ⟨n⟩ with
  | none => rfl
  | some spec => exact absurd (h.new ⟨n⟩ spec (hu n hn) hspec) (hids n hn)

/-- A computation started on ledger `L` ended in steps, and without an error if all jobs are fusion safe. -/
def Outcome {α : Type} (strict : Prop) (ids : Nat → Prop) (L : Ledger F) (r : Except FabricError α) (s' : Fabric F) :
    Prop :=
  Runs strict ids L s'.ledger ∧ (Safe s'.ledger → ∃ a, r = .ok a)

theorem outcome_of_ok {α : Type} {m : FabricM F α} {s s' : Fabric F} {a : α} (hm : m s = (.ok a, s'))
    (h : Runs strict ids L s'.ledger) : m.Ends s (Outcome strict ids L) := by
  rw [Ends, hm]
  exact ⟨h, fun _ => ⟨a, rfl⟩⟩

theorem outcome_bind {α β : Type} {m : FabricM F α} {f : α → FabricM F β} {s : Fabric F} {all : Nat → Prop}
    (hm : m.Ends s (Outcome strict ids L)) (hids : ∀ n, ids n → all n) (hids' : ∀ n, ids' n → all n)
    (hf : ∀ a s', Runs strict ids L s'.ledger → (f a).Ends s' (Outcome strict ids' s'.ledger)) :
    (m >>= f).Ends s (Outcome strict all L) := by
  refine ends_bind hm (fun a s' h => ?_) fun err s' h => ?_
  · refine ends_mono (hf a s' h.1) fun r s'' h' => ?_
    exact ⟨(h.1.mono hids).trans (h'.1.mono hids'), h'.2⟩
  · refine ⟨h.1.mono hids, fun hsafe => ?_⟩
    obtain ⟨a, ha⟩ := h.2 hsafe
    cases ha

end Runs

/-! ## Storing tasks -/

theorem addAll_nil (L : Ledger F) (b : TaskRoleBinding) : L.addAll [] b = L := by
  refine Ledger.ext ?_ rfl ?_ rfl rfl rfl rfl
  · funext t
    rw [Ledger.addAll_spec, List.find?_nil, Option.none_or]
  · funext t
    rw [Ledger.addAll_binding, if_neg (by simp)]

theorem addAll_cons (L : Ledger F) {spec : TaskSpec F} {specs : List (TaskSpec F)} (b : TaskRoleBinding)
    (hnew : spec.id ∉ specs.map (·.id)) : (L.addAll [spec] b).addAll specs b = L.addAll (spec :: specs) b := by
  refine Ledger.ext ?_ rfl ?_ rfl rfl rfl rfl
  · funext t
    by_cases ht : t = spec.id
    · subst ht
      rw [addAll_spec_of_not_mem hnew, Ledger.addAll_spec, Ledger.addAll_spec, List.find?_cons_of_pos (by simp),
        List.find?_cons_of_pos (by simp)]
    · have hne : decide (spec.id = t) = false := decide_eq_false (Ne.symm ht)
      simp only [Ledger.addAll_spec, List.find?_cons, hne, List.find?_nil, Option.none_or]
  · funext t
    simp only [Ledger.addAll_binding, List.map_cons, List.map_nil, List.mem_cons, List.not_mem_nil, or_false]
    by_cases ht : t = spec.id
    · simp [ht]
    · simp [ht]

namespace Fabric

variable {s s' : Fabric F} {j : JobId} {e : Env}

/-- A loop that stores the tasks of a list, all of them new and acceptable. -/
theorem submitAll {α : Type} (task : α → Option (TaskSpec F)) (b : TaskRoleBinding) {f : Nat → α → FabricM F Unit}
    (hf : ∀ i a s, f i a s = match task a with
      | none => (.ok (), s)
      | some t => (submit t >>= fun _ => update (bindTask t.id b)) s) :
    ∀ (l : List α) (i : Nat) (s : Fabric F), (∀ t ∈ l.filterMap task, validateTask t = .ok ()) →
    (∀ t ∈ l.filterMap task, s.ledger.spec t.id = none) → ((l.filterMap task).map (·.id)).Nodup →
    ∃ s', eachFrom f i l s = (.ok (), s') ∧ s'.ledger = s.ledger.addAll (l.filterMap task) b ∧ s'.jobs = s.jobs
  | [], i, s, _, _, _ => ⟨s, rfl, (addAll_nil _ _).symm, rfl⟩
  | a :: l, i, s, hvalid, hnew, hnodup => by
    cases ha : task a with
    | none =>
      rw [List.filterMap_cons_none ha] at hvalid hnew hnodup ⊢
      obtain ⟨s', hrun, hledger, hjobs⟩ := submitAll task b hf l (i + 1) s hvalid hnew hnodup
      refine ⟨s', ?_, hledger, hjobs⟩
      rw [eachFrom, bind_ok (show f i a s = (.ok (), s) by rw [hf, ha])]
      exact hrun
    | some t =>
      rw [List.filterMap_cons_some ha] at hvalid hnew hnodup ⊢
      obtain ⟨hfresh, hnodup⟩ := List.nodup_cons.mp hnodup
      have hlookup : s.tasks.lookup t.id = none := lookup_none_iff.mpr (hnew t (List.mem_cons_self ..))
      have hround : f i a s = (.ok (), bindTask t.id b (s.insertTask t)) := by
        rw [hf, ha]
        dsimp only
        rw [bind_ok (submit_ok (hvalid t (List.mem_cons_self ..)) hlookup), update_apply]
      have hledger := ledger_bindNew hlookup b
      have hnew' : ∀ t' ∈ l.filterMap task, (bindTask t.id b (s.insertTask t)).ledger.spec t'.id = none := by
        intro t' ht'
        have hne : t'.id ∉ [t].map (·.id) := by
          rw [List.map_singleton, List.mem_singleton]
          rintro heq
          exact hfresh (List.mem_map.mpr ⟨t', ht', heq⟩)
        rw [hledger, addAll_spec_of_not_mem hne]
        exact hnew t' (List.mem_cons_of_mem _ ht')
      obtain ⟨s', hrun, hledger', hjobs⟩ := submitAll task b hf l (i + 1) _
        (fun t' ht' => hvalid t' (List.mem_cons_of_mem _ ht')) hnew' hnodup
      refine ⟨s', ?_, ?_, hjobs⟩
      · rw [eachFrom, bind_ok hround]
        exact hrun
      · rw [hledger', hledger, addAll_cons _ _ hfresh]

theorem submitSingle_ok (name : String) {task : TaskSpec F} {selection : Option (RoleSelection F)}
    {job : CooperativeJobRecord F} (hj : s.jobs.lookup j = some job) (hvalid : validateTask task = .ok ())
    (hnew : s.ledger.spec task.id = none) (hsel : ∀ selections, selection ≠ some (.sharded selections)) :
    ∃ s' planned, submitSingle j name task selection s = (.ok (), s') ∧
      s'.ledger = ((s.ledger.addAll [task] (.single j name)).setRole j name (.submitted task.id)).setPlanned planned ∧
      ∀ t, planned t → s.ledger.planned t := by
  have hlookup := lookup_none_iff.mpr hnew
  have hledger : (setRole j name (.submitted task.id) (bindTask task.id (.single j name) (s.insertTask task))).ledger =
      (s.ledger.addAll [task] (.single j name)).setRole j name (.submitted task.id) := by
    have hj' : (bindTask task.id (.single j name) (s.insertTask task)).jobs.lookup j = some job := hj
    rw [ledger_setRole hj', ledger_bindNew hlookup]
  unfold submitSingle
  rw [bind_ok (submit_ok hvalid hlookup), update_bind, update_bind]
  cases selection with
  | none =>
    refine ⟨_, s.ledger.planned, rfl, ?_, fun _ ht => ht⟩
    rw [hledger]
    rfl
  | some selection =>
    have hj' : (setRole j name (.submitted task.id) (bindTask task.id (.single j name) (s.insertTask task))).jobs.lookup
        j = some { job with roles := job.roles.insert name (.submitted task.id) } := by
      rw [setRole, modifyJob_lookup, if_pos rfl]
      exact congrArg (Option.map _) hj
    obtain ⟨planned, hplan, hplanned⟩ := ledger_setSelection (r := name) hj' selection
    refine ⟨_, planned, rfl, ?_, fun t ht => ?_⟩
    · rw [hplan, hledger]
    · rcases hplanned t ht with ht | ⟨selections, rfl, -⟩
      · rw [hledger] at ht
        exact ht
      · exact absurd rfl (hsel selections)

theorem submitShards_ok (name : String) {selected : List (ReadyShardSelection F)} {job : CooperativeJobRecord F}
    (hj : s.jobs.lookup j = some job) (hvalid : ∀ shard ∈ selected, validateTask shard.task = .ok ())
    (hnew : ∀ shard ∈ selected, s.ledger.spec shard.task.id = none) (hnodup : (selected.map (·.task.id)).Nodup) :
    ∃ s' planned, submitShards j name selected s = (.ok (), s') ∧
      s'.ledger = ((s.ledger.addAll (selected.map (·.task)) (.shard j name)).setRole j name
        (.sharded ((selected.map (·.task)).map (·.id)) 0)).setPlanned planned ∧
      ∀ t, planned t → s.ledger.planned t ∨ t ∈ (selected.map (·.task)).map (·.id) := by
  have hall : selected.filterMap (fun shard => some shard.task) = selected.map (·.task) :=
    congrFun (List.filterMap_eq_map' (f := fun shard : ReadyShardSelection F => shard.task)) selected
  obtain ⟨s₁, hrun, hledger, hjobs⟩ := submitAll (fun shard : ReadyShardSelection F => some shard.task) (.shard j name)
    (f := fun _ shard => do
      let _ ← submit shard.task
      update (bindTask shard.task.id (.shard j name)))
    (fun _ _ _ => rfl) selected 0 s
    (by rw [hall]; simpa using hvalid) (by rw [hall]; simpa using hnew)
    (by rw [hall, List.map_map]; exact hnodup)
  rw [hall] at hledger
  have hj₁ : s₁.jobs.lookup j = some job := by rw [hjobs]; exact hj
  have hj₂ : (setRole j name (.sharded (selected.map (·.task.id)) 0) s₁).jobs.lookup j =
      some { job with roles := job.roles.insert name (.sharded (selected.map (·.task.id)) 0) } := by
    rw [setRole, modifyJob_lookup, if_pos rfl, hj₁]
    rfl
  have hids : (selected.map (·.task)).map (·.id) = selected.map (·.task.id) := List.map_map ..
  unfold submitShards each
  rw [bind_ok hrun, update_bind, hids]
  obtain ⟨planned, hplan, hplanned⟩ := ledger_setSelection (r := name) hj₂
    (.sharded (selected.map fun shard =>
      { index := shard.index, taskId := shard.task.id, implementation := shard.implementation,
        plannedResource := shard.resourceId, estimatedTotalMs := shard.cost.totalMs }))
  refine ⟨_, planned, rfl, ?_, fun t ht => ?_⟩
  · rw [hplan, ledger_setRole hj₁, hledger]
  · rcases hplanned t ht with ht | ⟨selections, heq, ht⟩
    · rw [ledger_setRole hj₁, hledger] at ht
      exact .inl ht
    · cases heq
      rw [List.map_map] at ht
      exact .inr ht

/-- The loop that records the roles of a fused chain. -/
theorem placeRoles (status : CooperativeRoleStatus) {f : Nat → String × String → FabricM F Unit}
    (hf : ∀ i a s, ∃ implementation resource cost fusion, f i a s =
      (.ok (), setSelection j a.1 (.single implementation resource cost fusion) (setRole j a.1 status s))) :
    ∀ (l : List (String × String)) (i : Nat) (s : Fabric F), (s.jobs.lookup j).isSome = true →
    ∃ s' planned, eachFrom f i l s = (.ok (), s') ∧
      s'.ledger = (s.ledger.setRoles j (l.map Prod.fst) fun _ => status).setPlanned planned ∧
      ∀ t, planned t → s.ledger.planned t
  | [], i, s, _ => by
    refine ⟨s, s.ledger.planned, rfl, Ledger.ext rfl rfl rfl rfl ?_ rfl rfl, fun _ ht => ht⟩
    funext j' r
    rw [Ledger.setPlanned_role, Ledger.setRoles_role, if_neg (by simp)]
  | a :: l, i, s, hj => by
    obtain ⟨job, hj⟩ := Option.isSome_iff_exists.mp hj
    obtain ⟨implementation, resource, cost, fusion, hround⟩ := hf i a s
    have hj' : (setRole j a.1 status s).jobs.lookup j = some { job with roles := job.roles.insert a.1 status } := by
      rw [setRole, modifyJob_lookup, if_pos rfl, hj]
      rfl
    obtain ⟨planned₁, hplan₁, hplanned₁⟩ := ledger_setSelection (r := a.1) hj'
      (.single implementation resource cost fusion)
    have hj'' : ((setSelection j a.1 (.single implementation resource cost fusion)
        (setRole j a.1 status s)).jobs.lookup j).isSome = true := by
      rw [setSelection, modifyJob_lookup, if_pos rfl, hj']
      rfl
    obtain ⟨s', planned, hrun, hledger, hplanned⟩ := placeRoles status hf l (i + 1) _ hj''
    refine ⟨s', planned, ?_, ?_, fun t ht => ?_⟩
    · rw [eachFrom, bind_ok hround]
      exact hrun
    · rw [hledger, hplan₁, ledger_setRole hj]
      refine Ledger.ext rfl rfl rfl rfl ?_ rfl rfl
      funext j' r
      simp only [Ledger.setPlanned_role, Ledger.setRoles_role, Ledger.setRole_role, List.map_cons, List.mem_cons]
      by_cases hr : r = a.1
      · by_cases hj' : j' = j <;> simp only [hj', hr, and_self, true_or, if_true, false_and, if_false, ite_self]
      · simp only [hr, and_false, if_false, false_or]
    · have ht := hplanned t ht
      rw [hplan₁] at ht
      rcases hplanned₁ t ht with ht | ⟨selections, heq, -⟩
      · rw [ledger_setRole hj] at ht
        exact ht
      · cases heq

theorem submitFused_ok {chain : List (LogicalRoleSpec F)} {selected : ReadyFusionSelection F}
    {job : CooperativeJobRecord F} (hj : s.jobs.lookup j = some job) (hvalid : validateTask selected.task = .ok ())
    (hnew : s.ledger.spec selected.task.id = none) (hlen : selected.implementations.length ≤ chain.length) :
    ∃ s' planned, submitFused j chain selected s = (.ok (), s') ∧
      s'.ledger = ((s.ledger.addAll [selected.task]
          (.fusedChain j ((chain.take selected.implementations.length).map (·.name)))).setRoles j
        ((chain.take selected.implementations.length).map (·.name)) fun _ =>
          .submitted selected.task.id).setPlanned planned ∧
      ∀ t, planned t → s.ledger.planned t := by
  have hlookup := lookup_none_iff.mpr hnew
  have hzip : (((chain.take selected.implementations.length).map (·.name)).zip selected.implementations).map Prod.fst =
      (chain.take selected.implementations.length).map (·.name) := by
    rw [List.map_fst_zip]
    rw [List.length_map, List.length_take]
    omega
  unfold submitFused each
  dsimp only
  rw [bind_ok (submit_ok hvalid hlookup), update_bind]
  have hj' : ((bindTask selected.task.id (.fusedChain j ((chain.take selected.implementations.length).map (·.name)))
      (s.insertTask selected.task)).jobs.lookup j).isSome = true := Option.isSome_iff_exists.mpr ⟨job, hj⟩
  obtain ⟨s', planned, hrun, hledger, hplanned⟩ := placeRoles (.submitted selected.task.id)
    (fun _ _ _ => ⟨_, _, _, _, rfl⟩) (((chain.take selected.implementations.length).map (·.name)).zip
      selected.implementations) 0 _ hj'
  refine ⟨s', planned, hrun, ?_, fun t ht => ?_⟩
  · rw [hledger, hzip, ledger_bindNew hlookup]
  · have ht := hplanned t ht
    rw [ledger_bindNew hlookup] at ht
    exact ht

/-! ## Starting one role -/

/-- Identifiers that were drawn for this role in advance. -/
def ReadyRole.Owns : ReadyRole F → Nat → Prop
  | .cooperative _ task, n => n = task.id.uuid
  | .logical _ _ _ _, _ => False

/-- The role can still be started. -/
inductive StillReady (L : Ledger F) (j : JobId) : ReadyRole F → Prop
  | cooperative {spec : CooperativeJobSpec F} {role : CooperativeRoleSpec F} {inputs : List ObjectId}
      {task : TaskSpec F} {e : Env} : L.definition j = some (.cooperative spec) → role ∈ spec.roles →
      NotStarted (L.role j role.name) → gather (L.role j) role.dependsOn = some inputs →
      MadeFrom e role.task inputs task → task.shard = none →
      StillReady L j (.cooperative role.name task)
  | logical {spec : LogicalJobSpec F} {role : LogicalRoleSpec F} {inputs : List ObjectId}
      {statuses : Map String CooperativeRoleStatus} {rest : List (LogicalRoleSpec F)} :
      L.definition j = some (.logical spec) → Startable spec (L.role j) role →
      gather (L.role j) role.dependsOn = some inputs → fusionChain spec statuses role = role :: rest →
      Linked spec (L.role j) role rest → StillReady L j (.logical role.name role inputs (role :: rest))

theorem runsFirst_of_made {template : TaskTemplate F} {inputs : List ObjectId} {task : TaskSpec F}
    (h : MadeFrom e template inputs task) : RunsFirst task template inputs := by
  refine ⟨?_, ?_⟩
  · rw [firstProgram, h.pipeline, ← h.program]
  · rw [firstInputs, h.pipeline, h.inputs]

theorem runsFirst_of_fused [F64 F] {e : Env} {first second : TaskTemplate F} {rest : List (TaskTemplate F)}
    {inputs : List ObjectId} {requirements : ResourceRequirements} {task : TaskSpec F}
    (h : fusedPipelineTask e (first :: second :: rest) inputs requirements = some task) : RunsFirst task first inputs := by
  obtain ⟨-, -, -, ⟨stage, stages, indexes, hpipeline, hprogram, hstage, hindexes⟩, -⟩ := fusedPipelineTask_spec h
  refine ⟨?_, ?_⟩
  · simp only [firstProgram, hpipeline, List.head?_cons, Option.map_some]
    rw [hprogram]
  · simp only [firstInputs, hpipeline, List.head?_cons, Option.bind_some]
    rw [hstage, mapM_eq_some_iff, List.forall₂_map_left_iff]
    exact hindexes

theorem launch_logical {spec : LogicalJobSpec F} {role : LogicalRoleSpec F} {inputs : List ObjectId}
    {specs : List (TaskSpec F)} {rest : List String} (hjob : L.definition j = some (.logical spec))
    (hrole : Startable spec (L.role j) role) (hinputs : gather (L.role j) role.dependsOn = some inputs)
    (hrest : ∀ r ∈ rest, NotStarted (L.role j r)) (hnew : ∀ task ∈ specs, L.spec task.id = none)
    (hnodup : (specs.map (·.id)).Nodup) (hreads : ∀ task ∈ specs, ∃ implementation ∈ role.implementations,
      RunsFirst task implementation.task inputs) :
    Launch L j (.logical spec) role.name rest specs := by
  refine ⟨hjob, fun r hr => ?_, hnew, hnodup, _, _, inputs, .logical hrole.mem, hinputs, fun task htask => ?_⟩
  · rcases List.mem_cons.mp hr with rfl | hr
    · exact hrole.notStarted
    · exact hrest r hr
  · obtain ⟨implementation, hmem, hfirst⟩ := hreads task htask
    exact ⟨implementation.task, List.mem_map.mpr ⟨implementation, hmem, rfl⟩, hfirst⟩

variable [F64 F]

/-- What starting a role comes to: its outcome, and that it touches no other role. -/
structure RoleOutcome (strict : Prop) (ids : Nat → Prop) (L : Ledger F) (j : JobId) (names : List String)
    (r : Except FabricError Unit) (s' : Fabric F) : Prop where
  outcome : Outcome strict ids L r s'
  frame : ∀ r ∉ names, s'.ledger.role j r = L.role j r

section Start

variable {ids : Nat → Prop} {names : List String}

theorem roleOutcome_step {m : FabricM F Unit} (hm : m s = (.ok (), s')) (hstep : Step strict L s'.ledger)
    (hnew : ∀ t spec, L.spec t = none → s'.ledger.spec t = some spec → ids t.uuid)
    (hframe : ∀ r ∉ names, s'.ledger.role j r = L.role j r) : m.Ends s (RoleOutcome strict ids L j names) := by
  rw [Ends, hm]
  exact ⟨⟨⟨.single hstep, hnew⟩, fun _ => ⟨(), rfl⟩⟩, hframe⟩

omit [F64 F] in
/-- New tasks have the identifiers they were given. -/
theorem addAll_new {specs : List (TaskSpec F)} {b : TaskRoleBinding} (hids : ∀ spec ∈ specs, ids spec.id.uuid)
    {t : TaskId} {spec : TaskSpec F} (hn : L.spec t = none) (hs : (L.addAll specs b).spec t = some spec) :
    ids t.uuid := by
  rw [Ledger.addAll_spec, hn, Option.or_none] at hs
  have hid : spec.id = t := by simpa using List.find?_some hs
  exact hid ▸ hids spec (List.mem_of_find?_eq_some hs)

/-- No implementation is feasible now. -/
theorem markReady_ends {name : String} (hn : NotStarted (s.ledger.role j name)) (hmem : name ∈ names) :
    (update (setRole j name .ready) : FabricM F Unit).Ends s (RoleOutcome strict ids s.ledger j names) := by
  obtain ⟨status, hstatus⟩ := Option.isSome_iff_exists.mp hn.isSome
  obtain ⟨job, hj, -⟩ := lookup_of_role hstatus
  have hledger := ledger_setRole (r := name) hj .ready
  have hrun : update (setRole j name .ready) s = ((.ok (), s.setRole j name .ready) : Except FabricError Unit × Fabric F) :=
    rfl
  refine roleOutcome_step hrun ?_ ?_ ?_
  · rw [hledger]
    exact .ready hn
  · intro t spec hnone hsome
    rw [hledger, Ledger.setRole_spec, hnone] at hsome
    cases hsome
  · intro r hr
    rw [hledger, Ledger.setRole_role, if_neg]
    rintro ⟨-, rfl⟩
    exact hr hmem

theorem submitSingle_ends {definition : JobDefinition F} {name : String} {task : TaskSpec F}
    {selection : Option (RoleSelection F)} (hl : Launch s.ledger j definition name [] [task])
    (hvalid : validateTask task = .ok ()) (hid : ids task.id.uuid)
    (hsel : ∀ selections, selection ≠ some (.sharded selections)) (hmem : name ∈ names) :
    (submitSingle j name task selection).Ends s (RoleOutcome strict ids s.ledger j names) := by
  obtain ⟨job, hj, -⟩ := lookup_of_definition hl.job
  obtain ⟨s', planned, hrun, hledger, hplanned⟩ := submitSingle_ok name hj hvalid
    (hl.new task (List.mem_singleton_self task)) hsel
  refine roleOutcome_step hrun ?_ (fun t spec hn hs => ?_) fun r hr => ?_
  · rw [hledger]
    exact .single hl hplanned
  · rw [hledger] at hs
    exact addAll_new (b := .single j name) (by simpa using hid) hn hs
  · rw [hledger, Ledger.setPlanned_role, Ledger.setRole_role, if_neg]
    · rfl
    · rintro ⟨-, rfl⟩
      exact hr hmem

end Start

section Logical

variable {spec : LogicalJobSpec F} {role : LogicalRoleSpec F} {inputs : List ObjectId}
  (hsound : Sound strict s.ledger) (he : e.Fresh) (hunused : Unused e.Mints s.ledger)
  (hjob : s.ledger.definition j = some (.logical spec)) (hrole : Startable spec (s.ledger.role j) role)
  (hinputs : gather (s.ledger.role j) role.dependsOn = some inputs)

include hsound he hunused hjob hrole hinputs

theorem shards_ends {context : ShardPlanningContext F} {selected : List (ReadyShardSelection F)} {names : List String}
    (hsel : selectReadyShards e role inputs context = some selected) (hmem : role.name ∈ names) :
    (submitShards j role.name selected).Ends s (RoleOutcome strict e.Mints s.ledger j names) := by
  obtain ⟨job, hj, -⟩ := lookup_of_definition hjob
  have haccepted : (JobDefinition.logical spec).Accepted := hsound.accepted j _ hjob
  have hvalid := (validateLogicalJob_ok haccepted).2 role hrole.mem
  obtain ⟨e', count, hmints, hfresh, hof⟩ := selectReadyShards_spec hvalid.shards hsel
  have hminted : ∀ shard ∈ selected, e.Mints shard.task.id.uuid := by
    intro shard hshard
    obtain ⟨i, -, hshardOf⟩ := forall₂_mem_right hof.each hshard
    exact hmints _ hshardOf.minted.of_sub
  have hnodup := hof.nodup (hfresh he)
  have hids : (selected.map (·.task)).map (·.id) = selected.map (·.task.id) := List.map_map ..
  have hlength : count.toNat = selected.length := by
    rw [← hof.each.length_eq, List.length_range]
  obtain ⟨s', planned, hrun, hledger, hplanned⟩ := submitShards_ok role.name hj hof.accepted
    (fun shard hshard => hunused _ (hminted shard hshard)) hnodup
  refine roleOutcome_step hrun ?_ (fun t task hn hs => ?_) fun r hr => ?_
  · rw [hledger]
    refine .sharded (launch_logical hjob hrole hinputs (fun _ h => (List.not_mem_nil h).elim) ?_ (hids ▸ hnodup) ?_)
      ?_ ?_ hplanned
    · intro task htask
      obtain ⟨shard, hshard, rfl⟩ := List.mem_map.mp htask
      exact hunused _ (hminted shard hshard)
    · intro task htask
      obtain ⟨shard, hshard, rfl⟩ := List.mem_map.mp htask
      obtain ⟨i, -, hshardOf⟩ := forall₂_mem_right hof.each hshard
      obtain ⟨implementation, himpl, hmade⟩ := hshardOf.made
      exact ⟨implementation, himpl, runsFirst_of_made hmade⟩
    · rw [Ne, List.map_eq_nil_iff, ← List.length_eq_zero_iff, ← hlength]
      have := hof.positive
      omega
    · intro i task hi
      rw [List.getElem?_map] at hi
      obtain ⟨shard, hshard, rfl⟩ := Option.map_eq_some_iff.mp hi
      obtain ⟨hlt, rfl⟩ := List.getElem?_eq_some_iff.mp hshard
      have hshardOf := hof.each.get (by rw [List.length_range, hlength]; exact hlt) hlt
      obtain ⟨partition, hpartition⟩ := hshardOf.shard
      simp only [List.get_eq_getElem, List.getElem_range] at hpartition
      refine ⟨_, hpartition, ?_, by rw [List.length_map]; exact hlength⟩
      have := count.toNat_lt
      rw [UInt32.toNat_ofNat_of_lt' (by rw [UInt32.size]; omega)]
  · rw [hledger] at hs
    refine addAll_new (b := .shard j role.name) (fun task htask => ?_) hn hs
    obtain ⟨shard, hshard, rfl⟩ := List.mem_map.mp htask
    exact hminted shard hshard
  · rw [hledger, Ledger.setPlanned_role, Ledger.setRole_role, if_neg]
    · rfl
    · rintro ⟨-, rfl⟩
      exact hr hmem

omit he in
theorem fused_ends {statuses : Map String CooperativeRoleStatus} {rest : List (LogicalRoleSpec F)}
    {context : FusionContext F} {selected : ReadyFusionSelection F}
    (hchain : fusionChain spec statuses role = role :: rest) (hlinked : Linked spec (s.ledger.role j) role rest)
    (hsel : selectReadyFusion e (role :: rest) inputs context = some selected) :
    (submitFused j (role :: rest) selected).Ends s
      (RoleOutcome strict e.Mints s.ledger j ((role :: rest).map (·.name))) := by
  obtain ⟨job, hj, -⟩ := lookup_of_definition hjob
  have haccepted : (JobDefinition.logical spec).Accepted := hsound.accepted j _ hjob
  have hnames := (validateLogicalJob_ok haccepted).1
  cases hvalid : validateTask selected.task with
  | error err =>
    -- refused: nothing has happened yet, and the job is not fusion safe
    have hfail : submitFused j (role :: rest) selected s = (.error err, s) := by
      unfold submitFused
      exact bind_error (by simp [submit, hvalid])
    rw [Ends, hfail]
    refine ⟨⟨.refl _ _, fun hsafe => ?_⟩, fun _ _ => rfl⟩
    have hok := fusion_accepted (hsafe j _ hjob) hrole.mem (hchain.symm ▸ hsel)
    rw [hvalid] at hok
    cases hok
  | ok u =>
    obtain ⟨implementations, hof⟩ := selectReadyFusion_spec hsel
    have hcount : selected.implementations.length = implementations.length := by rw [hof.names, List.length_map]
    have hlen : implementations.length ≤ (role :: rest).length := by
      have := hof.each.length_eq
      rw [List.length_take] at this
      omega
    obtain ⟨e', requirements, hmints, htask⟩ := hof.task
    obtain ⟨first, second, others, rfl⟩ : ∃ first second others, implementations = first :: second :: others := by
      match implementations, hof.two with
      | first :: second :: others, _ => exact ⟨first, second, others, rfl⟩
    obtain ⟨hminted, hpure, -⟩ := fusedPipelineTask_spec htask
    have hid : e.Mints selected.task.id.uuid := hmints _ hminted
    have hfirst : first ∈ role.implementations := by
      have hall := hof.each
      simp only [List.length_cons, List.take_succ_cons] at hall
      exact (List.forall₂_cons.mp hall).1
    have hreads : RunsFirst selected.task first.task inputs := runsFirst_of_fused htask
    obtain ⟨s', planned, hrun, hledger, hplanned⟩ := submitFused_ok hj hvalid (hunused _ hid) (hcount ▸ hlen)
    have hinit : (role :: rest).take (first :: second :: others).length = role :: rest.take (others.length + 1) := rfl
    rw [hcount, hinit, List.map_cons] at hledger
    have hsub : ∀ r ∈ (rest.take (others.length + 1)).map (·.name), r ∈ rest.map (·.name) := by
      intro r hr
      exact ((List.take_sublist _ _).map _).mem hr
    refine roleOutcome_step hrun ?_ (fun t task hn hs => ?_) fun r hr => ?_
    · rw [hledger]
      refine .fused (launch_logical hjob hrole hinputs (fun r hr => ?_) (by simpa using hunused _ hid) (by simp)
        (by simpa using ⟨first, hfirst, hreads⟩)) ?_ ?_ ?_ hpure hplanned
      · obtain ⟨later, hlater, rfl⟩ := List.mem_map.mp (hsub r hr)
        obtain ⟨i, hi⟩ := List.mem_iff_getElem?.mp (List.mem_cons_of_mem role hlater)
        exact hlinked.notStarted hrole hi
      · rw [Ne, List.map_eq_nil_iff, ← List.length_eq_zero_iff, List.length_take]
        simp only [List.length_cons] at hlen
        omega
      · refine ⟨spec, role :: rest.take (others.length + 1), rfl, rfl, ?_, fun later hlater => ?_⟩
        · exact hlinked.isChain.take (others.length + 2)
        · exact hlinked.mem hrole.mem later ((List.take_sublist (others.length + 2) (role :: rest)).mem hlater)
      · have hnodup := chain_nodup hnames hrole hlinked
        exact hnodup.sublist ((List.take_sublist (others.length + 2) (role :: rest)).map _)
    · rw [hledger] at hs
      exact addAll_new (b := .fusedChain j (role.name :: (rest.take (others.length + 1)).map (·.name)))
        (by simpa using hid) hn hs
    · rw [hledger, Ledger.setPlanned_role, Ledger.setRoles_role, if_neg]
      · rfl
      · rintro ⟨-, hin⟩
        refine hr ?_
        rcases List.mem_cons.mp hin with rfl | hin
        · exact List.mem_cons_self ..
        · exact List.mem_cons_of_mem _ (hsub r hin)

end Logical

theorem RoleOutcome.mono {ids ids' : Nat → Prop} {names : List String} {r : Except FabricError Unit}
    (h : RoleOutcome strict ids L j names r s') (hids : ∀ n, ids n → ids' n) :
    RoleOutcome strict ids' L j names r s' := ⟨⟨h.outcome.1.mono hids, h.outcome.2⟩, h.frame⟩

/-- **One round of materialization.** -/
theorem materializeRole_ends (hsound : Sound strict s.ledger) (he : e.Fresh) {item : ReadyRole F}
    (hitem : StillReady s.ledger j item) (hunused : Unused e.Mints s.ledger) (howned : Unused item.Owns s.ledger) :
    (materializeRole e j item).Ends s
      (RoleOutcome strict (fun n => e.Mints n ∨ item.Owns n) s.ledger j item.names) := by
  have hsub : ∀ i, Unused (e.sub i).Mints s.ledger := fun i n hn => hunused n hn.of_sub
  cases hitem with
  | @cooperative spec role inputs task e' hjob hmem hn hinputs hmade hshard =>
    have hl : Launch s.ledger j (.cooperative spec) role.name [] [task] := by
      refine ⟨hjob, ?_, ?_, by simp, _, _, inputs, .cooperative hmem, hinputs, ?_⟩
      · simpa using hn
      · simpa using howned task.id.uuid rfl
      · simpa using runsFirst_of_made hmade
    exact submitSingle_ends hl (validateTask_plain hshard hmade.pipeline) (.inr rfl) nofun (List.mem_singleton_self _)
  | @logical spec role inputs statuses rest hjob hrole hinputs hchain hlinked =>
    have hmem : role.name ∈ (role :: rest).map (·.name) := List.mem_cons_self ..
    refine ends_state_bind.mpr ?_
    dsimp only
    split
    · split
      · exact markReady_ends hrole.notStarted hmem
      · rename_i selected hsel
        refine ends_mono (shards_ends hsound (he.sub 1) (hsub 1) hjob hrole hinputs hsel hmem) fun r s' h => ?_
        exact h.mono fun n hn => .inl hn.of_sub
    · split
      · rename_i selected hsel
        refine ends_mono (fused_ends hsound (hsub 2) hjob hrole hinputs hchain hlinked hsel) fun r s' h => ?_
        exact h.mono fun n hn => .inl hn.of_sub
      · split
        · exact markReady_ends hrole.notStarted hmem
        · rename_i selected hsel
          obtain ⟨⟨implementation, himpl, hmade⟩, hshard⟩ := selectReadyRole_spec hsel
          have hid : e.Mints selected.task.id.uuid := hmade.minted.of_sub
          have hl : Launch s.ledger j (.logical spec) role.name [] [selected.task] := by
            refine launch_logical hjob hrole hinputs (fun _ h => (List.not_mem_nil h).elim) ?_ (by simp) ?_
            · simpa using hunused _ hid
            · simpa using ⟨implementation, himpl, runsFirst_of_made hmade⟩
          exact submitSingle_ends hl (validateTask_plain hshard hmade.pipeline) (.inl hid) nofun hmem

/-! ## Starting all roles that are ready -/

section

omit [F64 F]

theorem StillReady.notStarted {item : ReadyRole F} (h : StillReady L j item) :
    ∀ r ∈ item.names, NotStarted (L.role j r) := by
  cases h with
  | cooperative _ _ hn => simpa [ReadyRole.names] using hn
  | logical _ hrole _ _ hlinked =>
    intro r hr
    obtain ⟨later, hlater, rfl⟩ := List.mem_map.mp hr
    obtain ⟨i, hi⟩ := List.mem_iff_getElem?.mp hlater
    exact hlinked.notStarted hrole hi

theorem linked_congr {spec : LogicalJobSpec F} {statuses statuses' : String → Option CooperativeRoleStatus}
    {current : LogicalRoleSpec F} {rest : List (LogicalRoleSpec F)} (h : Linked spec statuses current rest)
    (hsame : ∀ role ∈ rest, statuses' role.name = statuses role.name) : Linked spec statuses' current rest := by
  induction h with
  | nil current => exact .nil current
  | @cons current next rest hfollows hwaiting _ ih =>
    refine .cons hfollows ?_ (ih fun role hrole => hsame role (List.mem_cons_of_mem _ hrole))
    rw [hsame next (List.mem_cons_self ..)]
    exact hwaiting

/-- Starting other roles does not get in the way of this one. -/
theorem StillReady.frame {item : ReadyRole F} {names : List String} (h : StillReady L j item)
    (hd : ∀ definition, L.definition j = some definition → L'.definition j = some definition)
    (hframe : ∀ r ∉ names, L'.role j r = L.role j r) (hnot : ∀ r ∈ names, NotStarted (L.role j r))
    (hapart : ∀ r ∈ item.names, r ∉ names) : StillReady L' j item := by
  have hgather : ∀ {dependencies : List String} {inputs : List ObjectId},
      gather (L.role j) dependencies = some inputs → gather (L'.role j) dependencies = some inputs := by
    refine gather_of_stable fun d _ outputs hdone => ?_
    rw [hframe d]
    · exact hdone
    · intro hmem
      rcases hnot d hmem with hn | hn <;> rw [hn] at hdone <;> cases hdone
  cases h with
  | cooperative hjob hmem hn hinputs hmade hshard =>
    refine .cooperative (hd _ hjob) hmem ?_ (hgather hinputs) hmade hshard
    rw [hframe _ (hapart _ (List.mem_singleton_self _))]
    exact hn
  | @logical spec role inputs statuses rest hjob hrole hinputs hchain hlinked =>
    have hsame : ∀ later ∈ role :: rest, L'.role j later.name = L.role j later.name := fun later hlater =>
      hframe _ (hapart _ (List.mem_map.mpr ⟨later, hlater, rfl⟩))
    refine .logical (hd _ hjob) ⟨hrole.mem, ?_, inputs, hgather hinputs⟩ (hgather hinputs) hchain ?_
    · rw [hsame role (List.mem_cons_self ..)]
      exact hrole.notStarted
    · exact linked_congr hlinked fun later hlater => hsame later (List.mem_cons_of_mem _ hlater)

end

/-- What the rounds from round `i` on rely on. -/
structure Queue (strict : Prop) (e : Env) (j : JobId) (i : Nat) (items : List (ReadyRole F)) (L : Ledger F) :
    Prop where
  sound : Sound strict L
  ready : ∀ item ∈ items, StillReady L j item
  apart : items.Pairwise fun a b => a.names.Disjoint b.names ∧ ∀ n, a.Owns n → ¬b.Owns n
  unused : ∀ k, i ≤ k → Unused (e.sub k).Mints L
  owned : ∀ item ∈ items, Unused item.Owns L ∧ ∀ n k, item.Owns n → ¬(e.sub k).Mints n

/-- The round of one role leaves the others their turn. -/
theorem Queue.next {i : Nat} {item : ReadyRole F} {items : List (ReadyRole F)} {r : Except FabricError Unit}
    (h : Queue strict e j i (item :: items) L) (he : e.Fresh)
    (ho : RoleOutcome strict (fun n => (e.sub i).Mints n ∨ item.Owns n) L j item.names r s') :
    Queue strict e j (i + 1) items s'.ledger := by
  obtain ⟨hfirst, hrest⟩ := List.pairwise_cons.mp h.apart
  have hruns := ho.outcome.1
  refine ⟨hruns.steps.sound h.sound, fun other hother => ?_, hrest, fun k hk => ?_, fun other hother => ⟨?_, ?_⟩⟩
  · refine (h.ready other (List.mem_cons_of_mem _ hother)).frame (fun _ hd => hruns.steps.definition hd) ho.frame
      (h.ready item (List.mem_cons_self ..)).notStarted fun r hr hmem => ?_
    exact (hfirst other hother).1 hmem hr
  · refine hruns.unused (fun n hn hused => ?_) (h.unused k (by omega))
    rcases hused with hused | hused
    · have := he.sub_inj hn hused
      omega
    · exact (h.owned item (List.mem_cons_self ..)).2 n k hused hn
  · refine hruns.unused (fun n hn hused => ?_) (h.owned other (List.mem_cons_of_mem _ hother)).1
    rcases hused with hused | hused
    · exact (h.owned other (List.mem_cons_of_mem _ hother)).2 n i hn hused
    · exact (hfirst other hother).2 n hused hn
  · exact (h.owned other (List.mem_cons_of_mem _ hother)).2

theorem materialize_each (he : e.Fresh) {all : Nat → Prop} (hall : ∀ k n, (e.sub k).Mints n → all n) :
    ∀ (items : List (ReadyRole F)) (i : Nat) (s : Fabric F), Queue strict e j i items s.ledger →
    (∀ item ∈ items, ∀ n, item.Owns n → all n) →
    (eachFrom (fun i role => materializeRole (e.sub i) j role) i items).Ends s (Outcome strict all s.ledger)
  | [], i, s, _, _ => ends_pure ⟨.refl _ _, fun _ => ⟨(), rfl⟩⟩
  | item :: items, i, s, h, howned => by
    have hround := materializeRole_ends h.sound (he.sub i) (h.ready item (List.mem_cons_self ..))
      (h.unused i (Nat.le_refl i)) (h.owned item (List.mem_cons_self ..)).1
    have hids : ∀ n, (e.sub i).Mints n ∨ item.Owns n → all n := fun n hn =>
      hn.elim (hall i n) (howned item (List.mem_cons_self ..) n)
    refine ends_bind hround (fun _ s' ho => ?_) fun err s' ho => ?_
    · have hnext := materialize_each he hall items (i + 1) s' (h.next he ho)
        fun other hother => howned other (List.mem_cons_of_mem _ hother)
      refine ends_mono hnext fun r s'' h' => ?_
      exact ⟨(ho.outcome.1.mono hids).trans h'.1, h'.2⟩
    · refine ⟨ho.outcome.1.mono hids, fun hsafe => ?_⟩
      obtain ⟨a, ha⟩ := ho.outcome.2 hsafe
      cases ha

section Snapshot

variable {job : CooperativeJobRecord F} (hsound : Sound strict s.ledger) (he : e.Fresh)
  (hunused : Unused e.Mints s.ledger) (hj : s.jobs.lookup j = some job)

include hj

section

omit [F64 F]

theorem gather_of_job {dependencies : List String} {inputs : List ObjectId}
    (h : dependencyOutputs job.roles dependencies = some inputs) : gather (s.ledger.role j) dependencies = some inputs := by
  rw [dependencyOutputs_eq] at h
  rwa [show s.ledger.role j = job.roles.lookup from funext fun r => role_of_lookup hj r]

theorem readyCooperative_spec {spec : CooperativeJobSpec F} (hd : job.definition = .cooperative spec)
    {entry : CooperativeRoleSpec F × Nat} (hmem : entry.1 ∈ spec.roles) {item : ReadyRole F}
    (h : readyCooperative e job.roles entry = some item) :
    item.names = [entry.1.name] ∧ (∀ n, item.Owns n ↔ n = (e.sub entry.2).newUuid) ∧ StillReady s.ledger j item := by
  unfold readyCooperative at h
  dsimp only at h
  split at h
  · rename_i hwaiting
    obtain ⟨inputs, hinputs, rfl⟩ := Option.map_eq_some_iff.mp h
    refine ⟨rfl, fun n => Iff.rfl, .cooperative ?_ hmem (.inl ?_) (gather_of_job hj hinputs)
      (madeFrom_instantiate (e.sub entry.2) entry.1.task inputs) rfl⟩
    · rw [definition_of_lookup hj, hd]
    · rw [role_of_lookup hj]
      exact hwaiting
  · cases h

theorem readyLogical_spec {spec : LogicalJobSpec F} (hd : job.definition = .logical spec) {role : LogicalRoleSpec F}
    (hmem : role ∈ spec.roles) {item : ReadyRole F} (h : readyLogical spec job.roles role = some item) :
    ∃ rest, item.names = (role :: rest).map (·.name) ∧ (∀ n, ¬item.Owns n) ∧ Startable spec (s.ledger.role j) role ∧
      Linked spec (s.ledger.role j) role rest ∧ StillReady s.ledger j item := by
  unfold readyLogical at h
  split at h
  · rename_i hn
    obtain ⟨inputs, hinputs, rfl⟩ := Option.map_eq_some_iff.mp h
    obtain ⟨rest, hchain, hlinked⟩ := fusionChain_linked spec job.roles role
    have hrole : ∀ r, s.ledger.role j r = job.roles.lookup r := role_of_lookup hj
    have hlinked' := linked_congr hlinked fun later _ => hrole later.name
    have hinputs' := gather_of_job hj hinputs
    have hstart : Startable spec (s.ledger.role j) role := by
      refine ⟨hmem, ?_, inputs, hinputs'⟩
      rw [hrole]
      exact hn
    refine ⟨rest, ?_, fun n => not_false, hstart, hlinked', ?_⟩
    · rw [ReadyRole.names, hchain]
    · rw [hchain]
      refine .logical ?_ hstart hinputs' hchain hlinked'
      rw [definition_of_lookup hj, hd]
  · cases h

end

include hsound he hunused in
theorem readyRoles_queue : Queue strict (e.sub 1) j 0 (readyRoles (e.sub 0) job) s.ledger := by
  have haccepted := hsound.accepted j _ (definition_of_lookup hj)
  have hunused' : ∀ k, 0 ≤ k → Unused ((e.sub 1).sub k).Mints s.ledger := fun k _ n hn =>
    hunused n hn.of_sub.of_sub
  have hnodup := haccepted.nodup
  unfold readyRoles
  cases hd : job.definition with
  | cooperative spec =>
    rw [hd] at hnodup
    have hentries : spec.roles.zipIdx.Pairwise fun a b => a.1.name ≠ b.1.name ∧ a.2 ≠ b.2 := by
      refine List.Pairwise.and ?_ ?_
      · have hnames : (spec.roles.zipIdx.map fun entry => entry.1.name).Nodup := by
          have hmap : spec.roles.zipIdx.map (fun entry => entry.1.name) =
              (spec.roles.zipIdx.map Prod.fst).map (·.name) := (List.map_map ..).symm
          rw [jobRoles, List.map_map] at hnodup
          rw [hmap, List.zipIdx_map_fst]
          exact hnodup
        exact List.pairwise_map.mp hnames
      · have hindexes : (spec.roles.zipIdx.map Prod.snd).Nodup := by
          rw [List.zipIdx_map_snd]
          exact List.nodup_range'
        exact List.pairwise_map.mp hindexes
    have hspec : ∀ {entry : CooperativeRoleSpec F × Nat} {item : ReadyRole F}, entry ∈ spec.roles.zipIdx →
        readyCooperative (e.sub 0) job.roles entry = some item → item.names = [entry.1.name] ∧
        (∀ n, item.Owns n ↔ n = ((e.sub 0).sub entry.2).newUuid) ∧ StillReady s.ledger j item :=
      fun hmem hitem => readyCooperative_spec hj hd (List.fst_mem_of_mem_zipIdx hmem) hitem
    refine ⟨hsound, fun item hitem => ?_, ?_, hunused', fun item hitem => ?_⟩
    · obtain ⟨entry, hmem, hitem⟩ := List.mem_filterMap.mp hitem
      exact (hspec hmem hitem).2.2
    · refine List.pairwise_filterMap.mpr (hentries.imp_of_mem fun {a b} ha hb hne item hitem item' hitem' => ?_)
      obtain ⟨hnames, howns, -⟩ := hspec ha hitem
      obtain ⟨hnames', howns', -⟩ := hspec hb hitem'
      refine ⟨?_, fun n hn hn' => hne.2 ?_⟩
      · rw [hnames, hnames', List.singleton_disjoint, List.mem_singleton]
        exact hne.1
      · rw [howns] at hn
        rw [howns'] at hn'
        refine (he.sub 0).sub_inj (Env.mints_newUuid ((e.sub 0).sub a.2)) ?_
        rw [← hn, hn']
        exact Env.mints_newUuid _
    · obtain ⟨entry, hmem, hitem⟩ := List.mem_filterMap.mp hitem
      obtain ⟨-, howns, -⟩ := hspec hmem hitem
      have hminted : ∀ n, item.Owns n → (e.sub 0).Mints n := by
        intro n hn
        rw [howns] at hn
        rw [hn]
        exact (Env.mints_newUuid _).of_sub
      refine ⟨fun n hn => hunused n (hminted n hn).of_sub, fun n k hn hk => ?_⟩
      exact absurd (he.sub_inj (hminted n hn) hk.of_sub) (by decide)
  | logical spec =>
    rw [hd] at haccepted
    obtain ⟨hnames, -⟩ := validateLogicalJob_ok haccepted
    have hroles : spec.roles.Pairwise fun a b => a.name ≠ b.name := List.pairwise_map.mp hnames
    refine ⟨hsound, fun item hitem => ?_, ?_, hunused', fun item hitem => ?_⟩
    · obtain ⟨role, hmem, hitem⟩ := List.mem_filterMap.mp hitem
      obtain ⟨rest, -, -, -, -, hready⟩ := readyLogical_spec hj hd hmem hitem
      exact hready
    · refine List.pairwise_filterMap.mpr (hroles.imp_of_mem fun {a b} ha hb hne item hitem item' hitem' => ?_)
      obtain ⟨rest, hnames₁, howns, hstart, hlinked, -⟩ := readyLogical_spec hj hd ha hitem
      obtain ⟨rest', hnames₂, -, hstart', hlinked', -⟩ := readyLogical_spec hj hd hb hitem'
      refine ⟨?_, fun n hn => absurd hn (howns n)⟩
      rw [hnames₁, hnames₂]
      exact chain_disjoint hnames hstart hstart' hlinked hlinked' hne
    · obtain ⟨role, hmem, hitem⟩ := List.mem_filterMap.mp hitem
      obtain ⟨rest, -, howns, -⟩ := readyLogical_spec hj hd hmem hitem
      exact ⟨fun n hn => absurd hn (howns n), fun n k hn => absurd hn (howns n)⟩

end Snapshot

omit [F64 F] in
/-- The identifiers drawn in advance are drawn for this materialization. -/
theorem readyRoles_owns {job : CooperativeJobRecord F} {item : ReadyRole F} (h : item ∈ readyRoles e job) {n : Nat}
    (hn : item.Owns n) : e.Mints n := by
  rcases readyRoles_cases h with ⟨_, _, _, _, -, -, rfl⟩ | ⟨_, _, _, -, -, rfl⟩
  · rw [show n = _ from hn]
    exact (Env.mints_newUuid _).of_sub
  · exact hn.elim

/-- **Materialization.** -/
theorem materializeReadyRoles_ends (hsound : Sound strict s.ledger) (he : e.Fresh) (hunused : Unused e.Mints s.ledger)
    {definition : JobDefinition F} (hd : s.ledger.definition j = some definition) :
    (materializeReadyRoles e j).Ends s (Outcome strict e.Mints s.ledger) := by
  obtain ⟨job, hj, -⟩ := lookup_of_definition hd
  refine ends_state_bind.mpr ?_
  rw [hj, okOr_some, pure_bind']
  refine materialize_each (he.sub 1) (fun k n hn => hn.of_sub.of_sub) _ 0 s (readyRoles_queue hsound he hunused hj) ?_
  intro item hitem n hn
  exact (readyRoles_owns hitem hn).of_sub

end Fabric

end Plurifold
