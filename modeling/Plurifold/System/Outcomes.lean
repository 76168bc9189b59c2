import Plurifold.System.Valuation

/-!
# What completed jobs come to

Every run of the coordinator is a run of the fabric, so its tasks are accounted for (`run_accounted`), and in a deployment
completed tasks are what agents get from executing them (`Site.Ok.trueTo`). So the result of a completed job is what the
job means (`results_mean`).
-/

namespace Plurifold

open Lib Attempt Fabric CoordinatorState Site

variable {F : Type} [F64 F] {d : Deployment F} {e ids : Env} {m x : UInt64} {site : Site F} {events : List (Party × Chance F)}

/-! ## Runs of the coordinator -/

/-- Task identifiers are fresh: the coordinator never generates one twice, nor one that a client submits. -/
structure FreshRequests (e : Env) (requests : List (Request F)) : Prop where
  generated : e.Fresh
  submitted : ∀ task, .submitTask task ∈ requests → ¬e.Mints task.id.uuid

theorem history_requests : ∀ (requests : List (Request F)) (e : Env) (c : CoordinatorState F),
    (history e c requests).map (·.request) = requests
  | [], _, _ => rfl
  | request :: requests, _, _ => congrArg (List.cons request) (history_requests requests _ _)

omit [F64 F] in
/-- Only the submission of a task submits one. -/
theorem Request.Makes.submitTask {request : Request F} {task : TaskSpec F} (h : request.Makes e (.submit task)) :
    request = .submitTask task := by
  cases request with
  | submitTask => cases h; rfl
  | pollWork => rcases h with h | ⟨_, h⟩ <;> cases h
  | reportLinkMeasurement => rcases h with ⟨_, _, h⟩ | h <;> cases h
  | maintenanceTick => rcases h with h | h <;> cases h
  | _ => cases h

/-- **The tasks of a coordinator are accounted for.** -/
theorem run_accounted {requests : List (Request F)} (h : FreshRequests e requests) :
    Accounted (run e (CoordinatorState.new m x) requests).fabric := by
  obtain ⟨calls, segments, hlent, hevents, hperform, hsegments⟩ := run_calls requests e (CoordinatorState.new m x)
  obtain ⟨-, hfinal⟩ := trace_splice (e := e) calls [] (CoordinatorState.new m x : CoordinatorState F).fabric
  have hfresh : FreshTasks (e.splice [] (calls.map (·.part))) (calls.map (·.op)) := by
    refine ⟨h.generated.splice hlent, fun task htask hmints => ?_⟩
    rw [← events_ops e calls (CoordinatorState.new m x : CoordinatorState F).fabric, hevents] at htask
    obtain ⟨ev, hev, hop⟩ := List.mem_map.mp htask
    obtain ⟨segment, hsegment, hev⟩ := List.mem_flatten.mp hev
    obtain ⟨served, hserved, hcalls⟩ := forall₂_mem_right hsegments hsegment
    have hrequest := (hop ▸ hcalls.makes ev hev).submitTask
    refine h.submitted task ?_ hmints.of_splice
    rw [← history_requests requests e (CoordinatorState.new m x), ← hrequest]
    exact List.mem_map_of_mem hserved
  rw [← hperform, ← hfinal]
  exact final_accounted m x hfresh

/-! ## Deployments -/

omit [F64 F] in
theorem Site.Contents.unique (hsane : Sane d.sha site) {o : ObjectId} {b b' : Bytes} (h : site.Contents d o b)
    (h' : site.Contents d o b') : b = b' := by
  obtain ⟨known, hknown, hdescribes⟩ := h.known
  obtain ⟨known', hknown', hdescribes'⟩ := h'.known
  obtain rfl := Option.some.inj (hknown.symm.trans hknown')
  exact hsane.digest_inj h.written h'.written (Option.some.inj (hdescribes.digest.symm.trans hdescribes'.digest))

/-- Completed tasks are what agents get from executing them on the contents of objects. -/
theorem Site.Ok.trueTo (hok : Ok d e m x site) (hsane : Sane d.sha site) :
    TrueTo (site.Contents d) (Set.range d.executor) site.coordinator.fabric where
  unique h h' := h.unique hsane h'
  known {o object} h := by
    obtain ⟨stored, hstored, rfl⟩ := Option.map_eq_some_iff.mp h
    obtain ⟨b, hb, hdescribes⟩ := (hok.table o stored hstored).2.known
    refine ⟨b, ⟨hb, _, h, hdescribes⟩, ?_⟩
    rw [hdescribes.size]
    exact UInt64.toNat_ofNat_of_lt' (hsane.sizes b hb)
  right h := by
    obtain ⟨task, o, output, r, htask, houtputs, hcontents, inputs, hinputs, hrun⟩ := hok.completed _ _ h
    exact ⟨task, o, output, d.executor r, inputs, htask, houtputs, hcontents, ⟨r, rfl⟩, hinputs, hrun⟩

theorem Site.Ok.accounted (hok : Ok d e m x site) (hfresh : FreshRequests e site.log) :
    Accounted site.coordinator.fabric := by
  rw [hok.coordinator]
  exact run_accounted hfresh

/-- The result of a completed job is what the job means. -/
theorem Site.Ok.means (hok : Ok d e m x site) (hsane : Sane d.sha site) (hfresh : FreshRequests e site.log) {j : JobId}
    {job : CooperativeJobRecord F} {result : List ObjectId} (hjob : site.coordinator.fabric.jobs.lookup j = some job)
    (hcompleted : site.coordinator.fabric.cooperativeJobStatus j = some (.completed result)) :
    ∃ value : String → List Bytes,
      Valuation (Makes (site.Contents d) (Set.range d.executor) job.definition)
        {r | r ∈ (jobRoles job.definition).map Prod.fst} value ∧
      (∀ r ∈ jobOutputs job.definition, Means (site.Contents d) (Set.range d.executor) job.definition r (value r)) ∧
      List.Forall₂ (site.Contents d) result ((jobOutputs job.definition).flatMap value) := by
  have htrue := hok.trueTo hsane
  have haccounted := hok.accounted hfresh
  obtain ⟨definition, hd, hall, rfl⟩ := cooperativeJobStatus_completed_iff.mp hcompleted
  obtain rfl := Option.some.inj ((definition_of_lookup hjob).symm.trans hd)
  have haccepted := haccounted.accepted j _ hd
  obtain ⟨value, hvaluation, hholds⟩ := exists_valuation htrue haccounted hd hall
  refine ⟨value, hvaluation, fun r hr => means_of_valuation haccepted hvaluation (haccepted.graph.outputs r hr), ?_⟩
  rw [List.flatMap_def, List.flatMap_def]
  refine List.rel_flatten (List.forall₂_map_left_iff.mpr (List.forall₂_map_right_iff.mpr
    (List.forall₂_same.mpr fun r hr => ?_)))
  have hmem := haccepted.graph.outputs r hr
  obtain ⟨status, hstatus⟩ := Option.isSome_iff_exists.mp ((haccounted.sound.domain j r).mpr ⟨_, hd, hmem⟩)
  obtain ⟨outputs, rfl⟩ := hall r status hstatus
  rw [hstatus]
  exact hholds r outputs hstatus (haccounted.sound.output_not_interior hd hr)

/-! ## A job -/

namespace Sample

/-- The hashes of the outputs of `foldJob`. -/
def foldSha : Sha256 := shaOf [
  ([58, 48, 58, 50], "8d6a3ab7458534fa9c0ff0b00eb836ecb5c89b718211d7fcb00de4c2c4e0481d"),
  ([58, 49, 58, 50], "aea777ae1142b23ab981d16a02d4c6d988e97383efc6f2bb3602f4f966a6a10a"),
  ([58, 48, 58, 50, 58, 49, 58, 50], "083f7fd5af3ede14e1715694a6edbec8b184023a7e69d36f417d13e86d21d66f")] (by decide +kernel)

def foldDeployment : Deployment ℚ := { deployment with sha := foldSha }

/-- The agent registers, a client submits the job, and the agent executes its three tasks one by one. -/
def workweek : List (Party × Chance ℚ) :=
  joins ⟨1⟩ 0 ++ asks (.autoSubmit (.ok ()) foldJob) 2 0 1 ++ polls ⟨1⟩ 2 ++ works 2 3 ++ polls ⟨1⟩ 4 ++ works 4 5 ++
    polls ⟨1⟩ 6 ++ works 6 7

/-- What has become of the deployment. -/
def weekend : Site ℚ :=
  (reached foldDeployment (Env.numbered fun _ => 0) (Env.numbered fun _ => 0) 100 100 workweek).shared

theorem Ended.fresh {site : Site ℚ} {blobs : List Bytes} {definition : JobDefinition ℚ} {result : List ObjectId}
    (h : Ended site blobs definition result) : FreshRequests (Env.numbered fun _ => 0) site.log where
  generated := Env.fresh_numbered _
  submitted task htask := by cases h.2.1 _ htask

theorem weekend_ended : Ended weekend [[58, 48, 58, 50, 58, 49, 58, 50], [58, 48, 58, 50], [58, 49, 58, 50]]
    (.logical foldJob) [⟨8⟩] := by decide +kernel

theorem weekend_sane : Sane foldDeployment.sha weekend := sane_of_written weekend_ended.1 (by decide +kernel) (by decide)

end Sample

/-! ## Completed jobs -/

/-- **A completed job comes to what it means.** At every moment of every run: if a job is completed, its roles have one
value each, made of those of their dependencies as the definition says, read as a plain dataflow program over the contents
of the objects it names, and the result is the values of the output roles; however its roles were placed, cut, fused and
reduced, and whatever was delayed, lost or repeated. -/
theorem results_mean (hsane : Sane d.sha (reached d e ids m x events).shared)
    (hfresh : FreshRequests e (reached d e ids m x events).shared.log) {j : JobId} {job : CooperativeJobRecord F}
    {result : List ObjectId}
    (hjob : (reached d e ids m x events).shared.coordinator.fabric.jobs.lookup j = some job)
    (hcompleted : (reached d e ids m x events).shared.coordinator.fabric.cooperativeJobStatus j = some (.completed result)) :
    ∃ value : String → List Bytes,
      Valuation (Makes ((reached d e ids m x events).shared.Contents d) (Set.range d.executor) job.definition)
        {r | r ∈ (jobRoles job.definition).map Prod.fst} value ∧
      (∀ r ∈ jobOutputs job.definition, Means ((reached d e ids m x events).shared.Contents d) (Set.range d.executor)
        job.definition r (value r)) ∧
      List.Forall₂ ((reached d e ids m x events).shared.Contents d) result ((jobOutputs job.definition).flatMap value) :=
  (reached_ok hsane).means hsane hfresh hjob hcompleted

theorem results_mean_weekend : ∃ (value : String → List Bytes) (b : Bytes),
    Valuation (Makes (Sample.weekend.Contents Sample.foldDeployment) (Set.range Sample.foldDeployment.executor)
      (.logical Sample.foldJob)) {r | r ∈ (jobRoles (.logical Sample.foldJob)).map Prod.fst} value ∧ value "fold" = [b] ∧
    Sample.weekend.Contents Sample.foldDeployment ⟨8⟩ b ∧
    Means (Sample.weekend.Contents Sample.foldDeployment) (Set.range Sample.foldDeployment.executor) (.logical Sample.foldJob)
      "fold" [b] := by
  obtain ⟨job, hjob, hdefinition⟩ := Sample.weekend_ended.job
  have hresults := @results_mean _ _ Sample.foldDeployment (Env.numbered fun _ => 0) (Env.numbered fun _ => 0) 100 100
    Sample.workweek
  rw [← Sample.weekend] at hresults
  obtain ⟨value, hvaluation, hmeans, hcontents⟩ :=
    hresults Sample.weekend_sane Sample.weekend_ended.fresh hjob Sample.weekend_ended.completed
  rw [hdefinition] at hvaluation hmeans hcontents
  have houtputs : jobOutputs (.logical Sample.foldJob) = ["fold"] := rfl
  rw [houtputs, List.flatMap_singleton] at hcontents
  have hmean := hmeans "fold" (by rw [houtputs]; exact List.mem_singleton_self _)
  obtain ⟨b, rest, hb, hrest, hvalue⟩ := List.forall₂_cons_left_iff.mp hcontents
  cases hrest
  rw [hvalue] at hmean
  exact ⟨value, b, hvaluation, hvalue, hb, hmean⟩

end Plurifold
