import Plurifold.Fabric.Unstuck

/-!
# A running job has work that goes on

The dependencies of a job have no cycle, so a job that runs has a role that is not completed while all its dependencies
are. That role does not wait (`Ledger.Awaits`): it is to be placed, or one of its tasks is not completed, or its next
reduction level is to be placed. The last case needs that a placed level always has an unfinished task (`Ledger.Busy`).
-/

namespace Plurifold

open Lib Fabric

variable {F : Type} {s : Fabric F} {j : JobId} {r : String} {t : TaskId} {L L' : Ledger F}

/-! ## Placed levels -/

section

variable [F64 F]

/-- A level that has been placed has an unfinished task. -/
def Ledger.Busy (L : Ledger F) : Prop :=
  ∀ j r active, L.reduction j r = some active → active.items ≠ [] →
    ∃ t ∈ itemTasks active.items, L.progress t = .working

/-- The levels of `L'` are levels of `L` whose unfinished tasks are unfinished. -/
theorem Ledger.Busy.frame (hb : L.Busy) (hsound : Sound True L)
    (h : ∀ j r active, L'.reduction j r = some active → active.items ≠ [] →
      (∃ t ∈ itemTasks active.items, L'.progress t = .working) ∨ (L.reduction j r = some active ∧
        ∀ t, L.binding t = some (.reduction j r) → L.progress t = .working → L'.progress t = .working)) : L'.Busy := by
  intro j r active hactive' hitems
  rcases h j r active hactive' hitems with hdone | ⟨hactive, hkeeps⟩
  · exact hdone
  obtain ⟨t, ht, hw⟩ := hb j r active hactive hitems
  obtain ⟨n, -, hok⟩ := hsound.reducing_of_active hactive
  exact ⟨t, ht, hkeeps t (hok.reducers t ht) hw⟩

theorem Ledger.Busy.same (hb : L.Busy) (hsound : Sound True L) (hreductions : L'.reduction = L.reduction)
    (hkeeps : ∀ j r t, L.binding t = some (.reduction j r) → L.progress t = .working → L'.progress t = .working) :
    L'.Busy := by
  refine hb.frame hsound fun j r active hactive _ => .inr ⟨?_, hkeeps j r⟩
  rw [← hreductions]
  exact hactive

omit [F64 F] in
/-- The reducers of a role go on when a task of another kind or role makes progress. -/
theorem working_of_other {p : Progress} (hb : L.binding t ≠ some (.reduction j r)) {t' : TaskId}
    (hb' : L.binding t' = some (.reduction j r)) (hw : L.progress t' = .working) :
    (L.setProgress t p).progress t' = .working := by
  rw [Ledger.setProgress_progress, if_neg]
  · exact hw
  · rintro rfl
    exact hb hb'

/-- Reducers are pure, hence never lost: a level without all its results has an unfinished task. -/
theorem Sound.exists_working (hsound : Sound True L) {active : ActiveReduction} (hactive : L.reduction j r = some active)
    (hmore : active.items.mapM L.itemResult = none) : ∃ t ∈ itemTasks active.items, L.progress t = .working := by
  by_contra hnone
  push Not at hnone
  refine absurd hmore (mapM_ne_none fun item hitem => ?_)
  cases item with
  | carry o => rfl
  | task t =>
    have ht := mem_itemTasks.mpr hitem
    obtain ⟨n, -, hok⟩ := hsound.reducing_of_active hactive
    have hbind := hok.reducers t ht
    rw [Ledger.itemResult]
    cases hp : L.progress t with
    | working => exact absurd hp (hnone t ht)
    | uncertain =>
      obtain ⟨spec, hspec⟩ := hsound.known t _ hbind
      have hretry := hsound.lost t spec hp hspec
      rw [hsound.reducerPure t j r spec hbind hspec] at hretry
      cases hretry
    | completed outputs =>
      obtain ⟨output, rfl⟩ := List.length_eq_one_iff.mp (hsound.oneOutput t j r outputs hbind hp)
      rfl

theorem Step.busy (hstep : Step True L L') (hsound : Sound True L) (hb : L.Busy) : L'.Busy := by
  have hsound' := hstep.sound hsound
  cases hstep with
  | submit spec hnew => exact hb.same hsound rfl fun _ _ _ _ hw => hw
  | @lose t spec hspec hretry hw =>
    refine hb.same hsound rfl fun j r t' hb' hw' => ?_
    rw [Ledger.mark_progress, Ledger.setProgress_progress, if_neg]
    · exact hw'
    · rintro rfl
      rw [hsound.reducerPure t' j r spec hb' hspec] at hretry
      cases hretry
  | accept hnew haccepted => exact hb.same hsound rfl fun _ _ _ _ hw => hw
  | ready hn => exact hb.same hsound rfl fun _ _ _ _ hw => hw
  | single hl hp => exact hb.same hsound rfl fun _ _ _ _ hw => hw
  | fused hl hrest hchain hnodup hpure hp => exact hb.same hsound rfl fun _ _ _ _ hw => hw
  | sharded hl hsome hshards hp => exact hb.same hsound rfl fun _ _ _ _ hw => hw
  | @level j r active specs items groups hactive hitems hnew hnodup hpure htasks hgroups hfor hsome =>
    refine hb.frame hsound fun j' r' active' hactive' _ => ?_
    rw [Ledger.setRole_reduction, Ledger.setReduction_reduction] at hactive'
    split at hactive'
    · cases hactive'
      obtain ⟨spec, hspec⟩ := List.exists_mem_of_ne_nil specs hsome
      refine .inl ⟨spec.id, ?_, hsound.absent _ (hnew spec hspec)⟩
      rw [htasks]
      exact List.mem_map.mpr ⟨spec, hspec, rfl⟩
    · exact .inr ⟨hactive', fun _ _ hw => hw⟩
  | @reduced j r active hactive hitems hlength =>
    refine hb.frame hsound fun j' r' active' hactive' _ => ?_
    rw [Ledger.setRole_reduction, Ledger.setReduction_reduction] at hactive'
    split at hactive'
    · cases hactive'
    · exact .inr ⟨hactive', fun _ _ hw => hw⟩
  | @finish t spec outputs hspec hw hone hquiet =>
    refine hb.same hsound rfl fun j r t' => working_of_other ?_
    rcases hquiet with hnone | ⟨j', r', hshard, -⟩ | hlax
    · rw [hnone]
      exact nofun
    · rw [hshard]
      exact nofun
    · exact absurd trivial hlax
  | @conclude t j front last outputs hbind hw =>
    refine hb.same hsound rfl fun j r t' => working_of_other ?_
    rcases hbind with ⟨hbind, -⟩ | hbind
    · rw [hbind]
      exact nofun
    · rw [hbind]
      exact nofun
  | shardWaits hbind hw hrole hL' hmore =>
    subst hL'
    exact hb.same hsound rfl fun j r t' => working_of_other (by rw [hbind]; exact nofun)
  | shardsComplete hbind hw hrole hL' hall hd hnone =>
    subst hL'
    exact hb.same hsound rfl fun j r t' => working_of_other (by rw [hbind]; exact nofun)
  | shardsReduce hbind hw hrole hL' hall hd hreduces hmore =>
    subst hL'
    refine hb.frame hsound fun j' r' active' hactive' hitems => ?_
    rw [Ledger.setRole_reduction, Ledger.setReduction_reduction] at hactive'
    split at hactive'
    · cases hactive'
      exact absurd rfl hitems
    · exact .inr ⟨hactive', fun t' => working_of_other (by rw [hbind]; exact nofun)⟩
  | @reducerWaits L₁ t j r active o hbind hw hactive hL' hmore =>
    subst hL'
    refine hb.frame hsound fun j' r' active' hactive' _ => ?_
    by_cases heq : j' = j ∧ r' = r
    · -- the level of the reducer: an item has no result yet
      obtain ⟨rfl, rfl⟩ := heq
      obtain rfl : active = active' := Option.some.inj (hactive.symm.trans hactive')
      exact .inl (hsound'.exists_working hactive' hmore)
    · refine .inr ⟨hactive', fun t' => working_of_other ?_⟩
      rw [hbind]
      rintro ⟨⟩
      exact heq ⟨rfl, rfl⟩
  | @levelComplete L₁ t j r active o inputs hbind hw hactive hL' hnext =>
    subst hL'
    refine hb.frame hsound fun j' r' active' hactive' hitems => ?_
    rw [Ledger.setRole_reduction, Ledger.setReduction_reduction] at hactive'
    split at hactive'
    · cases hactive'
      exact absurd rfl hitems
    · rename_i hne
      refine .inr ⟨hactive', fun t' => working_of_other ?_⟩
      rw [hbind]
      rintro ⟨⟩
      exact hne ⟨rfl, rfl⟩

theorem Steps.busy (hsteps : Steps True L L') (hsound : Sound True L) (hb : L.Busy) : L'.Busy := by
  induction hsteps with
  | refl => exact hb
  | tail hsteps hstep ih => exact hstep.busy (Steps.sound hsteps hsound) ih

end

theorem busy_empty : (Ledger.empty : Ledger F).Busy := fun _ _ _ h => nomatch h

/-! ## Roles in motion -/

/-- The task works for the role and is not completed. -/
def Fabric.Unfinished (s : Fabric F) (t : TaskId) (j : JobId) (r : String) : Prop :=
  s.BoundTo t j r ∧ ∀ outputs, s.taskStatus t ≠ some (.completed outputs)

/-- The role is to be placed, has an unfinished task, or has a reduction level that a refresh retries. -/
inductive InMotion (s : Fabric F) (j : JobId) (job : CooperativeJobRecord F) (r : String) : Prop
  | ready : job.roles.lookup r = some .ready → InMotion s j job r
  | submitted {t : TaskId} : job.roles.lookup r = some (.submitted t) → s.Unfinished t j r → InMotion s j job r
  | sharded {tasks : List TaskId} {completed : Nat} {t : TaskId} :
      job.roles.lookup r = some (.sharded tasks completed) → t ∈ tasks → s.Unfinished t j r → InMotion s j job r
  | reducing {tasks : List TaskId} {completed : Nat} {level : UInt32} {t : TaskId} :
      job.roles.lookup r = some (.reducing tasks completed level) → t ∈ tasks → s.Unfinished t j r → InMotion s j job r
  | due {tasks : List TaskId} {completed : Nat} {level : UInt32} {active : ActiveReduction} :
      job.roles.lookup r = some (.reducing tasks completed level) → job.reductions.lookup r = some active →
      1 < active.inputs.length → active.items = [] → (∀ e, (j, r) ∈ s.pendingReductions e) → InMotion s j job r

theorem unfinished_of_bound (hb : s.ledger.Bound t j r) (hp : ∀ outputs, s.ledger.progress t ≠ .completed outputs) :
    s.Unfinished t j r := ⟨hb, fun outputs h => hp outputs (taskStatus_completed.mp h)⟩

theorem unfinished_of_working (hb : s.ledger.Bound t j r) (hw : s.ledger.progress t = .working) :
    s.Unfinished t j r := unfinished_of_bound hb fun outputs h => by
  rw [hw] at h
  cases h

/-- Some task of a list is not done if not all are. -/
theorem exists_unfinished {tasks : List TaskId} (h : (L.doneOutputs tasks).length < tasks.length) :
    ∃ t ∈ tasks, ∀ outputs, L.progress t ≠ .completed outputs := by
  by_contra hall
  push Not at hall
  refine absurd (List.filterMap_length_eq_length.mpr fun t ht => ?_) h.ne
  obtain ⟨outputs, hp⟩ := hall t ht
  rw [hp]
  rfl

theorem mem_pendingReductions {job : CooperativeJobRecord F} {active : ActiveReduction} (hj : s.jobs.lookup j = some job)
    (hactive : job.reductions.lookup r = some active) (hmore : 1 < active.inputs.length) (hitems : active.items = [])
    (e : Env) : (j, r) ∈ s.pendingReductions e := by
  refine List.mem_flatMap.mpr ⟨(j, job), Env.mem_iter.mpr (Map.mem_pairs.mpr hj), ?_⟩
  refine List.mem_filterMap.mpr ⟨(r, active), Env.mem_iter.mpr (Map.mem_pairs.mpr hactive), ?_⟩
  dsimp only
  rw [if_pos ⟨hmore, by rw [hitems]; rfl⟩]

variable [F64 F]

/-- A role that neither waits nor is finished is in motion. -/
theorem inMotion_of_status (hsound : Sound True s.ledger) (hbusy : s.ledger.Busy) (hdue : s.ledger.Due)
    {job : CooperativeJobRecord F} (hj : s.jobs.lookup j = some job) {status : CooperativeRoleStatus}
    (hr : job.roles.lookup r = some status) (hw : status ≠ .waiting) (hu : status ≠ .uncertain)
    (hc : ∀ outputs, status ≠ .completed outputs) : InMotion s j job r := by
  have hok := hsound.roleOk j r
  rw [role_of_lookup hj, hr] at hok
  cases status with
  | waiting => exact absurd rfl hw
  | ready => exact .ready hr
  | submitted t =>
    have hsubmitted : SubmittedOk True s.ledger j r t := hok
    exact .submitted hr (unfinished_of_working hsubmitted.serves.works.bound (hsubmitted.working trivial))
  | sharded tasks n =>
    have hsharded : ShardedOk True s.ledger j r tasks n := hok
    obtain ⟨hn, hlt⟩ := hsharded.count trivial
    obtain ⟨t, ht, hp⟩ := exists_unfinished (hn ▸ hlt)
    exact .sharded hr ht (unfinished_of_bound (hsharded.shards.bound ht) hp)
  | reducing tasks n level =>
    have hreducing : ReducingOk True s.ledger j r tasks n level := hok
    obtain ⟨active, hactive, -, htasks⟩ := hreducing.reduction
    by_cases hitems : active.items = []
    · have hstored : job.reductions.lookup r = some active := (reduction_of_lookup hj r).symm.trans hactive
      have hmore := hdue j r active hactive
      exact .due hr hstored hmore hitems (mem_pendingReductions hj hstored hmore hitems)
    · obtain ⟨t, ht, hw⟩ := hbusy j r active hactive hitems
      rw [← htasks] at ht
      have hbound : s.ledger.Bound t j r := (bound_one (hreducing.reducers t ht) rfl).mpr ⟨rfl, rfl⟩
      exact .reducing hr ht (unfinished_of_working hbound hw)
  | completed outputs => exact absurd rfl (hc outputs)
  | uncertain => exact absurd rfl hu

/-! ## A role that can move -/

/-- Below an unfinished role of an acyclic graph there is one all of whose dependencies are finished. -/
theorem exists_front {roles : List (String × List String)} (done : String → Prop) {name : String}
    (h : Resolvable roles name) (hn : ¬done name) : ∃ role ∈ roles, ¬done role.1 ∧ ∀ d ∈ role.2, done d := by
  induction h with
  | @intro name dependencies hmem _ ih =>
    by_cases hall : ∀ d ∈ dependencies, done d
    · exact ⟨(name, dependencies), hmem, hn, hall⟩
    · push Not at hall
      obtain ⟨d, hd, hnot⟩ := hall
      exact ih d hd hnot

theorem Sound.inMotion (hsound : Sound True s.ledger) (hbusy : s.ledger.Busy) (hu : s.ledger.Unstuck)
    {job : CooperativeJobRecord F} (hj : s.jobs.lookup j = some job)
    (hnotDone : ∀ outputs, s.cooperativeJobStatus j ≠ some (.completed outputs))
    (hnotLost : s.cooperativeJobStatus j ≠ some .uncertain) : ∃ role ∈ jobRoles job.definition, InMotion s j job role.1 := by
  have hd := definition_of_lookup hj
  have hrole : ∀ r, s.ledger.role j r = job.roles.lookup r := role_of_lookup hj
  have hgraph := (hsound.accepted j _ hd).graph
  -- some role is not completed
  obtain ⟨r, status, hr, hopen⟩ : ∃ r status, s.ledger.role j r = some status ∧ ∀ outputs, status ≠ .completed outputs := by
    by_contra hall
    push Not at hall
    exact hnotDone _ (cooperativeJobStatus_completed_iff.mpr ⟨_, hd, hall, rfl⟩)
  obtain ⟨definition, hd', hmem⟩ := (hsound.domain j r).mp (by rw [hr]; rfl)
  obtain rfl : job.definition = definition := Option.some.inj (hd.symm.trans hd')
  obtain ⟨entry, hentry, rfl⟩ := List.mem_map.mp hmem
  obtain ⟨role, hmem, hnot, hdone⟩ := exists_front (fun r => ∃ outputs, s.ledger.role j r = some (.completed outputs))
    (hgraph.acyclic entry hentry) (by
      rintro ⟨outputs, hc⟩
      exact hopen outputs (Option.some.inj (hr.symm.trans hc)))
  obtain ⟨status, hstatus⟩ := Option.isSome_iff_exists.mp
    ((hsound.domain j role.1).mpr ⟨_, hd, List.mem_map.mpr ⟨role, hmem, rfl⟩⟩)
  refine ⟨role, hmem, inMotion_of_status hsound hbusy hu.due hj ((hrole _).symm.trans hstatus) ?_ ?_ ?_⟩
  · rintro rfl
    obtain ⟨d, hdep, hnotCompleted⟩ := hu.awaits j _ role hd hmem hstatus
    obtain ⟨outputs, hc⟩ := hdone d hdep
    exact hnotCompleted outputs hc
  · rintro rfl
    exact hnotLost (cooperativeJobStatus_uncertain_iff.mpr ⟨role.1, hstatus⟩)
  · rintro outputs rfl
    exact hnot ⟨outputs, hstatus⟩

/-! ## Runs -/

theorem unstuck_new (m x : UInt64) : (Fabric.new m x : Fabric F).ledger.Unstuck := by
  rw [ledger_new]
  exact ⟨fun j definition role hd => (nomatch hd), fun j r active h => (nomatch h)⟩

/-- Every call of the run that stores something succeeds or has no effect. -/
def CleanRun (e : Env) (s : Fabric F) (ops : List (Op F)) : Prop := ∀ ev ∈ trace e s ops, ev.op.Commits → ev.Clean

theorem CleanRun.unstuck {e : Env} {m x : UInt64} {ops : List (Op F)} (h : CleanRun e (Fabric.new m x) ops) :
    (final e (Fabric.new m x) ops).ledger.Unstuck := by
  obtain ⟨_, hu⟩ := final_rule (I := fun _ _ s => s.ledger.Unstuck) (C := fun ev => ev.op.Commits → ev.Clean)
    (fun e _ s op hu hclean => exec_unstuck hu hclean) ops e [] _ (unstuck_new m x) h
  exact hu

theorem CleanRun.agreesOrClean {e : Env} {ops : List (Op F)} (h : CleanRun e s ops) : AgreesOrClean e s ops := by
  intro ev hev
  cases hop : ev.op with
  | completeExecution lease outputs => exact .inr (h ev hev (by rw [hop]; trivial))
  | _ => exact .inl trivial

/-- **No job is silently stuck.** In every state of a run whose submissions and completions each succeed or have no
effect, a role that waits has a dependency that is not completed; with fresh task identifiers, every job that is neither
completed nor uncertain has a role in motion. -/
theorem no_stuck_job (e : Env) (m x : UInt64) (ops : List (Op F)) (hclean : CleanRun e (Fabric.new m x) ops) :
    let s := final e (Fabric.new m x) ops
    (∀ j job, s.jobs.lookup j = some job → ∀ role ∈ jobRoles job.definition, job.roles.lookup role.1 = some .waiting →
      ∃ d ∈ role.2, ∀ outputs, job.roles.lookup d ≠ some (.completed outputs)) ∧
    (FreshTasks e ops → ∀ j job, s.jobs.lookup j = some job →
      (∀ outputs, s.cooperativeJobStatus j ≠ some (.completed outputs)) →
      s.cooperativeJobStatus j ≠ some .uncertain → ∃ role ∈ jobRoles job.definition, InMotion s j job role.1) := by
  intro s
  have hu : s.ledger.Unstuck := hclean.unstuck
  refine ⟨fun j job hj role hrole hw => ?_, fun hfresh j job hj hnotDone hnotLost => ?_⟩
  · obtain ⟨d, hd, hnot⟩ := hu.awaits j _ role (definition_of_lookup hj) hrole ((role_of_lookup hj _).trans hw)
    exact ⟨d, hd, fun outputs hc => hnot outputs ((role_of_lookup hj _).trans hc)⟩
  · obtain ⟨e', hreached⟩ := final_reached hfresh fun _ : True => hclean.agreesOrClean
    exact hreached.sound.inMotion (hreached.steps.busy sound_empty busy_empty) hu hj hnotDone hnotLost

/-- The chain of two roles, its first task completed. -/
theorem no_stuck_job_chain :
    ∃ job, (final (Env.numbered Sample.clock) (Fabric.new 100 100) Sample.chainRun).jobs.lookup ⟨1⟩ = some job ∧
      ∃ role ∈ jobRoles job.definition,
        InMotion (final (Env.numbered Sample.clock) (Fabric.new 100 100) Sample.chainRun) ⟨1⟩ job role.1 := by
  have hclean : CleanRun (Env.numbered Sample.clock) (Fabric.new 100 100) Sample.chainRun := by
    intro ev hev _
    refine .inl ?_
    have hok : ∀ ev ∈ trace (Env.numbered Sample.clock) (Fabric.new 100 100) Sample.chainRun, ev.reply.isOk = true := by
      decide +kernel
    cases hr : ev.reply with
    | ok reply => exact ⟨reply, rfl⟩
    | error err =>
      have := hok ev hev
      rw [hr] at this
      cases this
  have hsome : ((final (Env.numbered Sample.clock) (Fabric.new 100 100) Sample.chainRun).jobs.lookup ⟨1⟩).isSome = true := by
    decide +kernel
  obtain ⟨job, hj⟩ := Option.isSome_iff_exists.mp hsome
  have hstatus : (final (Env.numbered Sample.clock) (Fabric.new 100 100) Sample.chainRun).cooperativeJobStatus ⟨1⟩ =
      some .running := by decide +kernel
  refine ⟨job, hj, (no_stuck_job _ _ _ _ hclean).2 Sample.freshTasks_chainRun ⟨1⟩ job hj ?_ ?_⟩
  · rw [hstatus]
    exact nofun
  · rw [hstatus]
    exact nofun

end Plurifold
