import Plurifold.Fabric.Lease
import Plurifold.Fabric.Objects
import Plurifold.Fabric.Persist
import Plurifold.Fabric.Settle

/-!
# Every call is steps of the ledger

With fresh identifiers, every call on a fabric whose ledger is sound takes the ledger on by steps (`exec_runs`), so
every state of a run is reached by steps from the empty ledger (`trace_reached`). Begins, renewals and retries leave no
trace; a completion whose outputs contradict each other may be refused half-way, and only then is the ledger not strict.
-/

namespace Plurifold

open Lib Attempt

variable {F : Type} {strict : Prop} {L : Ledger F}

/-! ## The empty ledger -/

def Ledger.empty : Ledger F where
  spec _ := none
  progress _ := .working
  binding _ := none
  definition _ := none
  role _ _ := none
  reduction _ _ := none
  planned _ := False

theorem empty_binding {t : TaskId} {b : TaskRoleBinding} : (Ledger.empty : Ledger F).binding t ≠ some b := nofun

theorem sound_empty [F64 F] : Sound strict (Ledger.empty : Ledger F) where
  accepted _ _ h := by cases h
  known _ _ h := absurd h empty_binding
  unique _ _ _ _ h := by
    obtain ⟨b, hb, -⟩ := h
    exact absurd hb empty_binding
  fusedPure _ _ _ _ h := absurd h empty_binding
  reducerPure _ _ _ _ h := absurd h empty_binding
  chain _ _ _ h := absurd h empty_binding
  planned _ h := h.elim
  domain _ _ := ⟨fun h => (by cases h), fun ⟨_, hd, _⟩ => (by cases hd)⟩
  roleOk j r := by
    refine ⟨rfl, fun t ht => ?_⟩
    obtain ⟨b, hb, -⟩ := ht
    exact empty_binding hb
  absent _ _ := rfl
  lost _ _ h := by cases h
  oneOutput _ _ _ _ h := absurd h empty_binding
  reducible _ _ _ h := by cases h

namespace Fabric

variable {s s' : Fabric F} {e : Env} {j : JobId} {r : String} {t : TaskId}

section

variable [F64 F]

theorem ledger_new (m x : UInt64) : (Fabric.new m x : Fabric F).ledger = Ledger.empty := by
  refine Ledger.ext rfl rfl rfl rfl rfl rfl ?_
  funext t
  simp only [ledger, Fabric.new, Ledger.empty, eq_iff_iff, iff_false]
  rintro ⟨j, job, r, selections, hj, -⟩
  simp at hj

/-! ## New jobs -/

theorem ledger_newJob {definition : JobDefinition F} (hn : s.jobs.lookup j = none) (haccepted : definition.Accepted) :
    Fabric.ledger { s with jobs := s.jobs.insert j (newJob definition) } = s.ledger.accept j definition := by
  have hlookup : ∀ j', (s.jobs.insert j (newJob definition)).lookup j' =
      if j' = j then some (newJob definition) else s.jobs.lookup j' := fun j' => Map.lookup_insert_eq ..
  refine Ledger.ext rfl rfl rfl ?_ ?_ ?_ ?_
  · funext j'
    simp only [ledger, hlookup, Ledger.accept_definition]
    split <;> rfl
  · funext j' r
    simp only [ledger, hlookup, Ledger.accept_role]
    by_cases hj : j' = j
    · subst hj
      rw [if_pos rfl, hn]
      by_cases hr : r ∈ (jobRoles definition).map Prod.fst
      · rw [if_pos ⟨rfl, hr⟩]
        obtain ⟨role, hrole, rfl⟩ := List.mem_map.mp hr
        refine Map.lookup_collect ?_ (List.mem_map.mpr ⟨role, hrole, rfl⟩)
        rw [List.map_map]
        exact haccepted.nodup
      · rw [if_neg fun hand => hr hand.2]
        refine Map.lookup_collect_none ?_
        rw [List.map_map]
        exact hr
    · rw [if_neg hj, if_neg fun hand => hj hand.1]
  · funext j' r
    simp only [ledger, hlookup, Ledger.accept_reduction]
    by_cases hj : j' = j
    · subst hj
      rw [if_pos rfl, hn]
      rfl
    · rw [if_neg hj]
  · funext t
    simp only [ledger, hlookup, Ledger.accept_planned, eq_iff_iff]
    constructor
    · rintro ⟨j', job, r, selections, hj', hs, ht⟩
      split at hj'
      · cases hj'
        cases hs
      · exact ⟨j', job, r, selections, hj', hs, ht⟩
    · rintro ⟨j', job, r, selections, hj', hs, ht⟩
      refine ⟨j', job, r, selections, ?_, hs, ht⟩
      rw [if_neg]
      · exact hj'
      · rintro rfl
        rw [hn] at hj'
        cases hj'

/-- A call takes the ledger on by steps; if all jobs are fusion safe, it succeeds or has no effect. -/
structure AllOrNothing {α : Type} (strict : Prop) (ids : Nat → Prop) (s : Fabric F) (res : Except FabricError α)
    (s' : Fabric F) : Prop where
  runs : Runs strict ids s.ledger s'.ledger
  atomic : Safe s'.ledger → (∃ a, res = .ok a) ∨ s' = s

/-- A call that is refused at once. -/
theorem allOrNothing_refused {α : Type} {ids : Nat → Prop} (err : FabricError) :
    AllOrNothing (α := α) strict ids s (.error err) s := ⟨.refl _ _, fun _ => .inr rfl⟩

theorem acceptJob_ends (hsound : Sound strict s.ledger) (he : e.Fresh) (hunused : Unused e.Mints s.ledger)
    {definition : JobDefinition F} (haccepted : definition.Accepted) :
    (acceptJob e j definition).Ends s (AllOrNothing strict e.Mints s) := by
  unfold acceptJob
  refine ends_state_bind.mpr ?_
  cases hj : s.jobs.lookup j with
  | some job => exact ends_fail (allOrNothing_refused _)
  | none =>
    simp only [Option.isSome_none, Bool.false_eq_true, if_false]
    refine ends_update_bind.mpr ?_
    have hledger := ledger_newJob hj haccepted
    have hnone : s.ledger.definition j = none := by
      simp only [ledger, hj, Option.map_none]
    have hruns : Runs strict e.Mints s.ledger
        (Fabric.ledger { s with jobs := s.jobs.insert j (newJob definition) }) := by
      rw [hledger]
      exact .quiet (.accept hnone haccepted) rfl
    have hd : (Fabric.ledger { s with jobs := s.jobs.insert j (newJob definition) }).definition j = some definition := by
      rw [hledger]
      exact if_pos rfl
    refine ends_bind (materializeReadyRoles_ends (hruns.steps.sound hsound) he (fun n hn => ?_) hd)
      (fun _ s' h => ?_) fun err s' h => ⟨hruns.trans h.1, fun hsafe => ?_⟩
    · rw [hledger]
      exact hunused n hn
    · exact ends_pure ⟨hruns.trans h.1, fun _ => .inl ⟨j, rfl⟩⟩
    · obtain ⟨u, hu⟩ := h.2 hsafe
      cases hu

theorem submitCooperative_ends (hsound : Sound strict s.ledger) (he : e.Fresh) (hunused : Unused e.Mints s.ledger)
    (job : CooperativeJobSpec F) : (submitCooperative e job).Ends s (AllOrNothing strict e.Mints s) := by
  unfold submitCooperative
  cases hv : validateCooperativeJob job with
  | error err => exact ends_fail (allOrNothing_refused _)
  | ok u => exact acceptJob_ends hsound he hunused hv

theorem submitLogical_ends (hsound : Sound strict s.ledger) (he : e.Fresh) (hunused : Unused e.Mints s.ledger)
    (job : LogicalJobSpec F) : (submitLogical e job).Ends s (AllOrNothing strict e.Mints s) := by
  unfold submitLogical
  cases hv : validateLogicalJob job with
  | error err => exact ends_fail (allOrNothing_refused _)
  | ok u =>
    unfold Ends
    rw [Except.mapError, lift_ok, pure_bind', state_bind]
    cases validateLogicalJobObjects job s.objects with
    | error err => exact allOrNothing_refused _
    | ok u => exact acceptJob_ends (j := job.id) hsound he hunused (show (JobDefinition.logical job).Accepted from hv)

end

/-! ## Outputs -/

/-- Outputs with the same identifier describe the same object. -/
def Agree (outputs : List ObjectMetadata) : Prop :=
  ∀ a ∈ outputs, ∀ b ∈ outputs, a.id = b.id → sameObjectIdentity a b = true

theorem publishObject_ledger (object : ObjectMetadata) (s : Fabric F) :
    (publishObject object s).2.ledger = s.ledger :=
  publishObject_along (R := fun s s' : Fabric F => s'.ledger = s.ledger) (fun _ _ => rfl) object s

theorem publishAll_ledger (outputs : List ObjectMetadata) (s : Fabric F) :
    (each outputs (fun _ object => publishObject object) s).2.ledger = s.ledger := by
  refine along_each (R := fun s s' : Fabric F => s'.ledger = s.ledger) outputs (fun _ object => ?_) s
  exact publishObject_ledger object

/-- The stored object has the identity of the published one. -/
def Compatible (s : Fabric F) (object : ObjectMetadata) : Prop :=
  ∀ existing, s.objects.lookup object.id = some existing → sameObjectIdentity existing object = true

theorem publishObject_ok {object : ObjectMetadata} (h : Compatible s object) :
    ∃ s', publishObject object s = (.ok (), s') ∧
      ∀ other, Compatible s other → (object.id = other.id → sameObjectIdentity object other = true) →
        Compatible s' other := by
  rcases publishObject_cases object s with ⟨-, existing, hl, hne⟩ | ⟨s', hrun, -, hidentity, hothers⟩
  · exact absurd (sameObjectIdentity_iff.mp (h existing hl)) hne
  · refine ⟨s', hrun, fun other hother hagree stored hstored => ?_⟩
    by_cases hid : other.id = object.id
    · have hsame : stored.identity = object.identity := by
        rw [hid] at hstored
        simpa [Fabric.identityOf, hstored] using hidentity
      rw [sameObjectIdentity_iff]
      exact hsame.trans (sameObjectIdentity_iff.mp (hagree hid.symm))
    · rw [hothers _ hid] at hstored
      exact hother stored hstored

/-- Outputs that fit the stored objects and each other are all published. -/
theorem publishAll_ok : ∀ (outputs : List ObjectMetadata) (i : Nat) (s : Fabric F), Agree outputs →
    (∀ object ∈ outputs, Compatible s object) →
    ∃ s', eachFrom (fun _ object => publishObject object) i outputs s = (.ok (), s')
  | [], _, s, _, _ => ⟨s, rfl⟩
  | object :: outputs, i, s, hagree, hfits => by
    obtain ⟨s₁, hrun, hkeeps⟩ := publishObject_ok (hfits object (List.mem_cons_self ..))
    obtain ⟨s', hrest⟩ := publishAll_ok outputs (i + 1) s₁
      (fun a ha b hb => hagree a (List.mem_cons_of_mem _ ha) b (List.mem_cons_of_mem _ hb))
      fun other hother => hkeeps other (hfits other (List.mem_cons_of_mem _ hother))
        (hagree object (List.mem_cons_self ..) other (List.mem_cons_of_mem _ hother))
    exact ⟨s', by rw [eachFrom, bind_ok hrun]; exact hrest⟩

theorem compatible_of_no_conflict {outputs : List ObjectMetadata} (h : s.conflictingOutput outputs = none)
    {object : ObjectMetadata} (hmem : object ∈ outputs) : Compatible s object := by
  intro existing hexisting
  have hnot := List.find?_eq_none.mp h object hmem
  rw [hexisting] at hnot
  simpa using hnot

/-- **A completion** is refused without effect, or takes the ledger on by steps; with outputs that agree it then fails
only if some job is not fusion safe. -/
theorem completeExecution_ends [F64 F] (hsound : Sound strict s.ledger) (he : e.Fresh) (hunused : Unused e.Mints s.ledger)
    (lease : ExecutionLease) {outputs : List ObjectMetadata}
    (hagree : strict → Agree outputs ∨ (∃ a, (completeExecution e lease outputs s).1 = .ok a) ∨
      (completeExecution e lease outputs s).2 = s) :
    (completeExecution e lease outputs).Ends s fun res s' => Runs strict e.Mints s.ledger s'.ledger ∧
      (Agree outputs → AllOrNothing strict e.Mints s res s') := by
  unfold Ends
  rcases completeExecution_cases e lease outputs s with ⟨err, h⟩ | ⟨current, hc, hone, hconflict, h⟩
  · rw [h]
    exact ⟨.refl _ _, fun _ => allOrNothing_refused _⟩
  obtain ⟨resource, record, -, -, ht, hst, -⟩ := currentLease_ok hc
  have hspec := spec_of_lookup ht
  have hw : s.ledger.progress lease.taskId = .working := by
    rw [progress_of_lookup ht, hst]
    rfl
  have hone' : ∀ j r, s.ledger.binding lease.taskId = some (.reduction j r) → (outputs.map (·.id)).length = 1 := by
    intro j r hb
    rw [List.length_map]
    refine hone ?_
    have hb' : s.taskRoles.lookup lease.taskId = some (.reduction j r) := hb
    rw [hb']
    rfl
  rw [h] at hagree ⊢
  have hset := ledger_setStatus ht (.completed (outputs.map (·.id)))
  have hobjects := s.setStatus_objects lease.taskId (.completed (outputs.map (·.id)))
  generalize s.setStatus lease.taskId (.completed (outputs.map (·.id))) = s₁ at hset hobjects hagree
  have hrun : ∀ s₂, s₂.ledger = s₁.ledger → (completeCooperativeRole (e.sub 0) lease.taskId (outputs.map (·.id))).Ends s₂
      (Outcome strict (e.sub 0).Mints s.ledger) := by
    intro s₂ hs₂
    exact completeCooperativeRole_ends hsound hw (hs₂.trans hset) (he.sub 0) (fun n hn => hunused n hn.of_sub) hspec
      hone'
  have hledger := publishAll_ledger outputs s₁
  change (commitOutputs e lease.taskId outputs).Ends s₁ fun res s' => Runs strict e.Mints s.ledger s'.ledger ∧
    (Agree outputs → AllOrNothing strict e.Mints s res s')
  unfold commitOutputs at hagree ⊢
  cases hpublish : each outputs (fun _ object => publishObject object) s₁ with
  | mk res s₂ =>
    rw [hpublish] at hledger
    cases res with
    | ok u =>
      rw [Ends, bind_ok hpublish]
      obtain ⟨hsteps, hok⟩ := hrun s₂ hledger
      have hruns := hsteps.mono fun n (hn : (e.sub 0).Mints n) => hn.of_sub
      exact ⟨hruns, fun _ => ⟨hruns, fun hsafe => .inl (hok hsafe)⟩⟩
    | error err =>
      -- an output contradicts an earlier one: the task is completed and its role has not heard of it
      have hnot : ¬Agree outputs := by
        intro hagree
        obtain ⟨s', hs'⟩ := publishAll_ok outputs 0 s₁ hagree fun object hobject existing hexisting => by
          rw [hobjects] at hexisting
          exact compatible_of_no_conflict hconflict hobject existing hexisting
        have := hs'.symm.trans hpublish
        cases this
      rw [Ends, bind_error hpublish]
      refine ⟨?_, fun hagree => absurd hagree hnot⟩
      have hstep : Step strict s.ledger s₂.ledger := by
        rw [hledger, hset]
        refine .finish hspec hw hone' (.inr (.inr fun hs => ?_))
        rw [bind_error hpublish] at hagree
        rcases hagree hs with hagree | ⟨a, hok⟩ | hsame
        · exact hnot hagree
        · cases hok
        · have hdone : s₂.ledger.progress lease.taskId = .completed (outputs.map (·.id)) := by
            rw [hledger, hset, Ledger.setProgress_progress, if_pos rfl]
            rfl
          dsimp only at hsame
          rw [hsame, hw] at hdone
          cases hdone
      refine .quiet hstep ?_
      rw [hledger, hset]
      rfl

/-! ## Lost tasks -/

theorem ledger_overwriteRole (s : Fabric F) (j : JobId) (r : String) (status : CooperativeRoleStatus) :
    (s.overwriteRole j r status).ledger = { s.ledger with
      role := fun j' r' =>
        if j' = j ∧ r' = r then (s.ledger.role j' r').map fun _ => status else s.ledger.role j' r' } := by
  cases hj : s.jobs.lookup j with
  | none =>
    have hsame : s.overwriteRole j r status = s := by
      unfold overwriteRole modifyJob Map.modify
      rw [hj]
    rw [hsame]
    refine Ledger.ext rfl rfl rfl rfl ?_ rfl rfl
    funext j' r'
    dsimp only
    split
    · rename_i h
      simp only [ledger, h.1, hj, Option.bind_none, Option.map_none]
    · rfl
  | some job =>
    refine Ledger.ext rfl rfl rfl (definition_modifyJob hj rfl) ?_ (reduction_modifyJob_same hj rfl)
      (planned_modifyJob fun _ => rfl)
    funext j' r'
    rw [overwriteRole, role_modifyJob hj, Map.lookup_modify, ← role_of_lookup hj]
    dsimp only
    by_cases h : j' = j
    · subst h
      rw [if_pos rfl]
      simp only [true_and]
    · rw [if_neg h, if_neg fun hand => h hand.1]

theorem ledger_overwriteRoles (j : JobId) (status : CooperativeRoleStatus) : ∀ (roles : List String) (s : Fabric F),
    (roles.foldl (fun s role => s.overwriteRole j role status) s).ledger = { s.ledger with
      role := fun j' r => if j' = j ∧ r ∈ roles then (s.ledger.role j' r).map fun _ => status else s.ledger.role j' r }
  | [], s => by
    simp only [List.foldl_nil, List.not_mem_nil, and_false, if_false]
  | role :: roles, s => by
    rw [List.foldl_cons, ledger_overwriteRoles j status roles, ledger_overwriteRole]
    refine Ledger.ext rfl rfl rfl rfl ?_ rfl rfl
    funext j' r
    dsimp only
    by_cases hj : j' = j
    · by_cases hr : r = role
      · by_cases hmem : r ∈ roles
        · rw [if_pos ⟨hj, hmem⟩, if_pos ⟨hj, hr⟩, if_pos ⟨hj, hr ▸ List.mem_cons_self ..⟩, Option.map_map]
          rfl
        · rw [if_neg fun h => hmem h.2, if_pos ⟨hj, hr⟩, if_pos ⟨hj, hr ▸ List.mem_cons_self ..⟩]
      · simp only [hj, hr, List.mem_cons, false_or, and_false, if_false]
    · simp only [hj, false_and, if_false]

/-- The roles of a lost task are marked. -/
theorem ledger_markCooperativeRoleUncertain (s : Fabric F) (t : TaskId) :
    (s.markCooperativeRoleUncertain t).ledger = s.ledger.mark t := by
  have one : ∀ {b : TaskRoleBinding}, s.taskRoles.lookup t = some b → ∀ {roles : List String}, b.roles = roles →
      (roles.foldl (fun s role => s.overwriteRole b.job role .uncertain) s).ledger = s.ledger.mark t := by
    intro b hb roles hroles
    rw [ledger_overwriteRoles]
    refine Ledger.ext rfl rfl rfl rfl ?_ rfl rfl
    funext j r
    rw [Ledger.mark_role]
    dsimp only
    have hbound : s.ledger.Bound t j r ↔ j = b.job ∧ r ∈ roles := hroles ▸ bound_iff hb
    by_cases h : s.ledger.Bound t j r
    · rw [if_pos h, if_pos (hbound.mp h)]
    · rw [if_neg h, if_neg fun hand => h (hbound.mpr hand)]
  unfold markCooperativeRoleUncertain
  cases hb : s.taskRoles.lookup t with
  | none =>
    refine Ledger.ext rfl rfl rfl rfl ?_ rfl rfl
    funext j r
    rw [Ledger.mark_role, if_neg]
    rintro ⟨b, hb', -⟩
    exact absurd (hb.symm.trans hb') nofun
  | some b =>
    cases b with
    | single j r => exact one hb rfl
    | shard j r => exact one hb rfl
    | reduction j r => exact one hb rfl
    | fusedChain j roles => exact one hb rfl

end Fabric

/-- The ledger once these tasks have lost their leases and no role has heard of it. -/
@[simps] def Ledger.lose (L : Ledger F) (tasks : List TaskId) : Ledger F :=
  { L with progress := fun t => if t ∈ tasks then .uncertain else L.progress t }

/-- Losing tasks and then telling their roles is losing them one by one. -/
theorem Ledger.mark_lose (L : Ledger F) (t : TaskId) (tasks : List TaskId) :
    (L.lose (t :: tasks)).mark t = ((L.setProgress t .uncertain).mark t).lose tasks := by
  refine Ledger.ext rfl ?_ rfl rfl rfl rfl rfl
  funext t'
  simp only [mark_progress, lose_progress, setProgress_progress, List.mem_cons]
  by_cases ht : t' = t
  · rw [if_pos (.inl ht), if_pos ht, ite_self]
  · simp only [ht, false_or, if_false]

theorem Ledger.lose_steps [F64 F] : ∀ (tasks : List TaskId) (L : Ledger F), tasks.Nodup →
    (∀ t ∈ tasks, L.progress t = .working ∧ ∃ spec, L.spec t = some spec ∧
      spec.effects.automaticallyRetryable = false) →
    Steps strict L (tasks.foldl Ledger.mark (L.lose tasks))
  | [], L, _, _ => by
    have hsame : L.lose [] = L := by
      refine Ledger.ext rfl ?_ rfl rfl rfl rfl rfl
      funext t
      simp only [lose_progress, List.not_mem_nil, if_false]
    rw [List.foldl_nil, hsame]
  | t :: tasks, L, hnodup, hlost => by
    obtain ⟨hnot, hnodup⟩ := List.nodup_cons.mp hnodup
    obtain ⟨hw, spec, hspec, hretry⟩ := hlost t (List.mem_cons_self ..)
    rw [List.foldl_cons, mark_lose]
    refine .head (.lose hspec hretry hw) (lose_steps tasks _ hnodup fun t' ht' => ?_)
    obtain ⟨hw', hspec'⟩ := hlost t' (List.mem_cons_of_mem _ ht')
    refine ⟨?_, hspec'⟩
    rw [mark_progress, setProgress_progress, if_neg]
    · exact hw'
    · rintro rfl
      exact hnot ht'

theorem Ledger.foldl_mark_spec : ∀ (tasks : List TaskId) (L : Ledger F), (tasks.foldl Ledger.mark L).spec = L.spec
  | [], _ => rfl
  | t :: tasks, L => foldl_mark_spec tasks (L.mark t)

namespace Fabric

variable {s s' : Fabric F} {e : Env}

theorem ledger_markAll : ∀ (tasks : List TaskId) (s : Fabric F),
    (tasks.foldl (fun s t => s.markCooperativeRoleUncertain t) s).ledger = tasks.foldl Ledger.mark s.ledger
  | [], _ => rfl
  | t :: tasks, s => by
    rw [List.foldl_cons, List.foldl_cons, ledger_markAll tasks, ledger_markCooperativeRoleUncertain]

/-- The tasks a recovery gives up. -/
def lostTasks (e : Env) (unixMs : UInt64) (s : Fabric F) : List TaskId :=
  (((e.iter s.tasks.pairs).filter fun entry => leaseExpired unixMs entry.2).filter fun entry =>
    !entry.2.spec.effects.automaticallyRetryable).map (·.1)

theorem mem_lostTasks {unixMs : UInt64} {t : TaskId} : t ∈ lostTasks e unixMs s ↔
    ∃ record, s.tasks.lookup t = some record ∧ leaseExpired unixMs record = true ∧
      record.spec.effects.automaticallyRetryable = false := by
  simp only [lostTasks, List.mem_map, List.mem_filter, Env.mem_iter, Bool.not_eq_true']
  constructor
  · rintro ⟨⟨t', record⟩, ⟨⟨hmem, hexpired⟩, hretry⟩, rfl⟩
    exact ⟨record, Map.mem_pairs.mp hmem, hexpired, hretry⟩
  · rintro ⟨record, hl, hexpired, hretry⟩
    exact ⟨(t, record), ⟨⟨Map.mem_pairs.mpr hl, hexpired⟩, hretry⟩, rfl⟩

theorem lostTasks_nodup (e : Env) (unixMs : UInt64) (s : Fabric F) : (lostTasks e unixMs s).Nodup := by
  have hkeys : ((e.iter s.tasks.pairs).map (·.1)).Nodup := by
    refine ((e.iter_perm s.tasks.pairs).map (·.1)).nodup_iff.mpr ?_
    have hpairs : s.tasks.pairs.map (·.1) = s.tasks.keys := by
      rw [Map.pairs, List.map_map]
      rfl
    rw [hpairs]
    exact s.tasks.keys_nodup
  exact hkeys.sublist ((List.filter_sublist.trans List.filter_sublist).map _)

theorem progress_of_expired {unixMs : UInt64} {record : TaskRecord F} (h : leaseExpired unixMs record = true) :
    record.status.progress = .working := by
  unfold leaseExpired at h
  split at h
  · rename_i lease hstatus
    rw [hstatus]
    rfl
  · cases h

/-- A recovery, before the roles hear of it. -/
theorem ledger_reapRecords (e : Env) (unixMs : UInt64) (s : Fabric F) :
    Fabric.ledger { s with tasks := Map.mapVals (fun _ => reapRecord unixMs) s.tasks } =
      s.ledger.lose (lostTasks e unixMs s) := by
  refine Ledger.ext ?_ ?_ rfl rfl rfl rfl rfl
  · funext t
    simp only [ledger, taskSpec, Map.lookup_mapVals, Ledger.lose_spec, Option.map_map]
    refine congrArg (fun f => (s.tasks.lookup t).map f) (funext fun record => ?_)
    simp only [Function.comp_apply, reapRecord]
    split <;> rfl
  · funext t
    simp only [ledger, taskStatus, Map.lookup_mapVals, Ledger.lose_progress]
    cases ht : s.tasks.lookup t with
    | none =>
      rw [if_neg]
      · rfl
      · rw [mem_lostTasks, ht]
        rintro ⟨record, hl, -⟩
        cases hl
    | some record =>
      simp only [Option.map_some, Option.getD_some, reapRecord]
      by_cases hexpired : leaseExpired unixMs record = true
      · rw [if_pos hexpired, progress_of_expired hexpired]
        cases hretry : record.spec.effects.automaticallyRetryable with
        | true =>
          have hkept : t ∉ lostTasks e unixMs s := by
            rw [mem_lostTasks]
            rintro ⟨record', hl, -, hnot⟩
            rw [ht] at hl
            cases hl
            rw [hretry] at hnot
            cases hnot
          rw [if_neg hkept]
          rfl
        | false =>
          rw [if_pos (mem_lostTasks.mpr ⟨record, ht, hexpired, hretry⟩)]
          rfl
      · rw [if_neg hexpired, if_neg]
        rw [mem_lostTasks]
        rintro ⟨record', hl, hexpired', -⟩
        rw [ht] at hl
        cases hl
        exact hexpired hexpired'

theorem reapExpiredExecutionsAt_ledger (e : Env) (unixMs : UInt64) (s : Fabric F) :
    (s.reapExpiredExecutionsAt e unixMs).2.ledger =
      (lostTasks e unixMs s).foldl Ledger.mark (s.ledger.lose (lostTasks e unixMs s)) := by
  rw [← ledger_reapRecords e unixMs s, ← ledger_markAll]
  rfl

theorem reapExpiredExecutionsAt_runs [F64 F] (e : Env) (unixMs : UInt64) (s : Fabric F) {ids : Nat → Prop} :
    Runs strict ids s.ledger (s.reapExpiredExecutionsAt e unixMs).2.ledger := by
  rw [reapExpiredExecutionsAt_ledger]
  refine ⟨Ledger.lose_steps _ _ (lostTasks_nodup e unixMs s) fun t ht => ?_, fun t spec hn hs => ?_⟩
  · obtain ⟨record, hl, hexpired, hretry⟩ := mem_lostTasks.mp ht
    exact ⟨(progress_of_lookup hl).trans (progress_of_expired hexpired), record.spec, spec_of_lookup hl, hretry⟩
  · rw [Ledger.foldl_mark_spec, Ledger.lose_spec, hn] at hs
    cases hs

/-! ## Calls -/

theorem submit_runs [F64 F] (task : TaskSpec F) (s : Fabric F) :
    Runs strict (fun n => task.id.uuid = n) s.ledger (submit task s).2.ledger := by
  rcases submit_cases task s with ⟨err, h⟩ | ⟨-, hn, h⟩
  · rw [h]
    exact .refl _ _
  · rw [h]
    change Runs strict _ s.ledger (s.insertTask task).ledger
    rw [ledger_insertTask hn]
    refine .single (.submit task (lookup_none_iff.mp hn)) fun t spec hnone hs => ?_
    rw [Ledger.add_spec] at hs
    split at hs
    · rename_i h
      rw [h]
    · rw [hnone] at hs
      cases hs

theorem beginExecution_ledger (e : Env) (t : TaskId) (r : ResourceId) (s : Fabric F) :
    (beginExecution e t r s).2.ledger = s.ledger := by
  rcases beginExecution_cases e t r s with ⟨err, h⟩ | ⟨lease, record, resource, h, ht, hp, -⟩
  · rw [h]
  · rw [h]
    exact ledger_setStatus_working ht (hp ▸ rfl) rfl

theorem renewExecution_ledger (e : Env) (lease : ExecutionLease) (s : Fabric F) :
    (renewExecution e lease s).2.ledger = s.ledger := by
  rcases renewExecution_cases e lease s with ⟨err, h, -⟩ | ⟨current, hc, h⟩
  · rw [h]
  · rw [h]
    obtain ⟨resource, record, -, -, ht, hst, -⟩ := currentLease_ok hc
    exact ledger_setStatus_working ht (hst ▸ rfl) rfl

theorem heartbeat_ledger (e : Env) (r : ResourceId) (epoch : UInt64) (s : Fabric F) :
    (heartbeat e r epoch s).2.ledger = s.ledger :=
  heartbeat_along (R := fun s s' : Fabric F => s'.ledger = s.ledger) (fun _ _ => rfl) e r epoch s

theorem addObjectLocation_ledger (o : ObjectId) (r : ResourceId) (s : Fabric F) :
    (addObjectLocation o r s).2.ledger = s.ledger :=
  addObjectLocation_along (R := fun s s' : Fabric F => s'.ledger = s.ledger) (fun _ _ => rfl) o r s

theorem expireResourcesAt_ledger (e : Env) (unixMs : UInt64) (s : Fabric F) :
    (s.expireResourcesAt e unixMs).2.ledger = s.ledger :=
  foldl_keeps Fabric.ledger (fun s id => s.removeResource id) (fun _ _ => rfl) _ s

end Fabric

open Fabric

variable [F64 F]

/-- The call submits a task with this identifier. -/
def Op.Submits : Op F → Nat → Prop
  | .submit task, n => task.id.uuid = n
  | _, _ => False

/-- Outputs that a completion presents agree. -/
def Op.Agrees : Op F → Prop
  | .completeExecution _ outputs => Agree outputs
  | _ => True

/-- The call succeeded or had no effect. -/
def Event.Clean (ev : Event F) : Prop := (∃ reply, ev.reply = .ok reply) ∨ ev.after = ev.before

/-- **Every call** takes a sound ledger on by steps. -/
theorem exec_runs {s : Fabric F} {e : Env} (hsound : Sound strict s.ledger) (he : e.Fresh)
    (hunused : Unused e.Mints s.ledger) {op : Op F} (hagree : strict → op.Agrees ∨ (Event.of e s op).Clean) :
    Runs strict (fun n => e.Mints n ∨ op.Submits n) s.ledger (exec e op s).2.ledger := by
  -- wrapping the reply does not matter
  have wrapped : ∀ {α : Type} {m : FabricM F α} {g : α → Reply}, exec e op = (m >>= fun a => pure (g a)) →
      Runs strict (fun n => e.Mints n ∨ op.Submits n) s.ledger (m s).2.ledger →
      Runs strict (fun n => e.Mints n ∨ op.Submits n) s.ledger (exec e op s).2.ledger := by
    intro α m g hx h
    rw [hx, bind_pure_apply]
    exact h
  have same : ∀ {s' : Fabric F}, s'.ledger = s.ledger →
      Runs strict (fun n => e.Mints n ∨ op.Submits n) s.ledger s'.ledger := fun h => h ▸ .refl _ _
  have minted : ∀ {L' : Ledger F}, Runs strict e.Mints s.ledger L' →
      Runs strict (fun n => e.Mints n ∨ op.Submits n) s.ledger L' := fun h => h.mono fun _ => .inl
  cases op with
  | setTopology topology => exact same rfl
  | upsertLink link => exact same rfl
  | removeLink a b => exact same rfl
  | registerResource descriptor => exact same rfl
  | heartbeat resource epoch =>
    exact wrapped (m := heartbeat e resource epoch) rfl (same (heartbeat_ledger e resource epoch s))
  | unregisterResource resource => exact same rfl
  | expireResourcesAt unixMs => exact same (expireResourcesAt_ledger e unixMs s)
  | publishObject object =>
    exact wrapped (m := publishObject object) (g := fun _ => .unit) rfl (same (publishObject_ledger object s))
  | addObjectLocation object resource =>
    exact wrapped (m := addObjectLocation object resource) (g := fun _ => .unit) rfl
      (same (addObjectLocation_ledger object resource s))
  | submit task => exact wrapped (m := submit task) rfl ((submit_runs task s).mono fun _ => .inr)
  | submitCooperative job =>
    exact wrapped (m := submitCooperative e job) rfl (minted (submitCooperative_ends hsound he hunused job).runs)
  | submitLogical job =>
    exact wrapped (m := submitLogical e job) rfl (minted (submitLogical_ends hsound he hunused job).runs)
  | beginExecution task resource =>
    exact wrapped (m := beginExecution e task resource) rfl (same (beginExecution_ledger e task resource s))
  | renewExecution lease =>
    exact wrapped (m := renewExecution e lease) rfl (same (renewExecution_ledger e lease s))
  | completeExecution lease outputs =>
    have hx := exec_completeExecution e s lease outputs
    have hagree' : strict → Agree outputs ∨ (∃ a, (completeExecution e lease outputs s).1 = .ok a) ∨
        (completeExecution e lease outputs s).2 = s := by
      intro hs
      rcases hagree hs with h | ⟨reply, h⟩ | h
      · exact .inl h
      · simp only [Event.of, hx] at h
        cases hres : (completeExecution e lease outputs s).1 with
        | ok a => exact .inr (.inl ⟨a, rfl⟩)
        | error err => rw [hres] at h; cases h
      · simp only [Event.of, hx] at h
        exact .inr (.inr h)
    exact wrapped (m := completeExecution e lease outputs) (g := fun _ => .unit) rfl
      (minted (completeExecution_ends hsound he hunused lease hagree').1)
  | reapExpiredExecutionsAt unixMs => exact reapExpiredExecutionsAt_runs e unixMs s
  | refreshReadyRoles =>
    exact wrapped (m := refreshReadyRoles e) (g := fun _ => .unit) rfl
      (minted (refreshReadyRoles_ends hsound he hunused).1)

/-! ## Runs -/

/-- Task identifiers are fresh: the fabric never generates one twice, nor one that a client submits. -/
structure FreshTasks (e : Env) (ops : List (Op F)) : Prop where
  generated : e.Fresh
  submitted : ∀ task, .submit task ∈ ops → ¬e.Mints task.id.uuid

/-- The outputs of every completion agree. -/
def OutputsAgree (ops : List (Op F)) : Prop := ∀ lease outputs, .completeExecution lease outputs ∈ ops → Agree outputs

/-- Steps lead to the state, also from every earlier one, and the identifiers still to come are not in it. -/
structure Reached (strict : Prop) (e₀ e : Env) (history : List (Event F)) (s : Fabric F) : Prop where
  steps : Steps strict Ledger.empty s.ledger
  past : ∀ ev ∈ history, Steps strict ev.after.ledger s.ledger
  fresh : e.Fresh
  part : ∀ n, e.Mints n → e₀.Mints n
  unused : Unused e.Mints s.ledger

section Reached

variable {e₀ e : Env} {history : List (Event F)} {s : Fabric F}

theorem Reached.sound (h : Reached strict e₀ e history s) : Sound strict s.ledger := h.steps.sound sound_empty

theorem reached_new (he : e.Fresh) (m x : UInt64) : Reached strict e e [] (Fabric.new m x : Fabric F) := by
  refine ⟨?_, fun _ h => (List.not_mem_nil h).elim, he, fun _ h => h, fun n _ => ?_⟩
  · rw [ledger_new]
  · rw [ledger_new]
    rfl

/-- The call is one that a run with fresh task identifiers makes. -/
def Admissible (strict : Prop) (e₀ : Env) (ev : Event F) : Prop :=
  (∀ n, ev.op.Submits n → ¬e₀.Mints n) ∧ (strict → ev.op.Agrees ∨ ev.Clean)

theorem Reached.call (h : Reached strict e₀ e history s) {op : Op F}
    (hop : Admissible strict e₀ (Event.of (e.sub 0) s op)) :
    Runs strict (fun n => (e.sub 0).Mints n ∨ op.Submits n) s.ledger (Event.of (e.sub 0) s op).after.ledger :=
  exec_runs h.sound (h.fresh.sub 0) (fun n hn => h.unused n hn.of_sub) hop.2

theorem Reached.step (h : Reached strict e₀ e history s) {op : Op F}
    (hop : Admissible strict e₀ (Event.of (e.sub 0) s op)) :
    Reached strict e₀ (e.sub 1) (history ++ [Event.of (e.sub 0) s op]) (Event.of (e.sub 0) s op).after := by
  have hruns := h.call hop
  refine ⟨h.steps.trans hruns.steps, fun ev hev => ?_, h.fresh.sub 1, fun n hn => h.part n hn.of_sub, ?_⟩
  · rcases List.mem_append.mp hev with hev | hev
    · exact (h.past ev hev).trans hruns.steps
    · rw [List.mem_singleton.mp hev]
  · refine hruns.unused (fun n hn => ?_) fun n hn => h.unused n hn.of_sub
    rintro (hn' | hn')
    · exact absurd (h.fresh.sub_inj hn hn') nofun
    · exact hop.1 n hn' (h.part n hn.of_sub)

/-- Steps lead from a reached state to where any calls after it lead. -/
theorem Reached.final_steps : ∀ (later : List (Op F)) {e : Env} {history : List (Event F)} {s : Fabric F},
    Reached strict e₀ e history s → (∀ ev ∈ trace e s later, Admissible strict e₀ ev) →
    Steps strict s.ledger (final e s later).ledger
  | [], _, _, _, _, _ => .refl
  | op :: later, _, _, _, h, hops => by
    have hop := hops _ (List.mem_cons_self ..)
    exact (h.call hop).steps.trans
      ((h.step hop).final_steps later fun ev hmem => hops ev (List.mem_cons_of_mem _ hmem))

theorem Reached.final_append (later : List (Op F)) : ∀ (ops : List (Op F)) {e : Env} {history : List (Event F)}
    {s : Fabric F}, Reached strict e₀ e history s → (∀ ev ∈ trace e s (ops ++ later), Admissible strict e₀ ev) →
    Steps strict (final e s ops).ledger (final e s (ops ++ later)).ledger
  | [], _, _, _, h, hops => h.final_steps later hops
  | op :: ops, _, _, _, h, hops => by
    have hop := hops _ (List.mem_cons_self ..)
    exact (h.step hop).final_append later ops fun ev hmem => hops ev (List.mem_cons_of_mem _ hmem)

end Reached

theorem mem_trace_op {e : Env} {s : Fabric F} {ev : Event F} : ∀ {ops : List (Op F)}, ev ∈ trace e s ops → ev.op ∈ ops
  | op :: ops, h => by
    rcases List.mem_cons.mp h with rfl | h
    · exact List.mem_cons_self ..
    · exact List.mem_cons_of_mem _ (mem_trace_op h)

/-- Every completion of a run has outputs that agree, or it succeeds or has no effect. -/
def AgreesOrClean (e : Env) (s : Fabric F) (ops : List (Op F)) : Prop :=
  ∀ ev ∈ trace e s ops, ev.op.Agrees ∨ ev.Clean

theorem OutputsAgree.agreesOrClean {e : Env} {s : Fabric F} {ops : List (Op F)} (h : OutputsAgree ops) :
    AgreesOrClean e s ops := by
  intro ev hev
  have hmem := mem_trace_op hev
  refine .inl ?_
  generalize ev.op = op at hmem
  cases op with
  | completeExecution lease outputs => exact h lease outputs hmem
  | _ => trivial

theorem FreshTasks.admissible {e : Env} {s : Fabric F} {ops : List (Op F)} (h : FreshTasks e ops)
    (hagree : strict → AgreesOrClean e s ops) : ∀ ev ∈ trace e s ops, Admissible strict e ev := by
  intro ev hev
  have hmem := mem_trace_op hev
  refine ⟨fun n hn => ?_, fun hs => hagree hs ev hev⟩
  generalize ev.op = op at hmem hn
  cases op with
  | submit task => exact hn ▸ h.submitted task hmem
  | _ => cases hn

section Run

variable {e : Env} {m x : UInt64} {ops : List (Op F)} (hfresh : FreshTasks e ops)
  (hagree : strict → AgreesOrClean e (Fabric.new m x) ops)

include hfresh hagree

/-- Every call of a run is made on a state that steps lead to. -/
theorem trace_reached {pre post : List (Event F)} {ev : Event F}
    (h : trace e (Fabric.new m x) ops = pre ++ ev :: post) :
    ∃ e', ev = Event.of (e'.sub 0) ev.before ev.op ∧ Reached strict e e' pre ev.before ∧
      Reached strict e (e'.sub 1) (pre ++ [ev]) ev.after :=
  trace_rule (I := Reached strict e) (C := Admissible strict e)
    (fun _ _ _ _ hI hop => hI.step hop) ops e [] _ pre (reached_new hfresh.generated m x)
    (hfresh.admissible hagree) h

theorem final_reached : ∃ e', Reached strict e e' (trace e (Fabric.new m x) ops) (final e (Fabric.new m x) ops) :=
  final_rule (I := Reached strict e) (C := Admissible strict e)
    (fun _ _ _ _ hI hop => hI.step hop) ops e [] _ (reached_new hfresh.generated m x) (hfresh.admissible hagree)

theorem final_sound : Sound strict (final e (Fabric.new m x) ops).ledger := by
  obtain ⟨e', h⟩ := final_reached hfresh hagree
  exact h.sound

end Run

omit [F64 F] in
/-- Task identifiers are fresh in the world of even identifiers if clients submit odd ones. -/
theorem freshTasks_numbered {now : List Nat → UInt64} {ops : List (Op F)}
    (h : ∀ task, .submit task ∈ ops → task.id.uuid % 2 = 1) : FreshTasks (Env.numbered now) ops :=
  ⟨Env.fresh_numbered now, fun task hmem => Env.not_mints_odd (h task hmem)⟩

/-- The steps from a state of a run to a later one. -/
theorem final_steps {e : Env} {m x : UInt64} {ops later : List (Op F)} (hfresh : FreshTasks e (ops ++ later))
    (hagree : strict → AgreesOrClean e (Fabric.new m x) (ops ++ later)) :
    Steps strict (final e (Fabric.new m x) ops).ledger (final e (Fabric.new m x) (ops ++ later)).ledger :=
  (reached_new hfresh.generated m x).final_append later ops (hfresh.admissible hagree)

end Plurifold
