import Plurifold.Fabric.Materialize

/-!
# Completions, step by step

What follows the completion of a task on a sound ledger: its role is settled, a level of a reduction may end and the
next one be placed, and roles that became ready are started. The whole of it is steps of the ledger
(`completeCooperativeRole_ends`), and so is a refresh (`refreshReadyRoles_ends`).

Between the two writes to a reduction and its role (`advance_reduction_level`) the fabric is not sound; the role is
overwritten whatever happens next, so the ledger is read with the role already where the step puts it.
-/

namespace Plurifold

open Lib Attempt

variable {F : Type} {strict : Prop} {L L' : Ledger F} {j : JobId} {r : String}

theorem Runs.single [F64 F] {ids : Nat → Prop} (hstep : Step strict L L')
    (hnew : ∀ t spec, L.spec t = none → L'.spec t = some spec → ids t.uuid) : Runs strict ids L L' :=
  ⟨.single hstep, hnew⟩

/-- A step without new tasks. -/
theorem Runs.quiet [F64 F] {ids : Nat → Prop} (hstep : Step strict L L') (hspec : L'.spec = L.spec) : Runs strict ids L L' :=
  .single hstep fun t spec hn hs => by rw [hspec, hn] at hs; cases hs

theorem logicalRoleReduction_valid [F64 F] {definition : JobDefinition F} (h : definition.Accepted)
    {reduction : RoleReductionSpec F} (hr : logicalRoleReduction definition r = some reduction) :
    ReductionValid reduction := by
  cases definition with
  | cooperative spec => cases hr
  | logical spec =>
    obtain ⟨role, hfind, hred⟩ := Option.bind_eq_some_iff.mp hr
    have hmem := List.mem_of_find?_eq_some hfind
    exact (((validateLogicalJob_ok h).2 role hmem).reduction reduction hred).1

namespace Fabric

variable {s s' : Fabric F} {e : Env} {active : ActiveReduction}

/-! ## Loops whose rounds draw from their own worlds -/

theorem each_outcome [F64 F] {α : Type} {f : Nat → α → FabricM F Unit} {P : α → Ledger F → Prop} (he : e.Fresh)
    (hround : ∀ i a s, Sound strict s.ledger → Unused (e.sub i).Mints s.ledger → P a s.ledger →
      (f i a).Ends s fun r s' => Outcome strict (e.sub i).Mints s.ledger r s' ∧ ∀ b, P b s.ledger → P b s'.ledger) :
    ∀ (l : List α) (i : Nat) (s : Fabric F), Sound strict s.ledger → (∀ k, i ≤ k → Unused (e.sub k).Mints s.ledger) →
    (∀ a ∈ l, P a s.ledger) → (eachFrom f i l).Ends s (Outcome strict e.Mints s.ledger)
  | [], i, s, _, _, _ => ends_pure ⟨.refl _ _, fun _ => ⟨(), rfl⟩⟩
  | a :: l, i, s, hsound, hunused, hP => by
    have hids : ∀ n, (e.sub i).Mints n → e.Mints n := fun n hn => hn.of_sub
    refine ends_bind (hround i a s hsound (hunused i (Nat.le_refl i)) (hP a (List.mem_cons_self ..)))
      (fun _ s' ho => ?_) fun err s' ho => ?_
    · have hunused' : ∀ k, i + 1 ≤ k → Unused (e.sub k).Mints s'.ledger := by
        intro k hk
        refine ho.1.1.unused (fun n hn hused => ?_) (hunused k (by omega))
        have := he.sub_inj hn hused
        omega
      have hnext := each_outcome he hround l (i + 1) s' (ho.1.1.steps.sound hsound) hunused'
        fun b hb => ho.2 b (hP b (List.mem_cons_of_mem _ hb))
      refine ends_mono hnext fun r s'' h' => ?_
      exact ⟨(ho.1.1.mono hids).trans h'.1, h'.2⟩
    · refine ⟨ho.1.1.mono hids, fun hsafe => ?_⟩
      obtain ⟨a, ha⟩ := ho.1.2 hsafe
      cases ha

/-! ## Levels of a reduction -/

/-- The task of an item. -/
def readyTask : ReadyReductionItem F → Option (TaskSpec F)
  | .carry _ => none
  | .reduce selected => some selected.task

theorem itemTasks_map (items : List (ReadyReductionItem F)) :
    itemTasks (items.map reductionItem) = (items.filterMap readyTask).map (·.id) := by
  induction items with
  | nil => rfl
  | cons item items ih =>
    cases item with
    | carry o => exact ih
    | reduce selected => exact congrArg (selected.task.id :: ·) ih

section Level

variable {reduction : RoleReductionSpec F} {inputs : List ObjectId} {items : List (ReadyReductionItem F)}
  {groups : List (List ObjectId)} (h : LevelOf e reduction inputs items groups)

include h

theorem level_task {task : TaskSpec F} (ht : task ∈ items.filterMap readyTask) :
    ∃ group i, MadeFrom (e.sub i) reduction.task group task ∧ task.shard = none := by
  obtain ⟨item, hmem, hitem⟩ := List.mem_filterMap.mp ht
  obtain ⟨entry, -, hof⟩ := forall₂_mem_right h.each hmem
  cases item with
  | carry o => cases hitem
  | reduce selected =>
    cases hitem
    exact ⟨entry.1, entry.2, hof.1, hof.2⟩

theorem level_nodup (he : e.Fresh) : ((items.filterMap readyTask).map (·.id)).Nodup := by
  have hall : ∀ (entries : List (List ObjectId × Nat)) (items : List (ReadyReductionItem F)),
      (entries.map Prod.snd).Nodup →
      List.Forall₂ (fun entry item => ItemOf (e.sub entry.2) reduction entry.1 item) entries items →
      ((items.filterMap readyTask).map (·.id)).Nodup ∧
        ∀ task ∈ items.filterMap readyTask, ∃ k ∈ entries.map Prod.snd, (e.sub k).Mints task.id.uuid := by
    intro entries items hnodup heach
    induction heach with
    | nil => exact ⟨List.nodup_nil, fun _ hmem => (List.not_mem_nil hmem).elim⟩
    | @cons entry item entries items hof hrest ih =>
      obtain ⟨hentry, hnodup⟩ := List.nodup_cons.mp hnodup
      obtain ⟨ih, hminted⟩ := ih hnodup
      have hlater : ∀ task ∈ items.filterMap readyTask,
          ∃ k ∈ (entry :: entries).map Prod.snd, (e.sub k).Mints task.id.uuid := by
        intro task htask
        obtain ⟨k, hk, hm⟩ := hminted task htask
        exact ⟨k, List.mem_cons_of_mem _ hk, hm⟩
      cases item with
      | carry o => exact ⟨ih, hlater⟩
      | reduce selected =>
        rw [List.filterMap_cons_some (show readyTask (.reduce selected) = some selected.task from rfl)]
        refine ⟨List.nodup_cons.mpr ⟨fun hmem => ?_, ih⟩, fun task htask => ?_⟩
        · obtain ⟨task, htask, hid⟩ := List.mem_map.mp hmem
          obtain ⟨k, hk, hm⟩ := hminted task htask
          have hid' : task.id = selected.task.id := hid
          have : k = entry.2 := he.sub_inj (hid' ▸ hm) hof.1.minted
          exact hentry (this ▸ hk)
        · rcases List.mem_cons.mp htask with rfl | htask
          · exact ⟨entry.2, List.mem_cons_self .., hof.1.minted⟩
          · exact hlater task htask
  refine (hall groups.zipIdx items ?_ h.each).1
  rw [List.zipIdx_map_snd]
  exact List.nodup_range'

theorem level_nonempty : items.filterMap readyTask ≠ [] := by
  obtain ⟨group, hgroup, htwo⟩ := h.progress
  have hmem : group ∈ groups.zipIdx.map Prod.fst := by rw [List.zipIdx_map_fst]; exact hgroup
  obtain ⟨entry, hentry, rfl⟩ := List.mem_map.mp hmem
  obtain ⟨item, hitem, hof⟩ := forall₂_mem_right h.each.flip hentry
  cases item with
  | carry o =>
    have : entry.1 = [o] := hof
    rw [this] at htwo
    exact absurd htwo (Nat.lt_irrefl 1)
  | reduce selected =>
    intro hnil
    have : selected.task ∈ items.filterMap readyTask := List.mem_filterMap.mpr ⟨_, hitem, rfl⟩
    rw [hnil] at this
    cases this

theorem level_items (hinputs : reduction.task.inputs = []) :
    List.Forall₂ (ItemFor (items.filterMap readyTask)) groups (items.map reductionItem) := by
  have hall : List.Forall₂ (fun entry item => ItemFor (items.filterMap readyTask) entry.1 (reductionItem item))
      groups.zipIdx items := by
    refine forall₂_imp_mem h.each fun entry _ item hmem hof => ?_
    cases item with
    | carry o => exact hof
    | reduce selected =>
      refine ⟨selected.task, List.mem_filterMap.mpr ⟨_, hmem, rfl⟩, rfl, ?_⟩
      rw [hof.1.inputs, hinputs, List.nil_append]
  have hgroups : groups.zipIdx.map Prod.fst = groups := List.zipIdx_map_fst 0 groups
  rw [← hgroups, List.forall₂_map_left_iff, List.forall₂_map_right_iff]
  exact hall

end Level

/-- A reduction keeps its inputs until its level is complete. -/
def KeepsInputs (L L' : Ledger F) : Prop :=
  ∀ j r active, L.reduction j r = some active →
    ∃ active', L'.reduction j r = some active' ∧ active'.inputs = active.inputs

/-- The role of a reduction whose next level is due. -/
def atLevel (L : Ledger F) (j : JobId) (r : String) (active : ActiveReduction) : Ledger F :=
  L.setRole j r (.reducing [] 0 active.level)

theorem lookup_setReduction {job : CooperativeJobRecord F} (hj : s.jobs.lookup j = some job)
    (reduction : ActiveReduction) :
    (s.setReduction j r reduction).jobs.lookup j =
      some { job with reductions := job.reductions.insert r reduction } := by
  rw [setReduction, modifyJob_lookup, if_pos rfl, hj]
  rfl

section ReductionLevel

variable [F64 F] (hsound : Sound strict (atLevel s.ledger j r active)) (he : e.Fresh) (hunused : Unused e.Mints s.ledger)
  (hactive : s.ledger.reduction j r = some active) (hitems : active.items = [])

include hsound he hunused hactive hitems

/-- A level that needs reducing is placed, or waits for resources. -/
theorem placeLevel_ends (hmore : 1 < active.inputs.length) :
    (materializeReductionLevel e j r).Ends s fun res s' =>
      Outcome strict e.Mints (atLevel s.ledger j r active) res s' ∧ KeepsInputs s.ledger s'.ledger := by
  obtain ⟨job, hj, hred⟩ := lookup_of_reduction hactive
  obtain ⟨definition, hd, hreduces⟩ := hsound.reducible j r active hactive
  obtain ⟨job', hj', rfl⟩ := lookup_of_definition (s := s) hd
  obtain rfl : job = job' := Option.some.inj (hj.symm.trans hj')
  obtain ⟨reduction, hreduction⟩ := Option.isSome_iff_exists.mp hreduces
  have hvalid := logicalRoleReduction_valid (hsound.accepted j _ hd) hreduction
  have hkeeps : KeepsInputs s.ledger s.ledger := fun _ _ active h => ⟨active, h, rfl⟩
  unfold materializeReductionLevel
  refine ends_state_bind.mpr ?_
  simp only [hj, okOr_some, pure_bind', hreduction, hred, hitems, List.isEmpty_nil, Bool.not_true, Bool.false_eq_true,
    if_false]
  rw [if_neg (by omega)]
  split
  · refine ⟨outcome_of_ok (m := update (setRole j r (.reducing [] 0 active.level))) (s := s) rfl ?_, ?_⟩
    · rw [ledger_setRole hj]
      exact .refl _ _
    · show KeepsInputs s.ledger (s.setRole j r (.reducing [] 0 active.level)).ledger
      rw [ledger_setRole hj]
      exact hkeeps
  · rename_i selected hsel
    obtain ⟨groups, hlevel⟩ := selectReductionLevel_spec hmore hsel
    have hminted : ∀ task ∈ selected.filterMap readyTask, e.Mints task.id.uuid := by
      intro task htask
      obtain ⟨group, i, hmade, -⟩ := level_task hlevel htask
      exact hmade.minted.of_sub.of_sub
    obtain ⟨s₁, hrun, hledger, hjobs⟩ := submitAll (f := fun _ item => match item with
        | .carry _ => pure ()
        | .reduce selected => do
          let _ ← submit selected.task
          update (bindTask selected.task.id (.reduction j r))) readyTask (.reduction j r)
      (fun i item s => by cases item <;> rfl) selected 0 s
      (fun task htask => by
        obtain ⟨group, i, hmade, hshard⟩ := level_task hlevel htask
        exact validateTask_plain hshard hmade.pipeline)
      (fun task htask => hunused _ (hminted task htask)) (level_nodup hlevel (he.sub 1))
    have hj₁ : s₁.jobs.lookup j = some job := by rw [hjobs]; exact hj
    have htasks : (itemTasks (selected.map reductionItem)).isEmpty = false := by
      rw [itemTasks_map, List.isEmpty_eq_false_iff, Ne, List.map_eq_nil_iff]
      exact level_nonempty hlevel
    have hrun' : submitReducers j r selected s = (.ok (), s₁) := hrun
    unfold Ends
    rw [bind_ok hrun']
    simp only [htasks, Bool.false_eq_true, if_false, update_bind, update_apply]
    have hfinal : (setRole j r (.reducing (itemTasks (selected.map reductionItem)) 0 active.level)
        (setReduction j r { active with items := selected.map reductionItem } s₁)).ledger =
        (((atLevel s.ledger j r active).addAll (selected.filterMap readyTask) (.reduction j r)).setReduction j r
          (some { active with items := selected.map reductionItem })).setRole j r
            (.reducing ((selected.filterMap readyTask).map (·.id)) 0 active.level) := by
      rw [ledger_setRole (lookup_setReduction hj₁ _), ledger_setReduction hj₁, hledger, itemTasks_map]
      refine Ledger.ext rfl rfl rfl rfl ?_ rfl rfl
      funext j' r'
      simp only [atLevel, Ledger.setRole_role, Ledger.setReduction_role, Ledger.addAll_role]
      split <;> rfl
    refine ⟨⟨?_, fun _ => ⟨(), rfl⟩⟩, ?_⟩
    · rw [hfinal]
      refine .single (.level hactive hitems (fun task htask => hunused _ (hminted task htask))
        (level_nodup hlevel (he.sub 1)) (fun task htask => ?_) (itemTasks_map _) hlevel.inputs
        (level_items hlevel hvalid.inputs) (level_nonempty hlevel)) fun t spec hn hs => ?_
      · obtain ⟨group, i, hmade, -⟩ := level_task hlevel htask
        rw [hmade.effects]
        exact hvalid.effects
      · exact addAll_new (b := .reduction j r) hminted hn hs
    · rw [hfinal]
      intro j' r' active' hactive'
      rw [Ledger.setRole_reduction, Ledger.setReduction_reduction]
      split
      · rename_i heq
        obtain ⟨rfl, rfl⟩ := heq
        rw [hactive] at hactive'
        cases hactive'
        exact ⟨_, rfl, rfl⟩
      · exact ⟨active', hactive', rfl⟩

theorem materializeReductionLevel_ends :
    (materializeReductionLevel e j r).Ends s (Outcome strict e.Mints (atLevel s.ledger j r active)) := by
  by_cases hmore : 1 < active.inputs.length
  · exact ends_mono (placeLevel_ends hsound he hunused hactive hitems hmore) fun _ _ h => h.1
  obtain ⟨job, hj, hred⟩ := lookup_of_reduction hactive
  obtain ⟨definition, hd, hreduces⟩ := hsound.reducible j r active hactive
  obtain ⟨job', hj', rfl⟩ := lookup_of_definition (s := s) hd
  obtain rfl : job = job' := Option.some.inj (hj.symm.trans hj')
  obtain ⟨reduction, hreduction⟩ := Option.isSome_iff_exists.mp hreduces
  unfold materializeReductionLevel
  refine ends_state_bind.mpr ?_
  simp only [hj, okOr_some, pure_bind', hreduction, hred, hitems, List.isEmpty_nil, Bool.not_true, Bool.false_eq_true,
    if_false]
  rw [if_pos (by omega)]
  refine ends_update_bind.mpr (ends_update_bind.mpr ?_)
  have hj₁ : (s.removeReduction j r).jobs.lookup j = some { job with reductions := job.reductions.erase r } := by
    rw [removeReduction, modifyJob_lookup, if_pos rfl, hj]
    rfl
  have hledger : (setRole j r (.completed active.inputs) (s.removeReduction j r)).ledger =
      ((atLevel s.ledger j r active).setReduction j r none).setRole j r (.completed active.inputs) := by
    rw [ledger_setRole hj₁, ledger_removeReduction hj]
    refine Ledger.ext rfl rfl rfl rfl ?_ rfl rfl
    funext j' r'
    simp only [atLevel, Ledger.setRole_role, Ledger.setReduction_role]
    split <;> rfl
  have hruns : Runs strict e.Mints (atLevel s.ledger j r active)
      (setRole j r (.completed active.inputs) (s.removeReduction j r)).ledger := by
    rw [hledger]
    exact .quiet (.reduced hactive hitems (by omega)) rfl
  refine ends_mono (materializeReadyRoles_ends (hruns.steps.sound hsound) (he.sub 0) (fun n hn => ?_)
    (hruns.steps.definition hd)) fun res s' h => ?_
  · rw [hledger]
    exact hunused n hn.of_sub
  · exact ⟨hruns.trans (h.1.mono fun n hn => hn.of_sub), h.2⟩

end ReductionLevel

/-! ## Refresh -/

theorem atLevel_eq (hrole : s.ledger.role j r = some (.reducing [] 0 active.level)) :
    atLevel s.ledger j r active = s.ledger := by
  refine Ledger.ext rfl rfl rfl rfl ?_ rfl rfl
  funext j' r'
  rw [atLevel, Ledger.setRole_role]
  split
  · rename_i heq
    rw [heq.1, heq.2, hrole]
  · rfl

variable [F64 F]

/-- A level that was put off is placed, or put off again. -/
theorem refreshReduction_ends (hsound : Sound strict s.ledger) (he : e.Fresh) (hunused : Unused e.Mints s.ledger)
    (hactive : s.ledger.reduction j r = some active) (hmore : 1 < active.inputs.length) :
    (materializeReductionLevel e j r).Ends s fun res s' =>
      Outcome strict e.Mints s.ledger res s' ∧ KeepsInputs s.ledger s'.ledger := by
  obtain ⟨n, hrole, hok⟩ := hsound.reducing_of_active hactive
  by_cases hitems : active.items = []
  · have hlevel : s.ledger.role j r = some (.reducing [] 0 active.level) := by
      have hn : n = 0 := hok.none (by rw [hitems]; rfl)
      rw [hrole, hitems, hn]
      rfl
    have hsame := atLevel_eq hlevel
    have := placeLevel_ends (hsame.symm ▸ hsound) he hunused hactive hitems hmore
    rwa [hsame] at this
  · obtain ⟨job, hj, hred⟩ := lookup_of_reduction hactive
    obtain ⟨definition, hd, hreduces⟩ := hsound.reducible j r active hactive
    obtain ⟨job', hj', rfl⟩ := lookup_of_definition hd
    obtain rfl : job = job' := Option.some.inj (hj.symm.trans hj')
    obtain ⟨reduction, hreduction⟩ := Option.isSome_iff_exists.mp hreduces
    unfold materializeReductionLevel
    refine ends_state_bind.mpr ?_
    simp only [hj, okOr_some, pure_bind', hreduction, hred]
    rw [if_pos (by simpa using hitems)]
    exact ends_pure ⟨⟨.refl _ _, fun _ => ⟨(), rfl⟩⟩, fun _ _ active h => ⟨active, h, rfl⟩⟩

theorem refreshReductions_ends (hsound : Sound strict s.ledger) (he : e.Fresh) (hunused : Unused e.Mints s.ledger) :
    (refreshReductions e).Ends s (Outcome strict e.Mints s.ledger) := by
  have hdue : ∀ entry ∈ s.pendingReductions (e.sub 0), ∃ active,
      s.ledger.reduction entry.1 entry.2 = some active ∧ 1 < active.inputs.length := by
    rintro ⟨j, r⟩ hmem
    obtain ⟨⟨j', job⟩, hjob, hmem⟩ := List.mem_flatMap.mp hmem
    obtain ⟨⟨r', active⟩, hactive, hentry⟩ := List.mem_filterMap.mp hmem
    dsimp only at hentry
    split at hentry
    · rename_i hcond
      cases hentry
      refine ⟨active, ?_, hcond.1⟩
      rw [reduction_of_lookup (Map.mem_pairs.mp (Env.mem_iter.mp hjob))]
      exact Map.mem_pairs.mp (Env.mem_iter.mp hactive)
    · cases hentry
  refine ends_state_bind.mpr ?_
  have hrounds := each_outcome (P := fun (entry : JobId × String) L => ∃ active,
      L.reduction entry.1 entry.2 = some active ∧ 1 < active.inputs.length) (he.sub 1)
    (f := fun i entry => materializeReductionLevel ((e.sub 1).sub i) entry.1 entry.2)
    (fun i entry s (hsound : Sound strict s.ledger) hunused hP => by
      obtain ⟨active, hactive, hmore⟩ := hP
      refine ends_mono (refreshReduction_ends hsound ((he.sub 1).sub i) hunused hactive hmore) fun res s' h => ?_
      refine ⟨h.1, fun other hother => ?_⟩
      obtain ⟨active, hactive, hmore⟩ := hother
      obtain ⟨active', hactive', hinputs⟩ := h.2 _ _ active hactive
      exact ⟨active', hactive', hinputs ▸ hmore⟩)
    (s.pendingReductions (e.sub 0)) 0 s hsound (fun k _ n hn => hunused n hn.of_sub.of_sub) hdue
  exact ends_mono hrounds fun res s' h => ⟨h.1.mono fun n hn => hn.of_sub, h.2⟩

/-- **A refresh** is steps of the ledger and succeeds if all jobs are fusion safe. -/
theorem refreshReadyRoles_ends (hsound : Sound strict s.ledger) (he : e.Fresh) (hunused : Unused e.Mints s.ledger) :
    (refreshReadyRoles e).Ends s (Outcome strict e.Mints s.ledger) := by
  refine outcome_bind (refreshReductions_ends hsound (he.sub 0) fun n hn => hunused n hn.of_sub)
    (fun n hn => hn.of_sub) (fun n (hn : (e.sub 2).Mints n) => hn.of_sub) fun _ s' hruns => ?_
  refine ends_state_bind.mpr ?_
  refine each_outcome (P := fun j L => ∃ definition, L.definition j = some definition) (he.sub 2)
    (fun i j s hsound hunused hP => ?_) _ 0 s' (hruns.steps.sound hsound) (fun k _ => ?_) fun j hj => ?_
  · obtain ⟨definition, hd⟩ := hP
    refine ends_mono (materializeReadyRoles_ends hsound ((he.sub 2).sub i) hunused hd) fun res s' h => ?_
    refine ⟨h, fun j hj => ?_⟩
    obtain ⟨definition, hd⟩ := hj
    exact ⟨definition, h.1.steps.definition hd⟩
  · refine hruns.unused (fun n hn hused => ?_) fun n hn => hunused n hn.of_sub.of_sub
    exact absurd (he.sub_inj hn.of_sub hused) (by decide)
  · obtain ⟨job, hjob⟩ := Map.mem_keys.mp (Env.mem_iter.mp hj)
    exact ⟨job.definition, definition_of_lookup hjob⟩

/-! ## Completion -/

omit [F64 F] in
/-- The role of a working task exists. -/
theorem requireRole_ok {status : CooperativeRoleStatus} (h : s.ledger.role j r = some status) (error : FabricError)
    (s' : Fabric F) : requireRole s j r error s' = (.ok (), s') := by
  obtain ⟨job, hj, hr⟩ := lookup_of_role h
  unfold requireRole
  rw [hj, okOr_some, pure_bind', hr, okOr_some, pure_bind']
  rfl

omit [F64 F] in
/-- The loop that completes the interior roles of a chain. -/
theorem completeInterior (error : String → FabricError) : ∀ (roles : List String) (i : Nat) (s : Fabric F),
    (∀ r ∈ roles, (s.ledger.role j r).isSome = true) → ∃ s', eachFrom (fun _ role => do
      let s ← state
      requireRole s j role (error role)
      update (setRole j role (.completed []))) i roles s = (.ok (), s') ∧
      s'.ledger = s.ledger.setRoles j roles fun _ => .completed []
  | [], i, s, _ => by
    refine ⟨s, rfl, Ledger.ext rfl rfl rfl rfl ?_ rfl rfl⟩
    funext j' r
    rw [Ledger.setRoles_role, if_neg (by simp)]
  | r :: roles, i, s, h => by
    obtain ⟨status, hstatus⟩ := Option.isSome_iff_exists.mp (h r (List.mem_cons_self ..))
    obtain ⟨job, hj, -⟩ := lookup_of_role hstatus
    have hledger := ledger_setRole (r := r) hj (.completed [])
    obtain ⟨s', hrun, hledger'⟩ := completeInterior error roles (i + 1) (s.setRole j r (.completed []))
      (fun r' hr' => by
        rw [hledger, Ledger.setRole_role]
        split
        · rfl
        · exact h r' (List.mem_cons_of_mem _ hr'))
    refine ⟨s', ?_, ?_⟩
    · have hround : (state >>= fun s => requireRole s j r (error r) >>= fun _ => update (setRole j r (.completed []))) s =
          (.ok (), s.setRole j r (.completed [])) := by
        rw [state_bind, bind_ok (requireRole_ok hstatus _ _)]
        rfl
      rw [eachFrom, bind_ok hround]
      exact hrun
    · rw [hledger', hledger]
      refine Ledger.ext rfl rfl rfl rfl ?_ rfl rfl
      funext j' r'
      simp only [Ledger.setRoles_role, Ledger.setRole_role, List.mem_cons]
      by_cases hr : r' = r
      · by_cases hj' : j' = j <;> simp only [hj', hr, and_self, true_or, if_true, false_and, if_false, ite_self]
      · simp only [hr, and_false, if_false, false_or]

section Complete

variable {t : TaskId} {outputs : List ObjectId} (hsound : Sound strict L) (hw : L.progress t = .working)
  (hs : s.ledger = L.setProgress t (.completed outputs)) (he : e.Fresh) (hunused : Unused e.Mints L)

include hsound hw hs he hunused

omit hw hs in
/-- After the step that settles the role of a task, the roles that became ready are started. -/
theorem materialize_after (hstep : Step strict L s'.ledger) (hspec : s'.ledger.spec = L.spec)
    {definition : JobDefinition F} (hd : L.definition j = some definition) :
    (materializeReadyRoles e j).Ends s' (Outcome strict e.Mints L) := by
  have hruns : Runs strict e.Mints L s'.ledger := .quiet hstep hspec
  refine ends_mono (materializeReadyRoles_ends (hstep.sound hsound) he (fun n hn => ?_) (hstep.definition hd))
    fun res s'' h => ⟨hruns.trans h.1, h.2⟩
  rw [hspec]
  exact hunused n hn

omit hw hs he hunused in
theorem definition_of_bound {b : TaskRoleBinding} (hb : L.binding t = some b) (hr : r ∈ b.roles) :
    ∃ definition, L.definition b.job = some definition := by
  have hbound : L.Bound t b.job r := ⟨b, hb, rfl, hr⟩
  have hsome : (L.role b.job r).isSome = true := by
    rw [Option.isSome_iff_ne_none]
    intro hnone
    have hok := hsound.roleOk b.job r
    rw [hnone] at hok
    exact hok.unbound t hbound
  obtain ⟨definition, hd, -⟩ := (hsound.domain b.job r).mp hsome
  exact ⟨definition, hd⟩

theorem completeSingle_ends (hb : L.binding t = some (.single j r)) :
    (completeSingle e j r outputs).Ends s (Outcome strict e.Mints L) := by
  obtain ⟨hrole, -⟩ := hsound.submitted (.inl hb) hw
  have hrole' : s.ledger.role j r = some (.submitted t) := by rw [hs]; exact hrole
  obtain ⟨job, hj, -⟩ := lookup_of_role hrole'
  obtain ⟨definition, hd⟩ := definition_of_bound hsound hb (List.mem_singleton_self r)
  have hledger : (s.setRole j r (.completed outputs)).ledger = (L.setProgress t (.completed outputs)).setRoles j
      ([] ++ [r]) fun r' => if r' = r then .completed outputs else .completed [] := by
    rw [ledger_setRole hj, hs]
    refine Ledger.ext rfl rfl rfl rfl ?_ rfl rfl
    funext j' r'
    simp only [Ledger.setRole_role, Ledger.setRoles_role, List.nil_append, List.mem_singleton]
    split
    · rename_i heq
      rw [if_pos heq.2]
    · rfl
  refine ends_state_bind.mpr ?_
  rw [Ends, bind_ok (requireRole_ok hrole' _ s), update_bind]
  refine materialize_after hsound he hunused ?_ ?_ hd
  · rw [hledger]
    exact .conclude (.inl ⟨hb, rfl⟩) hw
  · rw [hledger]
    rfl

theorem completeFusedChain_ends {names : List String} (hb : L.binding t = some (.fusedChain j names)) :
    (completeFusedChain e j names outputs).Ends s (Outcome strict e.Mints L) := by
  obtain ⟨htwo, -, definition, hd, -⟩ := hsound.chain t j names hb
  have hsubmitted : ∀ r ∈ names, s.ledger.role j r = some (.submitted t) := by
    intro r hr
    rw [hs]
    exact (hsound.submitted (.inr ⟨names, hb, hr⟩) hw).1
  obtain ⟨front, last, rfl⟩ : ∃ front last, names = front ++ [last] := by
    rcases List.eq_nil_or_concat names with rfl | ⟨front, last, rfl⟩
    · exact absurd htwo (by decide)
    · exact ⟨front, last, List.concat_eq_append⟩
  have hlast := hsubmitted last (by simp)
  obtain ⟨job, hj, -⟩ := lookup_of_role hlast
  obtain ⟨s₁, hrun, hledger⟩ := completeInterior (j := j)
    (fun role => .invalidLogicalJob s!"runtime state is missing fused role {role}") front 0 s
    fun r hr => by rw [hsubmitted r (by simp [hr])]; rfl
  have hlast₁ : ∃ status, s₁.ledger.role j last = some status := by
    rw [hledger, Ledger.setRoles_role]
    split
    · exact ⟨_, rfl⟩
    · exact ⟨_, hlast⟩
  obtain ⟨status, hlast₁⟩ := hlast₁
  obtain ⟨job₁, hj₁, -⟩ := lookup_of_role hlast₁
  have hfinal : (s₁.setRole j last (.completed outputs)).ledger = (L.setProgress t (.completed outputs)).setRoles j
      (front ++ [last]) fun r => if r = last then .completed outputs else .completed [] := by
    rw [ledger_setRole hj₁, hledger, hs]
    refine Ledger.ext rfl rfl rfl rfl ?_ rfl rfl
    funext j' r'
    simp only [Ledger.setRole_role, Ledger.setRoles_role, List.mem_append, List.mem_singleton]
    by_cases hr : r' = last
    · by_cases hj' : j' = j <;> simp [hj', hr]
    · simp only [hr, and_false, if_false, or_false]
  unfold completeFusedChain
  refine ends_state_bind.mpr ?_
  rw [hj, okOr_some, pure_bind', List.getLast?_concat]
  dsimp only
  rw [List.dropLast_concat]
  rw [Ends, bind_ok (show each front _ s = _ from hrun), state_bind, bind_ok (requireRole_ok hlast₁ _ s₁), update_bind]
  refine materialize_after hsound he hunused ?_ ?_ hd
  · rw [hfinal]
    exact .conclude (.inr hb) hw
  · rw [hfinal]
    rfl

omit hw in
theorem startRoleReduction_ends {job : CooperativeJobRecord F} (hj : s.jobs.lookup j = some job)
    {inputs : List ObjectId} (hstep : Step strict L
      ((s.ledger.setReduction j r (some ⟨0, inputs, []⟩)).setRole j r (.reducing [] 0 0))) :
    (startRoleReduction e j r inputs).Ends s (Outcome strict e.Mints L) := by
  have hspecs : s.ledger.spec = L.spec := by rw [hs]; rfl
  refine ends_state_bind.mpr ?_
  rw [hj, okOr_some, pure_bind']
  refine ends_update_bind.mpr (ends_update_bind.mpr ?_)
  have hledger : (setRole j r (.reducing [] 0 0) (setReduction j r ⟨0, inputs, []⟩ s)).ledger =
      (s.ledger.setReduction j r (some ⟨0, inputs, []⟩)).setRole j r (.reducing [] 0 0) := by
    rw [ledger_setRole (lookup_setReduction hj _), ledger_setReduction hj]
  rw [← hledger] at hstep
  generalize setRole j r (.reducing [] 0 0) (setReduction j r ⟨0, inputs, []⟩ s) = next at hledger hstep ⊢
  have hsame : atLevel next.ledger j r ⟨0, inputs, []⟩ = next.ledger :=
    atLevel_eq (by rw [hledger]; exact if_pos ⟨rfl, rfl⟩)
  have hruns : Runs strict e.Mints L next.ledger := .quiet hstep (by rw [hledger]; exact hspecs)
  have hsound' : Sound strict (atLevel next.ledger j r ⟨0, inputs, []⟩) := hsame.symm ▸ hstep.sound hsound
  have hlevel := materializeReductionLevel_ends (s := next) hsound' he
    (fun n hn => by rw [hledger]; exact hspecs ▸ hunused n hn) (by rw [hledger]; exact if_pos ⟨rfl, rfl⟩) rfl
  rw [hsame] at hlevel
  exact ends_mono hlevel fun res s' h => ⟨hruns.trans h.1, h.2⟩

theorem completeShard_ends (hb : L.binding t = some (.shard j r)) :
    (completeShard e j r).Ends s (Outcome strict e.Mints L) := by
  obtain ⟨spec, hspec⟩ := hsound.known t _ hb
  obtain ⟨definition, hd⟩ := definition_of_bound hsound hb (List.mem_singleton_self r)
  unfold completeShard
  refine ends_state_bind.mpr ?_
  rcases hsound.sharded hb hw with ⟨tasks, n, hrole, -, -⟩ | ⟨hrole, -⟩
  · have hrole' : s.ledger.role j r = some (.sharded tasks n) := by rw [hs]; exact hrole
    obtain ⟨job, hj, -⟩ := lookup_of_role hrole'
    have hjob : job.definition = definition := by
      have hd' : s.ledger.definition j = some definition := by rw [hs]; exact hd
      rw [definition_of_lookup hj] at hd'
      exact Option.some.inj hd'
    have hdone := s.doneOutputs_eq tasks
    rw [show (s.jobs.lookup j).bind (·.roles.lookup r) = some (.sharded tasks n) from hrole']
    dsimp only
    rw [hj, okOr_some, pure_bind', hdone, hjob]
    split
    · rename_i hcond
      obtain ⟨hall, hreduces, hmore⟩ := hcond
      -- all shards are complete: their outputs are reduced
      exact startRoleReduction_ends hsound hs he hunused hj
        (.shardsReduce hb hw hrole hs hall hd hreduces hmore)
    · rename_i hcond
      refine ends_update_bind.mpr ?_
      refine materialize_after hsound he hunused ?_ (by rw [ledger_setRole hj, hs]; rfl) hd
      rw [ledger_setRole hj]
      split
      · rename_i hall
        refine .shardsComplete hb hw hrole hs hall hd ?_
        by_cases hreduces : (logicalRoleReduction definition r).isSome = true
        · right
          by_contra hmore
          exact hcond ⟨hall, hreduces, by omega⟩
        · left
          simpa using hreduces
      · rename_i hall
        exact .shardWaits hb hw hrole hs hall
  · have hrole' : s.ledger.role j r = some .uncertain := by rw [hs]; exact hrole
    rw [show (s.jobs.lookup j).bind (·.roles.lookup r) = some .uncertain from hrole']
    refine ends_pure ⟨.quiet ?_ (by rw [hs]; rfl), fun _ => ⟨(), rfl⟩⟩
    rw [hs]
    refine .finish hspec hw (fun j' r' hred => ?_) (.inr (.inl ⟨j, r, hb, hrole⟩))
    rw [hb] at hred
    cases hred

omit [F64 F] in
omit hsound hw hs he hunused in
/-- The loop over the items of a level counts the completed tasks and collects the results once all are there. -/
theorem levelProgress_eq (s : Fabric F) (r : String) : ∀ (items : List ReductionItem) (progress : LevelProgress),
    (∀ t ∈ itemTasks items, ∀ outputs, s.ledger.progress t = .completed outputs → outputs.length = 1) →
    ∃ result, s.levelProgress r items progress = .ok result ∧
      result.completed = progress.completed + (s.ledger.doneOutputs (itemTasks items)).length ∧
      match s.ledger.nextInputs items with
      | some inputs => result.allComplete = progress.allComplete ∧ result.nextInputs = progress.nextInputs ++ inputs
      | none => result.allComplete = false
  | [], progress, _ => ⟨progress, rfl, rfl, rfl, (List.append_nil _).symm⟩
  | .carry o :: rest, progress, hone => by
    obtain ⟨result, hresult, hcount, hnext⟩ := levelProgress_eq s r rest
      { progress with nextInputs := progress.nextInputs ++ [o] } hone
    refine ⟨result, by rw [levelProgress]; exact hresult, hcount, ?_⟩
    rw [Ledger.nextInputs, List.mapM_cons, Ledger.itemResult]
    unfold Ledger.nextInputs at hnext
    cases hrest : rest.mapM s.ledger.itemResult with
    | none =>
      rw [hrest] at hnext
      exact hnext
    | some inputs =>
      rw [hrest] at hnext
      refine ⟨hnext.1, hnext.2.trans ?_⟩
      simp
  | .task t :: rest, progress, hone => by
    have hone' : ∀ u ∈ itemTasks rest, ∀ outputs, s.ledger.progress u = .completed outputs → outputs.length = 1 :=
      fun u hu => hone u (List.mem_cons_of_mem _ hu)
    have htasks : itemTasks (.task t :: rest) = t :: itemTasks rest := rfl
    rw [levelProgress]
    cases hp : s.ledger.progress t with
    | completed outputs =>
      obtain ⟨o, rfl⟩ := List.length_eq_one_iff.mp (hone t (List.mem_cons_self ..) outputs hp)
      obtain ⟨result, hresult, hcount, hnext⟩ := levelProgress_eq s r rest
        { progress with nextInputs := progress.nextInputs ++ [o], completed := progress.completed + 1 } hone'
      refine ⟨result, by rw [taskStatus_completed.mpr hp]; exact hresult, ?_, ?_⟩
      · have hlength : (s.ledger.doneOutputs (t :: itemTasks rest)).length =
            (s.ledger.doneOutputs (itemTasks rest)).length + 1 := by
          rw [Ledger.doneOutputs, List.filterMap_cons_some (by rw [hp]; rfl)]
          rfl
        rw [hcount, htasks, hlength]
        dsimp only
        omega
      · rw [Ledger.nextInputs, List.mapM_cons, Ledger.itemResult, hp]
        unfold Ledger.nextInputs at hnext
        cases hrest : rest.mapM s.ledger.itemResult with
        | none =>
          rw [hrest] at hnext
          exact hnext
        | some inputs =>
          rw [hrest] at hnext
          refine ⟨hnext.1, hnext.2.trans ?_⟩
          simp
    | working | uncertain =>
      have hnot : ∀ outputs, s.taskStatus t ≠ some (.completed outputs) := by
        intro outputs hdone
        rw [taskStatus_completed, hp] at hdone
        cases hdone
      obtain ⟨result, hresult, hcount, hnext⟩ := levelProgress_eq s r rest { progress with allComplete := false } hone'
      refine ⟨result, ?_, ?_, ?_⟩
      · split
        · rename_i hdone
          exact absurd hdone (hnot _)
        · rename_i hdone
          exact absurd hdone (hnot _)
        · exact hresult
      · rw [htasks, Ledger.doneOutputs, List.filterMap_cons_none (by rw [hp]; rfl)]
        exact hcount
      · have hnone : s.ledger.nextInputs (.task t :: rest) = none := by
          rw [Ledger.nextInputs, List.mapM_cons, Ledger.itemResult, hp]
          rfl
        rw [hnone]
        split at hnext
        · exact hnext.1
        · exact hnext

theorem advanceReductionLevel_ends (hb : L.binding t = some (.reduction j r)) (hone : outputs.length = 1) :
    (advanceReductionLevel e j r).Ends s (Outcome strict e.Mints L) := by
  obtain ⟨o, rfl⟩ := List.length_eq_one_iff.mp hone
  obtain ⟨active, n, hactive, hrole, -, hok⟩ := hsound.reducing hb hw
  have hspecs : s.ledger.spec = L.spec := by rw [hs]; rfl
  have hactive' : s.ledger.reduction j r = some active := by rw [hs]; exact hactive
  obtain ⟨job, hj, hred⟩ := lookup_of_reduction hactive'
  have honeOutput : ∀ t' ∈ itemTasks active.items, ∀ outputs, s.ledger.progress t' = .completed outputs →
      outputs.length = 1 := by
    intro t' ht' outputs hdone
    rw [hs, Ledger.setProgress_progress] at hdone
    split at hdone
    · cases hdone
      rfl
    · exact hsound.oneOutput t' j r outputs (hok.reducers t' ht') hdone
  obtain ⟨result, hresult, hcount, hnext⟩ := levelProgress_eq s r active.items ⟨[], 0, true⟩ honeOutput
  rw [Nat.zero_add] at hcount
  unfold advanceReductionLevel
  refine ends_state_bind.mpr ?_
  rw [hj, okOr_some, pure_bind', hred, okOr_some, pure_bind', hresult, lift_ok, pure_bind']
  cases hinputs : s.ledger.nextInputs active.items with
  | none =>
    rw [hinputs] at hnext
    rw [hnext]
    refine outcome_of_ok (m := update _) (s := s) rfl (.quiet ?_ ?_)
    · rw [ledger_setRole hj, hcount]
      exact .reducerWaits hb hw hactive hs hinputs
    · rw [ledger_setRole hj, hs]
      rfl
  | some inputs =>
    rw [hinputs] at hnext
    obtain ⟨hall, hnextInputs⟩ := hnext
    rw [List.nil_append] at hnextInputs
    rw [hall, hnextInputs]
    refine ends_update_bind.mpr ?_
    -- the role still shows the level that ended; what follows overwrites it
    have hledger : (s.setReduction j r ⟨active.level + 1, inputs, []⟩).ledger =
        s.ledger.setReduction j r (some ⟨active.level + 1, inputs, []⟩) := ledger_setReduction hj _
    have hstep : Step strict L (atLevel (s.setReduction j r ⟨active.level + 1, inputs, []⟩).ledger j r
        ⟨active.level + 1, inputs, []⟩) := by
      rw [atLevel, hledger]
      exact .levelComplete hb hw hactive hs hinputs
    have hruns : Runs strict e.Mints L (atLevel (s.setReduction j r ⟨active.level + 1, inputs, []⟩).ledger j r
        ⟨active.level + 1, inputs, []⟩) := by
      refine .quiet hstep ?_
      rw [atLevel, hledger]
      exact hspecs
    have hlevel := materializeReductionLevel_ends (s := s.setReduction j r ⟨active.level + 1, inputs, []⟩)
      (hstep.sound hsound) he
      (fun n hn => by rw [hledger]; exact hspecs ▸ hunused n hn) (by rw [hledger]; exact if_pos ⟨rfl, rfl⟩) rfl
    exact ends_mono hlevel fun res s' h => ⟨hruns.trans h.1, h.2⟩

/-- **What follows a completion.** -/
theorem completeCooperativeRole_ends {spec : TaskSpec F} (hspec : L.spec t = some spec)
    (hone : ∀ j r, L.binding t = some (.reduction j r) → outputs.length = 1) :
    (completeCooperativeRole e t outputs).Ends s (Outcome strict e.Mints L) := by
  have hbinding : s.taskRoles.lookup t = L.binding t := by
    show s.ledger.binding t = _
    rw [hs]
    rfl
  unfold completeCooperativeRole
  refine ends_state_bind.mpr ?_
  rw [hbinding]
  cases hb : L.binding t with
  | none =>
    refine ends_pure ⟨.quiet ?_ (by rw [hs]; rfl), fun _ => ⟨(), rfl⟩⟩
    rw [hs]
    exact .finish hspec hw hone (.inl hb)
  | some b =>
    cases b with
    | single j r => exact completeSingle_ends hsound hw hs he hunused hb
    | fusedChain j names => exact completeFusedChain_ends hsound hw hs he hunused hb
    | shard j r => exact completeShard_ends hsound hw hs he hunused hb
    | reduction j r =>
      dsimp only
      rw [if_neg (not_not.mpr (hone j r hb))]
      exact advanceReductionLevel_ends hsound hw hs he hunused hb (hone j r hb)

end Complete

end Fabric

end Plurifold
