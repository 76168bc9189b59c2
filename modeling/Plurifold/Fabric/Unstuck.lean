import Plurifold.Fabric.Atomic

/-!
# No job is silently stuck

A role waits only as long as one of its dependencies is not completed (`Ledger.Awaits`). Roles are completed along four
paths: by a single task, by a fused chain, by the last shard, and by the last level of a reduction. Each ends with a
materialization of the job, which tries every role whose dependencies are complete (`materializeReadyRoles_awaits`).
Everything else only launches: it completes no role and sets none back to waiting (`Launched`).
-/

namespace Plurifold

open Lib Attempt Fabric

variable {F : Type} {s s' : Fabric F} {e : Env} {j : JobId} {r : String} {L L' L'' : Ledger F}

/-! ## Launching -/

/-- No role was completed or set back to waiting, and reductions have the inputs they had. -/
structure Launched (L L' : Ledger F) : Prop where
  definition : L'.definition = L.definition
  waiting : ∀ j r, L'.role j r = some .waiting → L.role j r = some .waiting
  completed : ∀ j r outputs, L'.role j r = some (.completed outputs) → L.role j r = some (.completed outputs)
  inputs : ∀ j r active', L'.reduction j r = some active' →
    ∃ active, L.reduction j r = some active ∧ active.inputs = active'.inputs

theorem Launched.refl (L : Ledger F) : Launched L L :=
  ⟨rfl, fun _ _ h => h, fun _ _ _ h => h, fun _ _ active h => ⟨active, h, rfl⟩⟩

theorem Launched.trans (h : Launched L L') (h' : Launched L' L'') : Launched L L'' := by
  refine ⟨h'.definition.trans h.definition, fun j r hw => h.waiting j r (h'.waiting j r hw),
    fun j r outputs hc => h.completed j r outputs (h'.completed j r outputs hc), fun j r active'' hactive => ?_⟩
  obtain ⟨active', hactive', hinputs'⟩ := h'.inputs j r active'' hactive
  obtain ⟨active, hactive, hinputs⟩ := h.inputs j r active' hactive'
  exact ⟨active, hactive, hinputs.trans hinputs'⟩

/-- What changes neither definitions nor roles nor reductions. -/
theorem launched_of_eq (hd : L'.definition = L.definition) (hr : L'.role = L.role) (ha : L'.reduction = L.reduction) :
    Launched L L' := by
  refine ⟨hd, fun j r h => ?_, fun j r outputs h => ?_, fun j r active h => ?_⟩
  · rwa [hr] at h
  · rwa [hr] at h
  · exact ⟨active, ha ▸ h, rfl⟩

/-- `Launched`, of the ledgers of two states. -/
def Launches (s s' : Fabric F) : Prop := Launched s.ledger s'.ledger

instance : IsPreorder (Fabric F) Launches where
  refl s := .refl s.ledger
  trans _ _ _ hab hbc := hab.trans hbc

theorem modifyJob_of_none {f : CooperativeJobRecord F → CooperativeJobRecord F} (h : s.jobs.lookup j = none) :
    s.modifyJob j f = s := by
  unfold modifyJob Map.modify
  rw [h]

/-- Only the role that is written changes. -/
theorem role_setRole {status status' : CooperativeRoleStatus} {j' : JobId} {r' : String}
    (h : (s.setRole j r status).ledger.role j' r' = some status') :
    (j' = j ∧ r' = r ∧ status' = status) ∨ s.ledger.role j' r' = some status' := by
  cases hj : s.jobs.lookup j with
  | none =>
    rw [setRole, modifyJob_of_none hj] at h
    exact .inr h
  | some job =>
    rw [ledger_setRole hj, Ledger.setRole_role] at h
    split at h
    · rename_i heq
      exact .inl ⟨heq.1, heq.2, (Option.some.inj h).symm⟩
    · exact .inr h

theorem reduction_setRole (status : CooperativeRoleStatus) :
    (s.setRole j r status).ledger.reduction = s.ledger.reduction := by
  cases hj : s.jobs.lookup j with
  | none => rw [setRole, modifyJob_of_none hj]
  | some job =>
    rw [ledger_setRole hj]
    rfl

theorem definition_setRole (status : CooperativeRoleStatus) :
    (s.setRole j r status).ledger.definition = s.ledger.definition := by
  cases hj : s.jobs.lookup j with
  | none => rw [setRole, modifyJob_of_none hj]
  | some job =>
    rw [ledger_setRole hj]
    rfl

theorem launches_setRole {status : CooperativeRoleStatus} (hs : launched status = true) :
    Launches s (s.setRole j r status) := by
  refine ⟨definition_setRole status, fun j' r' h => ?_, fun j' r' outputs h => ?_, fun j' r' active h => ?_⟩
  · rcases role_setRole h with ⟨-, -, rfl⟩ | h
    · cases hs
    · exact h
  · rcases role_setRole h with ⟨-, -, rfl⟩ | h
    · cases hs
    · exact h
  · rw [reduction_setRole] at h
    exact ⟨active, h, rfl⟩

theorem launches_setSelection (selection : RoleSelection F) : Launches s (s.setSelection j r selection) := by
  cases hj : s.jobs.lookup j with
  | none =>
    rw [setSelection, modifyJob_of_none hj]
    exact refl_of Launches s
  | some job =>
    obtain ⟨planned, hledger, -⟩ := ledger_setSelection (r := r) hj selection
    rw [Launches, hledger]
    exact launched_of_eq rfl rfl rfl

theorem keptByLaunch_launches : KeptByLaunch (Launches (F := F)) where
  submit task := submit_along task fun _ _ => launched_of_eq rfl rfl rfl
  bind _ _ _ := launched_of_eq rfl rfl rfl
  role _ _ _ _ hs := launches_setRole hs
  selection _ _ selection _ := launches_setSelection selection

theorem materializeReadyRoles_launches [F64 F] (e : Env) (j : JobId) : (materializeReadyRoles (F := F) e j).Along Launches :=
  materializeReadyRoles_along (keptByLaunch_launches.of_job j) (namesJob_true j) e

/-! ## Roles that have been tried -/

/-- The role does not wait. -/
def Tried (j : JobId) (r : String) (s : Fabric F) : Prop := s.ledger.role j r ≠ some .waiting

theorem Tried.mono (h : Tried j r s) (hl : Launches s s') : Tried j r s' := fun hw => h (hl.waiting j r hw)

theorem tried_setRole {status : CooperativeRoleStatus} (hs : status ≠ .waiting) : Tried j r (s.setRole j r status) := by
  intro hw
  cases hj : s.jobs.lookup j with
  | none =>
    rw [setRole, modifyJob_of_none hj] at hw
    obtain ⟨job, hjob, -⟩ := lookup_of_role hw
    rw [hj] at hjob
    cases hjob
  | some job =>
    rw [ledger_setRole hj, Ledger.setRole_role, if_pos ⟨rfl, rfl⟩] at hw
    exact hs (Option.some.inj hw)

/-- The role has been tried if the computation succeeded. -/
def TriedIfOk (j : JobId) (r : String) {α : Type} (res : Except FabricError α) (s' : Fabric F) : Prop :=
  (∃ a, res = .ok a) → Tried j r s'

theorem tried_along {α : Type} {m : FabricM F α} (hm : m.Along Launches) (h : Tried j r s) :
    m.Ends s (TriedIfOk j r) := fun _ => h.mono (hm s)

/-- Once the role has been written, what follows may launch more. -/
theorem tried_setRole_bind {α : Type} {status : CooperativeRoleStatus} (hs : status ≠ .waiting)
    {f : Unit → FabricM F α} (hf : (f ()).Along Launches) :
    (update (setRole j r status) >>= f).Ends s (TriedIfOk j r) := ends_update_bind.mpr (tried_along hf (tried_setRole hs))

theorem tried_bind {α β : Type} {m : FabricM F α} {f : α → FabricM F β}
    (hf : ∀ a s', (f a).Ends s' (TriedIfOk j r)) : (m >>= f).Ends s (TriedIfOk j r) := by
  refine ends_bind (P := fun _ _ => True) trivial (fun a s' _ => hf a s') fun err s' _ h => ?_
  obtain ⟨b, hb⟩ := h
  cases hb

theorem submitSingle_tried (task : TaskSpec F) (selection : Option (RoleSelection F)) :
    (submitSingle j r task selection).Ends s (TriedIfOk j r) := by
  refine tried_bind fun _ s' => tried_bind fun _ s' => tried_setRole_bind (by nofun) ?_
  cases selection with
  | none => exact along_pure _
  | some selection => exact along_update fun s => launches_setSelection selection

theorem submitShards_tried (selected : List (ReadyShardSelection F)) :
    (submitShards j r selected).Ends s (TriedIfOk j r) :=
  tried_bind fun _ s' => tried_setRole_bind (by nofun) (along_update fun s => launches_setSelection _)

theorem submitFused_tried [F64 F] {role : LogicalRoleSpec F} {rest : List (LogicalRoleSpec F)} {inputs : List ObjectId}
    {context : FusionContext F} {selected : ReadyFusionSelection F}
    (h : selectReadyFusion e (role :: rest) inputs context = some selected) :
    (submitFused j (role :: rest) selected).Ends s (TriedIfOk j role.name) := by
  obtain ⟨implementations, hof⟩ := selectReadyFusion_spec h
  have htwo := hof.two
  have hnames := hof.names
  obtain ⟨first, others, hsome⟩ : ∃ first others, selected.implementations = first :: others := by
    rw [hnames]
    match implementations, htwo with
    | first :: rest, _ => exact ⟨_, _, rfl⟩
  refine tried_bind fun _ s' => tried_bind fun _ s' => ?_
  simp only [hsome, List.length_cons, List.take_succ_cons, List.map_cons, List.zip_cons_cons]
  -- the first round writes the role, the others launch
  refine ends_bind (P := fun _ s' => Tried j role.name s') ?_ (fun _ s'' htried => ?_) fun err s'' _ h => ?_
  · refine ends_update_bind.mpr ?_
    exact (tried_setRole (by nofun)).mono (launches_setSelection _)
  · refine tried_along (along_eachFrom (fun _ _ => ?_) _ _) htried
    exact along_bind (along_update fun s => launches_setRole rfl) fun _ => along_update fun s => launches_setSelection _
  · obtain ⟨b, hb⟩ := h
    cases hb

/-- A logical role comes with a chain that it starts. -/
def Fabric.ReadyRole.Heads : ReadyRole F → Prop
  | .cooperative _ _ => True
  | .logical name role _ chain => role.name = name ∧ ∃ rest, chain = role :: rest

theorem materializeRole_tried [F64 F] {item : ReadyRole F} (h : item.Heads) :
    (materializeRole e j item).Ends s (TriedIfOk j item.name) := by
  cases item with
  | cooperative name task => exact submitSingle_tried task none
  | logical name role inputs chain =>
    obtain ⟨rfl, rest, rfl⟩ := h
    refine ends_state_bind.mpr ?_
    dsimp only
    split
    · split
      · exact fun _ => tried_setRole (by nofun)
      · exact submitShards_tried _
    · split
      · rename_i selected hsel
        exact submitFused_tried hsel
      · split
        · exact fun _ => tried_setRole (by nofun)
        · exact submitSingle_tried _ _

/-- After a loop over the roles that are ready, each has been tried. -/
theorem materialize_each_tried [F64 F] {all : List (ReadyRole F)} (hall : ∀ item ∈ all, item.Heads) {f : Nat → Env} :
    (each all fun i item => materializeRole (f i) j item).Ends s fun res s' =>
      (∃ a, res = .ok a) → ∀ item ∈ all, Tried j item.name s' := by
  have hloop := ends_each (f := fun i item => materializeRole (f i) j item) (l := all) (s := s)
    (fun _ rest s' => (∀ item ∈ rest, item ∈ all) ∧ ∀ item ∈ all, item ∈ rest ∨ Tried j item.name s') (fun _ _ => True)
    ⟨fun _ h => h, fun item hitem => .inl hitem⟩ fun i item rest s' hI => ?_
  · refine ends_mono hloop fun res s' hend hok item hitem => ?_
    obtain ⟨a, rfl⟩ := hok
    exact (hend.2 item hitem).resolve_left List.not_mem_nil
  · have hmem := hI.1 item (List.mem_cons_self ..)
    have htried := materializeRole_tried (e := f i) (j := j) (s := s') (hall item hmem)
    have hlaunch := materializeRole_along (keptByLaunch_launches.of_job j) (f i) item trivial (fun _ _ => trivial) s'
    unfold Ends at htried ⊢
    cases hres : (materializeRole (f i) j item s').1 with
    | error err => trivial
    | ok u =>
      refine ⟨fun other hother => hI.1 other (List.mem_cons_of_mem _ hother), fun other hother => ?_⟩
      rcases hI.2 other hother with hin | hdone
      · rcases List.mem_cons.mp hin with rfl | hin
        · exact .inr (htried ⟨u, hres⟩)
        · exact .inl hin
      · exact .inr (hdone.mono hlaunch)

/-! ## Waiting roles -/

namespace Ledger

/-- Every role of the job that waits has a dependency that is not completed. -/
def Awaits (L : Ledger F) (j : JobId) : Prop :=
  ∀ definition role, L.definition j = some definition → role ∈ jobRoles definition →
    L.role j role.1 = some .waiting → ∃ d ∈ role.2, ∀ outputs, L.role j d ≠ some (.completed outputs)

/-- Every running reduction has something to reduce. -/
def Due (L : Ledger F) : Prop := ∀ j r active, L.reduction j r = some active → 1 < active.inputs.length

/-- No role waits for nothing. -/
structure Unstuck (L : Ledger F) : Prop where
  awaits : ∀ j, L.Awaits j
  due : L.Due

end Ledger

theorem Launched.awaits (h : Launched L L') (ha : L.Awaits j) : L'.Awaits j := by
  intro definition role hd hrole hw
  rw [h.definition] at hd
  obtain ⟨d, hmem, hnot⟩ := ha definition role hd hrole (h.waiting j _ hw)
  exact ⟨d, hmem, fun outputs hc => hnot outputs (h.completed j d outputs hc)⟩

theorem Launched.due (h : Launched L L') (hd : L.Due) : L'.Due := by
  intro j r active' hactive'
  obtain ⟨active, hactive, hinputs⟩ := h.inputs j r active' hactive'
  exact hinputs ▸ hd j r active hactive

theorem Launched.unstuck (h : Launched L L') (hu : L.Unstuck) : L'.Unstuck :=
  ⟨fun j => h.awaits (hu.awaits j), h.due hu.due⟩

/-- Whatever changes no role of the job leaves it as it was. -/
theorem Ledger.Awaits.congr (ha : L.Awaits j) (hd : L'.definition j = L.definition j) (hr : L'.role j = L.role j) :
    L'.Awaits j := by
  unfold Ledger.Awaits
  rw [hd, hr]
  exact ha

theorem gather_of_completed {statuses : String → Option CooperativeRoleStatus} : ∀ {dependencies : List String},
    (∀ d ∈ dependencies, ∃ outputs, statuses d = some (.completed outputs)) →
    ∃ inputs, gather statuses dependencies = some inputs
  | [], _ => ⟨[], rfl⟩
  | dependency :: rest, h => by
    obtain ⟨own, hown⟩ := h dependency (List.mem_cons_self ..)
    obtain ⟨others, hothers⟩ := gather_of_completed fun d hd => h d (List.mem_cons_of_mem _ hd)
    exact ⟨own ++ others, by rw [gather, hown]; dsimp only; rw [hothers]; rfl⟩

/-- A role that waits for nothing is among those that are tried. -/
theorem mem_readyRoles {job : CooperativeJobRecord F} {role : String × List String}
    (hrole : role ∈ jobRoles job.definition) (hw : job.roles.lookup role.1 = some .waiting)
    (hdone : ∀ d ∈ role.2, ∃ outputs, job.roles.lookup d = some (.completed outputs)) :
    ∃ item ∈ readyRoles e job, item.name = role.1 := by
  obtain ⟨inputs, hinputs⟩ := gather_of_completed hdone
  rw [← dependencyOutputs_eq] at hinputs
  unfold readyRoles
  cases hd : job.definition with
  | cooperative spec =>
    rw [hd] at hrole
    obtain ⟨role, hmem, rfl⟩ := List.mem_map.mp hrole
    obtain ⟨i, hi⟩ := List.mem_iff_getElem?.mp hmem
    have hready : readyCooperative e job.roles (role, i) =
        some (.cooperative role.name (role.task.instantiate (e.sub i) inputs)) := by
      unfold readyCooperative
      dsimp only at hw hinputs ⊢
      rw [if_pos hw, hinputs]
      rfl
    exact ⟨_, List.mem_filterMap.mpr ⟨(role, i), List.mem_zipIdx_iff_getElem?.mpr hi, hready⟩, rfl⟩
  | logical spec =>
    rw [hd] at hrole
    obtain ⟨role, hmem, rfl⟩ := List.mem_map.mp hrole
    have hready : readyLogical spec job.roles role =
        some (.logical role.name role inputs (fusionChain spec job.roles role)) := by
      unfold readyLogical
      dsimp only at hw hinputs ⊢
      rw [if_pos (.inl hw), hinputs]
      rfl
    exact ⟨_, List.mem_filterMap.mpr ⟨role, hmem, hready⟩, rfl⟩

theorem readyRoles_heads (job : CooperativeJobRecord F) : ∀ item ∈ readyRoles e job, item.Heads := by
  intro item hitem
  rcases readyRoles_cases hitem with ⟨_, _, _, _, -, -, rfl⟩ | ⟨_, _, _, -, -, rfl⟩
  · trivial
  · exact ⟨rfl, _, rfl⟩

/-- **A materialization that succeeds** leaves no role of the job waiting for nothing. -/
theorem materializeReadyRoles_awaits [F64 F] :
    (materializeReadyRoles e j).Ends s fun res s' => (∃ a, res = .ok a) → s'.ledger.Awaits j := by
  have hlaunch : Launches s (materializeReadyRoles e j s).2 := materializeReadyRoles_launches e j s
  cases hj : s.jobs.lookup j with
  | none =>
    rintro ⟨a, ha⟩
    simp only [materializeReadyRoles, state_bind, hj, okOr_none, fail_bind] at ha
    cases ha
  | some job =>
    have hrun : materializeReadyRoles e j s =
        each (readyRoles (e.sub 0) job) (fun i role => materializeRole ((e.sub 1).sub i) j role) s := by
      simp only [materializeReadyRoles, state_bind, hj, okOr_some, pure_bind']
    have htried := materialize_each_tried (j := j) (s := s) (f := fun i => (e.sub 1).sub i)
      (readyRoles_heads (e := e.sub 0) job)
    unfold Ends at htried ⊢
    rw [hrun] at hlaunch ⊢
    intro hok definition role hd hrole hw
    by_contra hnone
    push Not at hnone
    have hdef : definition = job.definition := by
      rw [hlaunch.definition, definition_of_lookup hj] at hd
      exact (Option.some.inj hd).symm
    subst hdef
    have hwaited := hlaunch.waiting j _ hw
    rw [role_of_lookup hj] at hwaited
    obtain ⟨item, hitem, hname⟩ := mem_readyRoles (e := e.sub 0) hrole hwaited fun d hd => by
      obtain ⟨outputs, hc⟩ := hnone d hd
      have hc' := hlaunch.completed j d outputs hc
      rw [role_of_lookup hj] at hc'
      exact ⟨outputs, hc'⟩
    exact htried hok item hitem (hname ▸ hw)

/-! ## Completing roles -/

/-- No role waits for nothing if the computation succeeded. -/
def UnstuckIfOk {α : Type} (res : Except FabricError α) (s' : Fabric F) : Prop := (∃ a, res = .ok a) → s'.ledger.Unstuck

theorem unstuckIfOk_error {α : Type} (err : FabricError) : UnstuckIfOk (.error err : Except FabricError α) s :=
  fun ⟨_, h⟩ => nomatch h

/-- Whatever happened to the roles of one job, a materialization of that job that succeeds mends it. -/
theorem materialize_unstuck [F64 F] (hothers : ∀ j' ≠ j, s.ledger.Awaits j') (hdue : s.ledger.Due) :
    (materializeReadyRoles e j).Ends s UnstuckIfOk := by
  have hlaunch : Launches s (materializeReadyRoles e j s).2 := materializeReadyRoles_launches e j s
  have hawaits := materializeReadyRoles_awaits (s := s) (e := e) (j := j)
  unfold Ends at hawaits ⊢
  intro hok
  refine ⟨fun j' => ?_, hlaunch.due hdue⟩
  by_cases hj : j' = j
  · rw [hj]
    exact hawaits hok
  · exact hlaunch.awaits (hothers j' hj)

/-- Writing a role concerns no other job. -/
theorem awaits_setRole {status : CooperativeRoleStatus} {j' : JobId} (hne : j' ≠ j) (h : s.ledger.Awaits j') :
    (s.setRole j r status).ledger.Awaits j' := by
  cases hj : s.jobs.lookup j with
  | none =>
    rw [setRole, modifyJob_of_none hj]
    exact h
  | some job =>
    rw [ledger_setRole hj]
    refine h.congr rfl ?_
    funext r'
    rw [Ledger.setRole_role, if_neg fun hand => hne hand.1]

theorem due_setRole {status : CooperativeRoleStatus} (h : s.ledger.Due) : (s.setRole j r status).ledger.Due := by
  unfold Ledger.Due
  rw [reduction_setRole]
  exact h

theorem setRole_materialize_unstuck [F64 F] {status : CooperativeRoleStatus} (hothers : ∀ j' ≠ j, s.ledger.Awaits j')
    (hdue : s.ledger.Due) :
    (update (setRole j r status) >>= fun _ => materializeReadyRoles e j).Ends s UnstuckIfOk :=
  ends_update_bind.mpr (materialize_unstuck (fun j' hne => awaits_setRole hne (hothers j' hne)) (due_setRole hdue))

/-- A part of a program that does not touch the state. -/
theorem ends_of_requireRole {α : Type} {s₀ : Fabric F} {error : FabricError} {f : Unit → FabricM F α}
    {Q : Except FabricError α → Fabric F → Prop} (hok : (f ()).Ends s Q) (herr : ∀ err, Q (.error err) s) :
    (requireRole s₀ j r error >>= f).Ends s Q := by
  unfold requireRole Ends
  cases hj : s₀.jobs.lookup j with
  | none => exact herr _
  | some job =>
    cases hr : job.roles.lookup r with
    | none =>
      simp only [okOr_some, pure_bind', hr, okOr_none, bind_apply, fail_apply]
      exact herr _
    | some status =>
      simp only [okOr_some, pure_bind', hr]
      exact hok

theorem completeSingle_unstuck [F64 F] {outputs : List ObjectId} (h : s.ledger.Unstuck) :
    (completeSingle e j r outputs).Ends s UnstuckIfOk := by
  refine ends_state_bind.mpr (ends_of_requireRole ?_ unstuckIfOk_error)
  exact setRole_materialize_unstuck (fun j' _ => h.awaits j') h.due

theorem completeFusedChain_unstuck [F64 F] {names : List String} {outputs : List ObjectId} (h : s.ledger.Unstuck) :
    (completeFusedChain e j names outputs).Ends s UnstuckIfOk := by
  refine ends_state_bind.mpr ?_
  cases hj : s.jobs.lookup j with
  | none => exact unstuckIfOk_error _
  | some job =>
    rw [okOr_some, pure_bind']
    split
    · exact unstuckIfOk_error _
    · rename_i last hlast
      refine ends_bind (ends_each (fun _ _ s' => (∀ j' ≠ j, s'.ledger.Awaits j') ∧ s'.ledger.Due) (fun _ _ => True)
        ⟨fun j' _ => h.awaits j', h.due⟩ fun i role rest s' hI => ?_) (fun _ s' hI => ?_)
        fun err s' _ => unstuckIfOk_error _
      · refine ends_state_bind.mpr (ends_of_requireRole ?_ fun _ => trivial)
        exact ⟨fun j' hne => awaits_setRole hne (hI.1 j' hne), due_setRole hI.2⟩
      · refine ends_state_bind.mpr (ends_of_requireRole ?_ unstuckIfOk_error)
        exact setRole_materialize_unstuck hI.1 hI.2

/-! ## Reductions -/

theorem reduction_setReduction {active active' : ActiveReduction} {j' : JobId} {r' : String}
    (h : (s.setReduction j r active).ledger.reduction j' r' = some active') :
    (j' = j ∧ r' = r ∧ active' = active) ∨ s.ledger.reduction j' r' = some active' := by
  cases hj : s.jobs.lookup j with
  | none =>
    rw [setReduction, modifyJob_of_none hj] at h
    exact .inr h
  | some job =>
    rw [ledger_setReduction hj, Ledger.setReduction_reduction] at h
    split at h
    · rename_i heq
      exact .inl ⟨heq.1, heq.2, (Option.some.inj h).symm⟩
    · exact .inr h

theorem role_setReduction (active : ActiveReduction) : (s.setReduction j r active).ledger.role = s.ledger.role := by
  cases hj : s.jobs.lookup j with
  | none => rw [setReduction, modifyJob_of_none hj]
  | some job =>
    rw [ledger_setReduction hj]
    rfl

theorem definition_setReduction (active : ActiveReduction) :
    (s.setReduction j r active).ledger.definition = s.ledger.definition := by
  cases hj : s.jobs.lookup j with
  | none => rw [setReduction, modifyJob_of_none hj]
  | some job =>
    rw [ledger_setReduction hj]
    rfl

/-- Placing the items of a level keeps its inputs. -/
theorem launches_setReduction {active : ActiveReduction} (h : Launches s s')
    (hactive : s.ledger.reduction j r = some active) (items : List ReductionItem) :
    Launches s (s'.setReduction j r { active with items := items }) := by
  refine ⟨(definition_setReduction _).trans h.definition, fun j' r' hw => ?_, fun j' r' outputs hc => ?_,
    fun j' r' active' hactive' => ?_⟩
  · rw [role_setReduction] at hw
    exact h.waiting j' r' hw
  · rw [role_setReduction] at hc
    exact h.completed j' r' outputs hc
  · rcases reduction_setReduction hactive' with ⟨rfl, rfl, rfl⟩ | hactive'
    · exact ⟨active, hactive, rfl⟩
    · exact h.inputs j' r' active' hactive'

variable [F64 F]

/-- A level that needs reducing is placed or put off: nothing is completed. -/
theorem materializeReductionLevel_launches
    (hdue : ∀ active, s.ledger.reduction j r = some active → 1 < active.inputs.length) :
    Launches s (materializeReductionLevel e j r s).2 := by
  show (materializeReductionLevel e j r).Ends s fun _ s' => Launches s s'
  have hsame : Launches s s := refl_of Launches s
  unfold materializeReductionLevel
  refine ends_state_bind.mpr ?_
  cases hj : s.jobs.lookup j with
  | none => exact hsame
  | some job =>
    rw [okOr_some, pure_bind']
    cases logicalRoleReduction job.definition r with
    | none => exact hsame
    | some reduction =>
      rw [okOr_some, pure_bind']
      cases hred : job.reductions.lookup r with
      | none => exact hsame
      | some active =>
        have hactive : s.ledger.reduction j r = some active := (reduction_of_lookup hj r).trans hred
        have hmore := hdue active hactive
        rw [okOr_some, pure_bind']
        split
        · exact hsame
        rw [if_neg (by omega)]
        split
        · exact launches_setRole rfl
        · rename_i selected hsel
          refine ends_bind (P := fun _ s' => Launches s s')
            (submitReducers_along (keptByLaunch_launches.of_job j) r trivial selected s) (fun _ s' h => ?_) fun _ _ h => h
          dsimp only
          split
          · exact h
          · exact trans_of Launches (launches_setReduction h hactive _) (launches_setRole rfl)

/-- The next level of a reduction is due; it may have come down to one object. -/
theorem materializeReductionLevel_unstuck {active : ActiveReduction} (hawaits : ∀ j', s.ledger.Awaits j')
    (hdue : ∀ j' r' active, ¬(j' = j ∧ r' = r) → s.ledger.reduction j' r' = some active → 1 < active.inputs.length)
    (hactive : s.ledger.reduction j r = some active) (hitems : active.items = []) :
    (materializeReductionLevel e j r).Ends s UnstuckIfOk := by
  by_cases hmore : 1 < active.inputs.length
  · have hall : s.ledger.Due := by
      intro j' r' active' hactive'
      by_cases heq : j' = j ∧ r' = r
      · rw [heq.1, heq.2, hactive] at hactive'
        cases hactive'
        exact hmore
      · exact hdue j' r' active' heq hactive'
    exact fun _ => (materializeReductionLevel_launches (hall j r)).unstuck ⟨hawaits, hall⟩
  · obtain ⟨job, hj, hred⟩ := lookup_of_reduction hactive
    unfold materializeReductionLevel
    refine ends_state_bind.mpr ?_
    rw [hj, okOr_some, pure_bind']
    cases logicalRoleReduction job.definition r with
    | none => exact unstuckIfOk_error _
    | some reduction =>
      simp only [okOr_some, pure_bind', hred, hitems, List.isEmpty_nil, Bool.not_true, Bool.false_eq_true, if_false]
      rw [if_pos (by omega)]
      refine ends_update_bind.mpr (setRole_materialize_unstuck (fun j' hne => ?_) ?_)
      · rw [ledger_removeReduction hj]
        exact (hawaits j').congr rfl rfl
      · intro j' r' active' hactive'
        rw [ledger_removeReduction hj, Ledger.setReduction_reduction] at hactive'
        split at hactive'
        · cases hactive'
        · rename_i hne
          exact hdue j' r' active' hne hactive'

omit [F64 F] in
theorem lookup_reduction_set {active : ActiveReduction} {job : CooperativeJobRecord F} (hj : s.jobs.lookup j = some job) :
    (s.setReduction j r active).ledger.reduction j r = some active := by
  rw [ledger_setReduction hj, Ledger.setReduction_reduction, if_pos ⟨rfl, rfl⟩]

theorem startRoleReduction_unstuck {inputs : List ObjectId} (h : s.ledger.Unstuck) :
    (startRoleReduction e j r inputs).Ends s UnstuckIfOk := by
  refine ends_state_bind.mpr ?_
  cases hj : s.jobs.lookup j with
  | none => exact unstuckIfOk_error _
  | some job =>
    rw [okOr_some, pure_bind']
    refine ends_update_bind.mpr (ends_update_bind.mpr ?_)
    have hactive : (setRole j r (.reducing [] 0 0) (setReduction j r ⟨0, inputs, []⟩ s)).ledger.reduction j r =
        some ⟨0, inputs, []⟩ := by
      rw [reduction_setRole]
      exact lookup_reduction_set hj
    refine materializeReductionLevel_unstuck (fun j' => ?_) (fun j' r' active hne ha => ?_) hactive rfl
    · refine (launches_setRole rfl).awaits ((h.awaits j').congr ?_ ?_)
      · rw [definition_setReduction]
      · rw [role_setReduction]
    · rw [reduction_setRole] at ha
      rcases reduction_setReduction ha with ⟨hj', hr', -⟩ | ha
      · exact absurd ⟨hj', hr'⟩ hne
      · exact h.due j' r' active ha

theorem completeShard_unstuck (h : s.ledger.Unstuck) : (completeShard e j r).Ends s UnstuckIfOk := by
  refine ends_state_bind.mpr ?_
  split
  · cases hj : s.jobs.lookup j with
    | none => exact unstuckIfOk_error _
    | some job =>
      rw [okOr_some, pure_bind']
      split
      · exact startRoleReduction_unstuck h
      · exact setRole_materialize_unstuck (fun j' _ => h.awaits j') h.due
  · exact fun _ => h
  · exact unstuckIfOk_error _

theorem advanceReductionLevel_unstuck (h : s.ledger.Unstuck) : (advanceReductionLevel e j r).Ends s UnstuckIfOk := by
  refine ends_state_bind.mpr ?_
  cases hj : s.jobs.lookup j with
  | none => exact unstuckIfOk_error _
  | some job =>
    rw [okOr_some, pure_bind']
    cases hred : job.reductions.lookup r with
    | none => exact unstuckIfOk_error _
    | some active =>
      rw [okOr_some, pure_bind']
      cases s.levelProgress r active.items ⟨[], 0, true⟩ with
      | error err => exact unstuckIfOk_error _
      | ok progress =>
        rw [lift_ok, pure_bind']
        split
        · exact fun _ => (launches_setRole rfl).unstuck h
        · refine ends_update_bind.mpr (materializeReductionLevel_unstuck (fun j' => ?_) (fun j' r' active hne ha => ?_)
            (lookup_reduction_set hj) rfl)
          · refine (h.awaits j').congr ?_ ?_
            · rw [definition_setReduction]
            · rw [role_setReduction]
          · rcases reduction_setReduction ha with ⟨hj', hr', -⟩ | ha
            · exact absurd ⟨hj', hr'⟩ hne
            · exact h.due j' r' active ha

/-- **A completed task** is passed on to its role, along any of the four paths. -/
theorem completeCooperativeRole_unstuck {t : TaskId} {outputs : List ObjectId} (h : s.ledger.Unstuck) :
    (completeCooperativeRole e t outputs).Ends s UnstuckIfOk := by
  refine ends_state_bind.mpr ?_
  split
  · exact fun _ => h
  · exact completeSingle_unstuck h
  · exact completeFusedChain_unstuck h
  · exact completeShard_unstuck h
  · split
    · exact unstuckIfOk_error _
    · exact advanceReductionLevel_unstuck h

/-! ## Calls -/

/-- A refresh only launches, whether it succeeds or not. -/
theorem refreshReadyRoles_launches (hdue : s.ledger.Due) : Launches s (refreshReadyRoles e s).2 := by
  show (refreshReadyRoles e).Ends s fun _ s' => Launches s s'
  refine ends_bind (P := fun _ s' => Launches s s') ?_ (fun _ s' h => ?_) fun _ _ h => h
  · refine ends_state_bind.mpr (ends_mono (ends_each (fun _ _ s' => Launches s s') (fun _ s' => Launches s s')
      (refl_of Launches s) fun i entry rest s' h => ?_) fun res s' h => ?_)
    · have hnext := trans_of Launches h (materializeReductionLevel_launches (e := ((e.sub 0).sub 1).sub i)
        ((h.due hdue) entry.1 entry.2))
      unfold Ends
      cases (materializeReductionLevel (((e.sub 0).sub 1).sub i) entry.1 entry.2 s').1 <;> exact hnext
    · cases res <;> exact h
  · refine ends_state_bind.mpr ?_
    exact trans_of Launches h
      (along_each _ (fun i j => materializeReadyRoles_launches ((e.sub 2).sub i) j) s')

theorem acceptJob_unstuck (h : s.ledger.Unstuck) (definition : JobDefinition F) :
    (acceptJob e j definition).Ends s UnstuckIfOk := by
  refine ends_state_bind.mpr ?_
  cases hj : s.jobs.lookup j with
  | some job => exact unstuckIfOk_error _
  | none =>
    simp only [Option.isSome_none, Bool.false_eq_true, if_false]
    refine ends_update_bind.mpr ?_
    have hlookup : ∀ j', (s.jobs.insert j (newJob definition)).lookup j' =
        if j' = j then some (newJob definition) else s.jobs.lookup j' := fun j' => Map.lookup_insert_eq ..
    refine ends_bind (materialize_unstuck (fun j' hne => (h.awaits j').congr ?_ ?_) fun j' r' active hactive => ?_)
      (fun _ s' hu => ?_) fun err s' _ => unstuckIfOk_error _
    · simp only [ledger, hlookup, if_neg hne]
    · funext r'
      simp only [ledger, hlookup, if_neg hne]
    · refine h.due j' r' active ?_
      simp only [ledger, hlookup] at hactive ⊢
      split at hactive
      · simp [newJob] at hactive
      · exact hactive
    · exact fun _ => hu ⟨(), rfl⟩

theorem completeExecution_unstuck {lease : ExecutionLease} {outputs : List ObjectMetadata} (h : s.ledger.Unstuck) :
    (completeExecution e lease outputs).Ends s UnstuckIfOk := by
  unfold Ends
  rcases completeExecution_cases e lease outputs s with ⟨err, hrun⟩ | ⟨current, hc, -, -, hrun⟩
  · rw [hrun]
    exact unstuckIfOk_error _
  · rw [hrun]
    obtain ⟨resource, record, -, -, ht, -⟩ := currentLease_ok hc
    have hset : (s.setStatus lease.taskId (.completed (outputs.map (·.id)))).ledger.Unstuck := by
      refine Launched.unstuck ?_ h
      rw [ledger_setStatus ht]
      exact launched_of_eq rfl rfl rfl
    generalize s.setStatus lease.taskId (.completed (outputs.map (·.id))) = s₁ at hset
    have hpublished := publishAll_ledger outputs s₁
    refine ends_bind (m := each outputs fun _ object => publishObject object) (P := fun _ s' => s'.ledger = s₁.ledger)
      hpublished (fun _ s' hs' => ?_) fun err s' _ => unstuckIfOk_error _
    exact completeCooperativeRole_unstuck (hs' ▸ hset)

omit [F64 F] in
theorem Launched.mark (L : Ledger F) (t : TaskId) : Launched L (L.mark t) := by
  refine ⟨rfl, fun j r h => ?_, fun j r outputs h => ?_, fun j r active h => ⟨active, h, rfl⟩⟩
  · rw [Ledger.mark_role] at h
    split at h
    · obtain ⟨status, -, hs⟩ := Option.map_eq_some_iff.mp h
      cases hs
    · exact h
  · rw [Ledger.mark_role] at h
    split at h
    · obtain ⟨status, -, hs⟩ := Option.map_eq_some_iff.mp h
      cases hs
    · exact h

omit [F64 F] in
theorem reapExpiredExecutionsAt_launches (e : Env) (unixMs : UInt64) (s : Fabric F) :
    Launches s (s.reapExpiredExecutionsAt e unixMs).2 := by
  have hmarks : ∀ (tasks : List TaskId) (L : Ledger F), Launched L (tasks.foldl Ledger.mark L) := by
    intro tasks
    induction tasks with
    | nil => exact Launched.refl
    | cons t tasks ih => exact fun L => (Launched.mark L t).trans (ih _)
  have hlost : Launched s.ledger (s.ledger.lose (lostTasks e unixMs s)) := launched_of_eq rfl rfl rfl
  rw [Launches, reapExpiredExecutionsAt_ledger]
  exact hlost.trans (hmarks _ _)

/-- The calls that store a task, a job or a result. -/
def Op.Commits : Op F → Prop
  | .submit _ | .submitCooperative _ | .submitLogical _ | .completeExecution _ _ => True
  | _ => False

/-- What succeeds or has no effect leaves no role waiting for nothing. -/
theorem unstuck_of_clean {op : Op F} {α : Type} {m : FabricM F α} {g : α → Reply} (h : s.ledger.Unstuck)
    (hm : m.Ends s UnstuckIfOk) (hx : exec e op = (m >>= fun a => pure (g a))) (hclean : (Event.of e s op).Clean) :
    (exec e op s).2.ledger.Unstuck := by
  rcases hclean with ⟨reply, hreply⟩ | hsame
  · simp only [Event.of, hx, bind_pure_apply] at hreply ⊢
    refine hm ?_
    cases hres : (m s).1 with
    | ok a => exact ⟨a, rfl⟩
    | error err =>
      rw [hres] at hreply
      cases hreply
  · have hsame' : (exec e op s).2 = s := hsame
    rw [hsame']
    exact h

/-- **Every call**, if it succeeds or has no effect in case it stores something. -/
theorem exec_unstuck (h : s.ledger.Unstuck) {op : Op F} (hclean : op.Commits → (Event.of e s op).Clean) :
    (exec e op s).2.ledger.Unstuck := by
  have launched : ∀ {s' : Fabric F}, Launches s s' → s'.ledger.Unstuck := fun hl => Launched.unstuck hl h
  have same : ∀ {s' : Fabric F}, s'.ledger = s.ledger → s'.ledger.Unstuck := fun heq => heq ▸ h
  have wrapped : ∀ {α : Type} {m : FabricM F α} {g : α → Reply}, exec e op = (m >>= fun a => pure (g a)) →
      (m s).2.ledger.Unstuck → (exec e op s).2.ledger.Unstuck := by
    intro α m g hx hm
    rw [hx, bind_pure_apply]
    exact hm
  cases op with
  | setTopology topology => exact same rfl
  | upsertLink link => exact same rfl
  | removeLink a b => exact same rfl
  | registerResource descriptor => exact same rfl
  | heartbeat resource epoch =>
    exact wrapped (m := heartbeat e resource epoch) rfl (same (heartbeat_ledger e resource epoch s))
  | unregisterResource resource => exact same rfl
  | expireResourcesAt unixMs => exact same (expireResourcesAt_ledger e unixMs s)
  | publishObject object =>
    exact wrapped (m := publishObject object) (g := fun _ => .unit) rfl (same (publishObject_ledger object s))
  | addObjectLocation object resource =>
    exact wrapped (m := addObjectLocation object resource) (g := fun _ => .unit) rfl
      (same (addObjectLocation_ledger object resource s))
  | submit task => exact wrapped (m := submit task) rfl (launched (keptByLaunch_launches.submit task s))
  | submitCooperative job =>
    refine unstuck_of_clean (m := submitCooperative e job) h ?_ rfl (hclean trivial)
    unfold submitCooperative
    cases validateCooperativeJob job with
    | error err => exact unstuckIfOk_error _
    | ok u => exact acceptJob_unstuck h _
  | submitLogical job =>
    refine unstuck_of_clean (m := submitLogical e job) h ?_ rfl (hclean trivial)
    unfold submitLogical Ends
    cases validateLogicalJob job with
    | error err => exact unstuckIfOk_error _
    | ok u =>
      rw [Except.mapError, lift_ok, pure_bind', state_bind]
      cases validateLogicalJobObjects job s.objects with
      | error err => exact unstuckIfOk_error _
      | ok u => exact acceptJob_unstuck (j := job.id) h (.logical job)
  | beginExecution task resource =>
    exact wrapped (m := beginExecution e task resource) rfl (same (beginExecution_ledger e task resource s))
  | renewExecution lease =>
    exact wrapped (m := renewExecution e lease) rfl (same (renewExecution_ledger e lease s))
  | completeExecution lease outputs =>
    exact unstuck_of_clean (m := completeExecution e lease outputs) (g := fun _ => .unit) h
      (completeExecution_unstuck h) rfl (hclean trivial)
  | reapExpiredExecutionsAt unixMs => exact launched (reapExpiredExecutionsAt_launches e unixMs s)
  | refreshReadyRoles =>
    exact wrapped (m := refreshReadyRoles e) (g := fun _ => .unit) rfl (launched (refreshReadyRoles_launches h.due))

end Plurifold
