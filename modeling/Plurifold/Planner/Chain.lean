import Plurifold.Planner.Fusion
import Plurifold.Planner.Placement
import Mathlib.Order.Bounds.Basic

/-!
# The dynamic program over a chain

A way through a chain places every role on a resource, each role after the first one reading the output of the role
before where it was made (`tailTotal`, `chainTotal`). The program keeps one state for each implementation, resource and
pair of flags; the key of a state determines all that later roles cost, so a state that is no dearer than another of the
same key stands for it (`Collected`). The program gives up when a feasible hop joins two resources without a link
(`GetsStuck`), and otherwise finds exactly the ways there are (`chain_found_iff`) and the cheapest of them
(`separate_paths_exact`).
-/

namespace Plurifold

open Lib

variable {F : Type} {e e' : Env} {context : FusionContext F} {role : LogicalRoleSpec F}
  {chain roles : List (LogicalRoleSpec F)} {dependencyInputs : List ObjectId} {states : ChainStates F}
  {implementation : RoleImplementation F} {resource : ResourceDescriptor F} {le : F → F → Prop}
  {v w : SeparateChainState F}

/-! ## Ways through a chain -/

variable [F64 F]

/-- A role placed: the implementation and the resource. -/
abbrev RolePlacement (F : Type) := RoleImplementation F × ResourceDescriptor F

/-- What a role costs that reads its template's inputs and `bytes` bytes made on the resource `previous`. -/
def stepCost (e : Env) (context : FusionContext F) (bytes : UInt64) (previous : ResourceId)
    (implementation : RoleImplementation F) (resource : ResourceDescriptor F) : Option (PlacementBreakdown F) :=
  let output := ObjectId.new e
  placementCost context.scheduler (implementation.task.instantiate e [output]) resource
    (context.objects.insert output (predictedOutput output bytes previous)) context.topology

/-- What the roles of a tail cost, added to `total`; `none` when some placement is not feasible. -/
def tailTotal (e : Env) (context : FusionContext F) : F → UInt64 → ResourceId → List (RolePlacement F) → Option F
  | total, _, _, [] => some total
  | total, bytes, previous, (implementation, resource) :: rest => do
    let cost ← stepCost e context bytes previous implementation resource
    tailTotal e context (total + cost.totalMs) implementation.task.cost.outputBytes resource.id rest

/-- What the first role of a chain costs. -/
def firstCost (e : Env) (context : FusionContext F) (dependencyInputs : List ObjectId)
    (implementation : RoleImplementation F) (resource : ResourceDescriptor F) : Option (PlacementBreakdown F) :=
  placementCost context.scheduler (implementation.task.instantiate e dependencyInputs) resource context.objects
    context.topology

/-- What the roles of a chain cost. -/
def chainTotal (e : Env) (context : FusionContext F) (dependencyInputs : List ObjectId) :
    List (RolePlacement F) → Option F
  | [] => none
  | (implementation, resource) :: rest => do
    let cost ← firstCost e context dependencyInputs implementation resource
    tailTotal e context cost.totalMs implementation.task.cost.outputBytes resource.id rest

/-- A way through the roles: one of its implementations and one resource for each. -/
def Assigns (context : FusionContext F) (roles : List (LogicalRoleSpec F)) (way : List (RolePlacement F)) : Prop :=
  List.Forall₂ (fun role placement => placement.1 ∈ role.implementations ∧ placement.2 ∈ context.resources) roles way

/-- Some role runs on another resource than the role before it. -/
def crossesFrom : ResourceId → List (RolePlacement F) → Bool
  | _, [] => false
  | previous, (_, resource) :: rest => decide (previous ≠ resource.id) || crossesFrom resource.id rest

def crosses : List (RolePlacement F) → Bool
  | [] => false
  | (_, resource) :: rest => crossesFrom resource.id rest

/-- Some way into the roles takes a hop with nothing to move between two resources that have no link. -/
def GetsStuck (e : Env) (context : FusionContext F) : UInt64 → ResourceId → List (LogicalRoleSpec F) → Prop
  | _, _, [] => False
  | bytes, previous, role :: rest =>
    ∃ implementation ∈ role.implementations, ∃ resource ∈ context.resources,
      (stepCost e context bytes previous implementation resource).isSome = true ∧
      ((bytes = 0 ∧ previous ≠ resource.id ∧ context.topology.link previous resource.id = none) ∨
        GetsStuck e context implementation.task.cost.outputBytes resource.id rest)

/-- Some way into the chain takes a hop with nothing to move between two resources that have no link. -/
def ChainGetsStuck (e : Env) (context : FusionContext F) (dependencyInputs : List ObjectId) :
    List (LogicalRoleSpec F) → Prop
  | [] => False
  | first :: rest =>
    ∃ implementation ∈ first.implementations, ∃ resource ∈ context.resources,
      (firstCost e context dependencyInputs implementation resource).isSome = true ∧
      GetsStuck e context implementation.task.cost.outputBytes resource.id rest

section

omit [F64 F]

/-- No object that the world names later is an input of a template. -/
def NamesNew (e : Env) (roles : List (LogicalRoleSpec F)) : Prop :=
  ∀ n, e.Mints n → ∀ role ∈ roles, ∀ implementation ∈ role.implementations, (⟨n⟩ : ObjectId) ∉ implementation.task.inputs

theorem NamesNew.sub (h : NamesNew e roles) (i : Nat) : NamesNew (e.sub i) roles := fun n hn => h n hn.of_sub

theorem NamesNew.tail (h : NamesNew e (role :: roles)) : NamesNew e roles :=
  fun n hn r hr => h n hn r (List.mem_cons_of_mem _ hr)

theorem NamesNew.not_mem (h : NamesNew e [role]) (himplementation : implementation ∈ role.implementations) :
    ObjectId.new e ∉ implementation.task.inputs :=
  h _ (Env.mints_newUuid e) role (List.mem_singleton.mpr rfl) implementation himplementation

end

/-! ## Costs do not depend on new names -/

theorem firstCost_env (e e' : Env) : firstCost e context dependencyInputs implementation resource =
    firstCost e' context dependencyInputs implementation resource := by
  refine placementCost_related rfl rfl (fun _ => rfl) ?_
  exact List.forall₂_same.mpr fun _ _ => rfl

/-- A transition of the program costs what the step costs, under whatever names. -/
theorem placementCost_step {o o' : ObjectId} {bytes : UInt64} {previous : ResourceId} {e₁ e₂ : Env}
    (ho : o ∉ implementation.task.inputs) (ho' : o' ∉ implementation.task.inputs) :
    placementCost context.scheduler (implementation.task.instantiate e₁ [o]) resource
      (context.objects.insert o (predictedOutput o bytes previous)) context.topology =
    placementCost context.scheduler (implementation.task.instantiate e₂ [o']) resource
      (context.objects.insert o' (predictedOutput o' bytes previous)) context.topology := by
  refine placementCost_related rfl rfl (fun _ => rfl) (List.rel_append ?_ (.cons ?_ .nil))
  · refine List.forall₂_same.mpr fun input hinput => ?_
    have hne : input ≠ o := fun h => ho (h ▸ hinput)
    have hne' : input ≠ o' := fun h => ho' (h ▸ hinput)
    rw [placed, placed, Map.lookup_insert_eq, Map.lookup_insert_eq, if_neg hne, if_neg hne']
  · rw [placed, placed, Map.lookup_insert_eq, Map.lookup_insert_eq, if_pos rfl, if_pos rfl]
    rfl

/-- Only a role that puts out nothing leaves a later role feasible where no link leads. -/
theorem stepCost_unlinked {bytes : UInt64} {previous : ResourceId}
    (hcost : (stepCost e context bytes previous implementation resource).isSome = true) (hne : previous ≠ resource.id)
    (hlink : context.topology.link previous resource.id = none) : bytes = 0 := by
  obtain ⟨-, hreach⟩ := (placementCost_isSome fun _ => rfl).mp hcost
  obtain ⟨object, hobject, hhow⟩ := hreach (ObjectId.new e) (List.mem_append_right _ (List.mem_singleton.mpr rfl))
  rw [AList.lookup_insert, Option.some.injEq] at hobject
  subst hobject
  rcases hhow with hlocal | hempty | hbest
  · simp [ObjectMetadata.isLocalTo, predictedOutput, hne.symm] at hlocal
  · exact hempty
  · have hunreachable : context.topology.transferTimeMs previous resource.id bytes = none := by
      rw [TopologySnapshot.transferTimeMs, if_neg hne, hlink]
      rfl
    simp [bestTransfer, predictedOutput, hunreachable, minBy] at hbest

/-- Where a role can run at all, it can run after one on the same resource. -/
theorem stepCost_local (hnew : ObjectId.new e ∉ implementation.task.inputs)
    (hsupports : resource.supports implementation.task.requirements = true)
    (hreach : ∀ o ∈ implementation.task.inputs, Reachable context.objects context.topology resource.id o)
    (bytes : UInt64) : (stepCost e context bytes resource.id implementation resource).isSome = true := by
  refine (placementCost_isSome fun _ => rfl).mpr ⟨hsupports, fun o ho => ?_⟩
  rcases List.mem_append.mp ho with ho | ho
  · obtain ⟨object, hobject, hhow⟩ := hreach o ho
    have hne : o ≠ ObjectId.new e := fun h => hnew (h ▸ ho)
    exact ⟨object, by rw [Map.lookup_insert_eq, if_neg hne, hobject], hhow⟩
  · rw [List.mem_singleton.mp ho]
    exact ⟨_, AList.lookup_insert _, .inl (by simp [ObjectMetadata.isLocalTo, predictedOutput])⟩

/-! ## States -/

def SeparateChainState.key (state : SeparateChainState F) : ChainKey :=
  (state.implementationIndex, state.resourceId, state.hasCrossResourceEdge, state.hasFusionTriggerEdge)

/-- The state after one more placement; `none` when the resources differ and have no link. -/
def hopState (context : FusionContext F) (previous : SeparateChainState F) (implementationIndex : Nat)
    (outputBytes : UInt64) (resource : ResourceId) (totalMs : F) : Option (SeparateChainState F) :=
  let next : SeparateChainState F :=
    { implementationIndex, resourceId := resource, outputBytes, totalMs := previous.totalMs + totalMs,
      crossTransferMs := previous.crossTransferMs, hasCrossResourceEdge := previous.hasCrossResourceEdge,
      hasFusionTriggerEdge := previous.hasFusionTriggerEdge }
  if previous.resourceId = resource then some next
  else (context.topology.link previous.resourceId resource).map fun link =>
    let recommendation := context.advisor.evaluate previous.outputBytes link
    { next with
      crossTransferMs := previous.crossTransferMs + recommendation.estimatedSavedTransferMs
      hasCrossResourceEdge := true
      hasFusionTriggerEdge := previous.hasFusionTriggerEdge || recommendation.shouldFuse }

theorem advanceOnResource_eq {task : TaskSpec F} {i : Nat} {bytes : UInt64} {objects : Objects} :
    advanceOnResource task i bytes v objects context states resource =
      match placementCost context.scheduler task resource objects context.topology with
      | none => some states
      | some cost => (hopState context v i bytes resource.id cost.totalMs).map (insertBetterChainState states) := by
  unfold advanceOnResource hopState
  cases placementCost context.scheduler task resource objects context.topology with
  | none => rfl
  | some cost =>
    dsimp only
    split
    · rfl
    · rw [Option.map_map]
      rfl

/-- `w` is a state after `v` and a placement of the role. -/
def Hops (e : Env) (context : FusionContext F) (role : LogicalRoleSpec F) (v w : SeparateChainState F) : Prop :=
  ∃ entry ∈ role.implementations.zipIdx, ∃ resource ∈ context.resources, ∃ cost,
    stepCost e context v.outputBytes v.resourceId entry.1 resource = some cost ∧
    hopState context v entry.2 entry.1.task.cost.outputBytes resource.id cost.totalMs = some w

/-- From `v` the role can be placed on a resource to which there is no link. -/
def Unlinked (e : Env) (context : FusionContext F) (role : LogicalRoleSpec F) (v : SeparateChainState F) : Prop :=
  ∃ implementation ∈ role.implementations, ∃ resource ∈ context.resources,
    (stepCost e context v.outputBytes v.resourceId implementation resource).isSome = true ∧
    v.resourceId ≠ resource.id ∧ context.topology.link v.resourceId resource.id = none

theorem hopState_none {i : Nat} {bytes : UInt64} {r : ResourceId} {ms : F} :
    hopState context v i bytes r ms = none ↔ v.resourceId ≠ r ∧ context.topology.link v.resourceId r = none := by
  unfold hopState
  dsimp only
  split
  · rename_i h
    simp [h]
  · rename_i h
    simp [h]

/-- An order of costs in which the program's comparisons are right. -/
structure CostOrder (le : F → F → Prop) : Prop where
  refl : ∀ a, le a a
  trans : ∀ {a b c}, le a b → le b c → le a c
  of_lt : ∀ {a b}, F64.lt a b = true → le a b
  of_eq : ∀ {a b}, F64.eq a b = true → le a b
  of_not_lt : ∀ {a b}, F64.lt a b = false → le b a
  add : ∀ {a b} c, le a b → le (a + c) (b + c)

/-- When costs are not compared, any comparison is right. -/
theorem costOrder_any : CostOrder (fun _ _ : F => True) :=
  ⟨fun _ => trivial, fun _ _ => trivial, fun _ => trivial, fun _ => trivial, fun _ => trivial, fun _ _ => trivial⟩

theorem costOrder_rat : CostOrder (fun a b : ℚ => a ≤ b) where
  refl := le_refl
  trans := le_trans
  of_lt h := (of_decide_eq_true h).le
  of_eq h := (of_decide_eq_true h).le
  of_not_lt h := not_lt.mp (of_decide_eq_false h)
  add c h := add_le_add_left h c

/-- The program's states stand for the states `C`: each is one of them, and none of them has its key and costs less. -/
structure Collected (le : F → F → Prop) (C : SeparateChainState F → Prop) (states : ChainStates F) : Prop where
  real : ∀ k w, states.lookup k = some w → C w ∧ w.key = k
  covered : ∀ v, C v → ∃ w, states.lookup v.key = some w ∧ le w.totalMs v.totalMs

omit [F64 F] in
theorem collected_empty : Collected le (fun _ => False) (∅ : ChainStates F) :=
  ⟨fun k w h => by simp at h, fun v h => h.elim⟩

omit [F64 F] in
theorem Collected.congr {C C' : SeparateChainState F → Prop} (h : Collected le C states) (hiff : ∀ v, C v ↔ C' v) :
    Collected le C' states :=
  ⟨fun k w hk => ⟨(hiff w).mp (h.real k w hk).1, (h.real k w hk).2⟩, fun v hv => h.covered v ((hiff v).mpr hv)⟩

theorem insertBetterChainState_eq (candidate : SeparateChainState F) : insertBetterChainState states candidate =
    if (match states.lookup candidate.key with
      | some current => F64.lt candidate.totalMs current.totalMs ||
          (F64.eq candidate.totalMs current.totalMs && F64.lt current.crossTransferMs candidate.crossTransferMs)
      | none => true) = true then states.insert candidate.key candidate else states := rfl

theorem Collected.insert (hle : CostOrder le) {C : SeparateChainState F → Prop} (h : Collected le C states)
    (candidate : SeparateChainState F) :
    Collected le (fun v => C v ∨ v = candidate) (insertBetterChainState states candidate) := by
  have hold : ∀ k w, states.lookup k = some w → (C w ∨ w = candidate) ∧ w.key = k := fun k w hw =>
    ⟨.inl (h.real k w hw).1, (h.real k w hw).2⟩
  -- a candidate that is taken takes the place of one that it dominates
  have htaken : (∀ current, states.lookup candidate.key = some current → le candidate.totalMs current.totalMs) →
      Collected le (fun v => C v ∨ v = candidate) (states.insert candidate.key candidate) := by
    intro hbetter
    constructor
    · intro k w hw
      rw [Map.lookup_insert_eq] at hw
      split at hw
      · rename_i hk
        cases hw
        exact ⟨.inr rfl, hk.symm⟩
      · exact hold k w hw
    · rintro v (hv | rfl)
      · obtain ⟨w, hw, hwle⟩ := h.covered v hv
        rw [Map.lookup_insert_eq]
        split
        · rename_i hk
          exact ⟨candidate, rfl, hle.trans (hbetter w (hk ▸ hw)) hwle⟩
        · exact ⟨w, hw, hwle⟩
      · exact ⟨v, by rw [Map.lookup_insert_eq, if_pos rfl], hle.refl _⟩
  rw [insertBetterChainState_eq]
  cases hcurrent : states.lookup candidate.key with
  | none =>
    rw [if_pos rfl]
    refine htaken fun current hnone => ?_
    rw [hcurrent] at hnone
    cases hnone
  | some current =>
    dsimp only
    split
    · rename_i hreplace
      refine htaken fun current' hcurrent' => ?_
      obtain rfl : current = current' := Option.some.inj (hcurrent.symm.trans hcurrent')
      rw [Bool.or_eq_true, Bool.and_eq_true] at hreplace
      rcases hreplace with hlt | ⟨heq, -⟩
      · exact hle.of_lt hlt
      · exact hle.of_eq heq
    · rename_i hkept
      rw [Bool.or_eq_true, not_or, Bool.not_eq_true] at hkept
      refine ⟨hold, ?_⟩
      rintro v (hv | rfl)
      · exact h.covered v hv
      · exact ⟨current, hcurrent, hle.of_not_lt hkept.1⟩

/-! ## One role -/

/-- One transition out of `v`: it adds the state that follows, if the placement is feasible and not unlinked. -/
theorem advanceOnResource_step (hnew : NamesNew e [role]) (hnew₀ : NamesNew e' [role])
    {entry : RoleImplementation F × Nat} (hentry : entry ∈ role.implementations.zipIdx) :
    advanceOnResource (entry.1.task.instantiate (e.sub entry.2) [ObjectId.new e]) entry.2 entry.1.task.cost.outputBytes v
      (context.objects.insert (ObjectId.new e) (predictedOutput (ObjectId.new e) v.outputBytes v.resourceId)) context
      states resource =
    match stepCost e' context v.outputBytes v.resourceId entry.1 resource with
    | none => some states
    | some cost => (hopState context v entry.2 entry.1.task.cost.outputBytes resource.id cost.totalMs).map
        (insertBetterChainState states) := by
  have hmem := List.fst_mem_of_mem_zipIdx hentry
  rw [advanceOnResource_eq, stepCost, placementCost_step (hnew.not_mem hmem) (hnew₀.not_mem hmem)]

/-- The transitions out of one state add the states that follow it. -/
theorem advanceChainState_collects (hle : CostOrder le) (hnew : NamesNew e [role]) (hnew₀ : NamesNew e' [role])
    (hlinked : ¬Unlinked e' context role v) {C : SeparateChainState F → Prop} (h : Collected le C states) :
    ∃ states', advanceChainState e role context states v = some states' ∧
      Collected le (fun w => C w ∨ Hops e' context role v w) states' := by
  unfold advanceChainState
  refine foldlM_gathers (D := fun (entry : RoleImplementation F × Nat) w => ∃ resource ∈ context.resources, ∃ cost,
    stepCost e' context v.outputBytes v.resourceId entry.1 resource = some cost ∧
    hopState context v entry.2 entry.1.task.cost.outputBytes resource.id cost.totalMs = some w) _ ?_ h
  intro entry hentry C states h
  refine foldlM_gathers (D := fun (resource : ResourceDescriptor F) w => ∃ cost,
    stepCost e' context v.outputBytes v.resourceId entry.1 resource = some cost ∧
    hopState context v entry.2 entry.1.task.cost.outputBytes resource.id cost.totalMs = some w) _ ?_ h
  intro resource hresource C states h
  refine (exists_congr fun states' => and_congr_left' (Eq.congr_left (advanceOnResource_step hnew hnew₀ hentry))).mpr ?_
  cases hcost : stepCost e' context v.outputBytes v.resourceId entry.1 resource with
  | none => exact ⟨states, rfl, h.congr fun w => by simp⟩
  | some cost =>
    cases hhop : hopState context v entry.2 entry.1.task.cost.outputBytes resource.id cost.totalMs with
    | none =>
      obtain ⟨hne, hnolink⟩ := hopState_none.mp hhop
      exact absurd ⟨entry.1, List.fst_mem_of_mem_zipIdx hentry, resource, hresource, by rw [hcost]; rfl, hne, hnolink⟩
        hlinked
    | some next =>
      refine ⟨insertBetterChainState states next, ?_, (h.insert hle next).congr fun w => by simp [hhop, eq_comm]⟩
      dsimp only
      rw [hhop]
      rfl

/-- A hop without a link ends the computation. -/
theorem advanceChainState_none (hnew : NamesNew e [role]) (hnew₀ : NamesNew e' [role])
    (hunlinked : Unlinked e' context role v) : advanceChainState e role context states v = none := by
  obtain ⟨implementation, himplementation, resource, hresource, hcost, hne, hnolink⟩ := hunlinked
  obtain ⟨i, hi⟩ := exists_mem_zipIdx himplementation
  obtain ⟨cost, hcost⟩ := Option.isSome_iff_exists.mp hcost
  unfold advanceChainState
  refine foldlM_eq_none (fun states => ?_) states hi
  refine foldlM_eq_none (fun states => ?_) states hresource
  refine (advanceOnResource_step hnew hnew₀ hi).trans ?_
  rw [hcost]
  dsimp only
  rw [hopState_none.mpr ⟨hne, hnolink⟩]
  rfl

/-- Nothing that later roles cost tells the states apart. -/
def SameFuture (v w : SeparateChainState F) : Prop := v.key = w.key ∧ v.outputBytes = w.outputBytes

omit [F64 F] in
theorem SameFuture.resourceId (h : SameFuture v w) : v.resourceId = w.resourceId := congrArg (·.2.1) h.1

theorem SameFuture.unlinked (h : SameFuture v w) (hw : Unlinked e context role w) : Unlinked e context role v := by
  unfold Unlinked at hw ⊢
  rw [h.2, h.resourceId]
  exact hw

/-- A state that costs less goes on to states that cost less. -/
theorem Hops.mono (hle : CostOrder le) {v' : SeparateChainState F} (hsame : SameFuture v' v)
    (hcheaper : le v'.totalMs v.totalMs) (h : Hops e context role v w) :
    ∃ w', Hops e context role v' w' ∧ w'.key = w.key ∧ le w'.totalMs w.totalMs := by
  obtain ⟨entry, hentry, resource, hresource, cost, hcost, hhop⟩ := h
  have hkey := hsame.1
  simp only [SeparateChainState.key, Prod.mk.injEq] at hkey
  obtain ⟨-, hid, hcross, htrigger⟩ := hkey
  rw [← hsame.2, ← hid] at hcost
  unfold hopState at hhop
  dsimp only at hhop
  by_cases hlocal : v.resourceId = resource.id
  · rw [if_pos hlocal] at hhop
    cases hhop
    refine ⟨{ v' with
      implementationIndex := entry.2, resourceId := resource.id, outputBytes := entry.1.task.cost.outputBytes,
      totalMs := v'.totalMs + cost.totalMs },
      ⟨entry, hentry, resource, hresource, cost, hcost, ?_⟩, ?_, hle.add _ hcheaper⟩
    · unfold hopState
      rw [if_pos (hid.trans hlocal)]
    · simp only [SeparateChainState.key, hcross, htrigger]
  · rw [if_neg hlocal] at hhop
    obtain ⟨link, hlink, rfl⟩ := Option.map_eq_some_iff.mp hhop
    let recommendation := context.advisor.evaluate v'.outputBytes link
    refine ⟨{
      implementationIndex := entry.2, resourceId := resource.id, outputBytes := entry.1.task.cost.outputBytes,
      totalMs := v'.totalMs + cost.totalMs
      crossTransferMs := v'.crossTransferMs + recommendation.estimatedSavedTransferMs
      hasCrossResourceEdge := true
      hasFusionTriggerEdge := v'.hasFusionTriggerEdge || recommendation.shouldFuse },
      ⟨entry, hentry, resource, hresource, cost, hcost, ?_⟩, ?_, hle.add _ hcheaper⟩
    · unfold hopState
      rw [if_neg (fun h => hlocal (hid.symm.trans h)), hid, hlink]
      rfl
    · simp only [SeparateChainState.key, htrigger, hsame.2, recommendation]

/-- The implementation of a state determines what it puts out. -/
theorem Hops.sameFuture {v' w' : SeparateChainState F} (h : Hops e context role v w) (h' : Hops e context role v' w')
    (hkey : w.key = w'.key) : SameFuture w w' := by
  refine ⟨hkey, ?_⟩
  have hstate : ∀ {v w : SeparateChainState F}, Hops e context role v w → ∃ entry ∈ role.implementations.zipIdx,
      w.implementationIndex = entry.2 ∧ w.outputBytes = entry.1.task.cost.outputBytes := by
    rintro v w ⟨entry, hentry, resource, -, cost, -, hhop⟩
    unfold hopState at hhop
    dsimp only at hhop
    split at hhop
    · cases hhop
      exact ⟨entry, hentry, rfl, rfl⟩
    · obtain ⟨link, -, rfl⟩ := Option.map_eq_some_iff.mp hhop
      exact ⟨entry, hentry, rfl, rfl⟩
  obtain ⟨entry, hentry, hi, hbytes⟩ := hstate h
  obtain ⟨entry', hentry', hi', hbytes'⟩ := hstate h'
  have hindex : entry.2 = entry'.2 := by
    rw [← hi, ← hi']
    exact congrArg (·.1) hkey
  have himplementation : entry.1 = entry'.1 := by
    rw [List.mem_zipIdx_iff_getElem?] at hentry hentry'
    rw [hindex, hentry'] at hentry
    exact (Option.some.inj hentry).symm
  rw [hbytes, hbytes', himplementation]

omit [F64 F] in
/-- The states that stand for `C`, and that the program has. -/
theorem Collected.mem_iff {C : SeparateChainState F → Prop} (h : Collected le C states) (hv : v ∈ states.values) :
    C v := by
  obtain ⟨k, hk⟩ := Map.mem_values.mp hv
  exact (h.real k v hk).1

omit [F64 F] in
theorem Collected.exists_values {C : SeparateChainState F → Prop} (h : Collected le C states) (hv : C v) :
    ∃ w ∈ states.values, w.key = v.key ∧ le w.totalMs v.totalMs := by
  obtain ⟨w, hw, hwle⟩ := h.covered v hv
  exact ⟨w, Map.mem_values.mpr ⟨_, hw⟩, (h.real _ w hw).2, hwle⟩

/-- One role: the computation ends at an unlinked hop or when the role has no placement, and otherwise collects the
states after the role. -/
theorem advanceChainStates_spec (hle : CostOrder le) (hnew : NamesNew e [role]) (hnew₀ : NamesNew e' [role])
    {C : SeparateChainState F → Prop} (h : Collected le C states)
    (hsame : ∀ v w, C v → C w → v.key = w.key → SameFuture v w) :
    (advanceChainStates e states role context = none ∧
      ((∃ v, C v ∧ Unlinked e' context role v) ∨ ∀ v w, C v → ¬Hops e' context role v w)) ∨
    ∃ states', advanceChainStates e states role context = some states' ∧ (∀ v, C v → ¬Unlinked e' context role v) ∧
      (∃ v w, C v ∧ Hops e' context role v w) ∧ Collected le (fun w => ∃ v, C v ∧ Hops e' context role v w) states' := by
  unfold advanceChainStates
  by_cases hunlinked : ∃ v, C v ∧ Unlinked e' context role v
  · obtain ⟨v, hv, hunlinked⟩ := hunlinked
    obtain ⟨w, hw, hkey, -⟩ := h.exists_values hv
    have hw' := (hsame w v (h.mem_iff hw) hv hkey).unlinked hunlinked
    obtain ⟨i, hi⟩ := exists_mem_zipIdx (Env.mem_iter (e := e).mpr hw)
    have hnone := foldlM_eq_none
      (f := fun next (entry : SeparateChainState F × Nat) => advanceChainState (e.sub entry.2) role context next entry.1)
      (fun states => advanceChainState_none (hnew.sub i) hnew₀ hw') ∅ hi
    exact .inl ⟨congrArg (· >>= _) hnone, .inl ⟨v, hv, hunlinked⟩⟩
  · have hlinked : ∀ v, C v → ¬Unlinked e' context role v := fun v hv hbad => hunlinked ⟨v, hv, hbad⟩
    obtain ⟨next, hnext, hcollected⟩ := foldlM_gathers (I := Collected le)
      (D := fun (entry : SeparateChainState F × Nat) w => Hops e' context role entry.1 w)
      (f := fun next (entry : SeparateChainState F × Nat) => advanceChainState (e.sub entry.2) role context next entry.1)
      ((e.iter states.values).zipIdx) (fun entry hentry C' states' h' =>
        advanceChainState_collects hle (hnew.sub _) hnew₀
          (hlinked _ (h.mem_iff (Env.mem_iter.mp (List.fst_mem_of_mem_zipIdx hentry)))) h') collected_empty
    -- the states at hand stand for all
    have hall : Collected le (fun w => ∃ v, C v ∧ Hops e' context role v w) next := by
      constructor
      · intro k w hw
        obtain ⟨hw', hkey⟩ := hcollected.real k w hw
        rcases hw' with hfalse | ⟨entry, hentry, hhops⟩
        · exact hfalse.elim
        · exact ⟨⟨entry.1, h.mem_iff (Env.mem_iter.mp (List.fst_mem_of_mem_zipIdx hentry)), hhops⟩, hkey⟩
      · rintro w ⟨v, hv, hhops⟩
        obtain ⟨v', hv', hkey, hcheaper⟩ := h.exists_values hv
        obtain ⟨w', hhops', hkey', hcheaper'⟩ := hhops.mono hle (hsame v' v (h.mem_iff hv') hv hkey) hcheaper
        obtain ⟨i, hi⟩ := exists_mem_zipIdx (Env.mem_iter (e := e).mpr hv')
        obtain ⟨w'', hw'', hle''⟩ := hcollected.covered w' (.inr ⟨(v', i), hi, hhops'⟩)
        exact ⟨w'', hkey' ▸ hw'', hle.trans hle'' hcheaper'⟩
    by_cases hsome : ∃ v w, C v ∧ Hops e' context role v w
    · refine .inr ⟨next, ?_, hlinked, hsome, hall⟩
      obtain ⟨v, w, hv, hhops⟩ := hsome
      obtain ⟨w', hw', -⟩ := hall.covered w ⟨v, hv, hhops⟩
      refine (congrArg (· >>= _) hnext).trans ?_
      change (if next.entries.isEmpty = true then none else some next) = some next
      rw [if_neg]
      intro hempty
      rw [Map.isEmpty_iff.mp hempty] at hw'
      cases hw'
    · refine .inl ⟨?_, .inr fun v w hv hhops => hsome ⟨v, w, hv, hhops⟩⟩
      refine (congrArg (· >>= _) hnext).trans ?_
      change (if next.entries.isEmpty = true then none else some next) = none
      rw [if_pos]
      rw [Map.isEmpty_iff]
      intro k
      cases hk : next.lookup k with
      | none => rfl
      | some w =>
        obtain ⟨⟨v, hv, hhops⟩, -⟩ := hall.real k w hk
        exact absurd ⟨v, w, hv, hhops⟩ hsome

/-! ## A list of roles -/

/-- The states after the roles, from the states `C` on. -/
def After (e : Env) (context : FusionContext F) :
    List (LogicalRoleSpec F) → (SeparateChainState F → Prop) → SeparateChainState F → Prop
  | [], C => C
  | role :: rest, C => After e context rest fun w => ∃ v, C v ∧ Hops e context role v w

/-- Some role can be placed over a missing link. -/
def Blocked (e : Env) (context : FusionContext F) : List (LogicalRoleSpec F) → (SeparateChainState F → Prop) → Prop
  | [], _ => False
  | role :: rest, C => (∃ v, C v ∧ Unlinked e context role v) ∨
      Blocked e context rest fun w => ∃ v, C v ∧ Hops e context role v w

theorem after_empty (chain : List (LogicalRoleSpec F)) {C : SeparateChainState F → Prop} (h : ∀ v, ¬C v) :
    ∀ w, ¬After e context chain C w := by
  induction chain generalizing C with
  | nil => exact h
  | cons role rest ih =>
    apply ih
    rintro w ⟨v, hv, -⟩
    exact h v hv

/-- The computation over the roles ends at a missing link or when some role has no placement, and otherwise collects the
states after them. -/
theorem advanceChain_spec (hle : CostOrder le) (hnew₀ : NamesNew e' chain) : ∀ (n : Nat), NamesNew e chain →
    ∀ {C : SeparateChainState F → Prop} {states : ChainStates F}, Collected le C states → (∃ v, C v) →
    (∀ v w, C v → C w → v.key = w.key → SameFuture v w) →
    ((chain.zipIdx n).foldlM (fun states (role, i) => advanceChainStates (e.sub i) states role context) states = none ∧
      (Blocked e' context chain C ∨ ∀ w, ¬After e' context chain C w)) ∨
    ∃ states', (chain.zipIdx n).foldlM (fun states (role, i) => advanceChainStates (e.sub i) states role context) states =
        some states' ∧ ¬Blocked e' context chain C ∧ (∃ w, After e' context chain C w) ∧
      Collected le (After e' context chain C) states' := by
  induction chain with
  | nil => exact fun n _ C states h hsome _ => .inr ⟨states, rfl, id, hsome, h⟩
  | cons role rest ih =>
    intro n hnew C states h hsome hsame
    have hrole : ∀ {e : Env}, NamesNew e (role :: rest) → NamesNew e [role] := fun h n hn r hr =>
      h n hn r (List.mem_singleton.mp hr ▸ List.mem_cons_self ..)
    have hcons : ((role :: rest).zipIdx n).foldlM
        (fun states (role, i) => advanceChainStates (e.sub i) states role context) states =
        advanceChainStates (e.sub n) states role context >>= fun next =>
          (rest.zipIdx (n + 1)).foldlM
            (fun states (role, i) => advanceChainStates (e.sub i) states role context) next := by
      rw [List.zipIdx_cons, List.foldlM_cons]
    rw [hcons]
    rcases advanceChainStates_spec hle ((hrole hnew).sub n) (hrole hnew₀) h hsame with
      ⟨hnone, hblocked | hdead⟩ | ⟨next, hnext, hlinked, ⟨v, w, hv, hhops⟩, hcollected⟩
    · rw [hnone]
      exact .inl ⟨rfl, .inl (.inl hblocked)⟩
    · rw [hnone]
      refine .inl ⟨rfl, .inr fun w => after_empty rest (fun w hw => ?_) w⟩
      obtain ⟨v, hv, hhops⟩ := hw
      exact hdead v w hv hhops
    · rw [hnext]
      have hunblocked : ∀ {P : Prop}, (∃ v, C v ∧ Unlinked e' context role v) ∨ P → P := by
        rintro P (⟨v, hv, hbad⟩ | hp)
        · exact absurd hbad (hlinked v hv)
        · exact hp
      rcases ih hnew₀.tail (n + 1) hnew.tail hcollected ⟨w, v, hv, hhops⟩ (fun w w' hw hw' hkey => by
          obtain ⟨v, -, hhops⟩ := hw
          obtain ⟨v', -, hhops'⟩ := hw'
          exact hhops.sameFuture hhops' hkey) with ⟨hnone, hend⟩ | ⟨states', hstates', hfree, hafter, hall⟩
      · exact .inl ⟨hnone, hend.imp .inr id⟩
      · exact .inr ⟨states', hstates', fun hblocked => hfree (hunblocked hblocked), hafter, hall⟩

/-! ## States and ways -/

/-- What a hop does to a state. -/
theorem Hops.step (h : Hops e context role v w) :
    ∃ implementation ∈ role.implementations, ∃ resource ∈ context.resources, ∃ cost,
      stepCost e context v.outputBytes v.resourceId implementation resource = some cost ∧
      w.outputBytes = implementation.task.cost.outputBytes ∧ w.resourceId = resource.id ∧
      w.totalMs = v.totalMs + cost.totalMs ∧
      w.hasCrossResourceEdge = (v.hasCrossResourceEdge || decide (v.resourceId ≠ resource.id)) := by
  obtain ⟨entry, hentry, resource, hresource, cost, hcost, hhop⟩ := h
  refine ⟨entry.1, List.fst_mem_of_mem_zipIdx hentry, resource, hresource, cost, hcost, ?_⟩
  unfold hopState at hhop
  dsimp only at hhop
  split at hhop
  · rename_i hlocal
    cases hhop
    exact ⟨rfl, rfl, rfl, by simp [hlocal]⟩
  · rename_i hcross
    obtain ⟨link, -, rfl⟩ := Option.map_eq_some_iff.mp hhop
    exact ⟨rfl, rfl, rfl, by simp [hcross]⟩

/-- A feasible placement is a hop, or it misses a link. -/
theorem exists_hops (himplementation : implementation ∈ role.implementations) (hresource : resource ∈ context.resources)
    {cost : PlacementBreakdown F}
    (hcost : stepCost e context v.outputBytes v.resourceId implementation resource = some cost)
    (hlinked : ¬Unlinked e context role v) : ∃ w, Hops e context role v w ∧
      w.outputBytes = implementation.task.cost.outputBytes ∧ w.resourceId = resource.id ∧
      w.totalMs = v.totalMs + cost.totalMs ∧
      w.hasCrossResourceEdge = (v.hasCrossResourceEdge || decide (v.resourceId ≠ resource.id)) := by
  obtain ⟨i, hi⟩ := exists_mem_zipIdx himplementation
  cases hhop : hopState context v i implementation.task.cost.outputBytes resource.id cost.totalMs with
  | none =>
    obtain ⟨hne, hnolink⟩ := hopState_none.mp hhop
    exact absurd ⟨implementation, himplementation, resource, hresource, by rw [hcost]; rfl, hne, hnolink⟩ hlinked
  | some w =>
    refine ⟨w, ⟨(implementation, i), hi, resource, hresource, cost, hcost, hhop⟩, ?_⟩
    unfold hopState at hhop
    dsimp only at hhop
    split at hhop
    · rename_i hlocal
      cases hhop
      exact ⟨rfl, rfl, rfl, by simp [hlocal]⟩
    · rename_i hcross
      obtain ⟨link, -, rfl⟩ := Option.map_eq_some_iff.mp hhop
      exact ⟨rfl, rfl, rfl, by simp [hcross]⟩

/-- The roles get stuck if and only if some state does. -/
theorem blocked_iff (chain : List (LogicalRoleSpec F)) {C : SeparateChainState F → Prop} :
    Blocked e context chain C ↔ ∃ v, C v ∧ GetsStuck e context v.outputBytes v.resourceId chain := by
  induction chain generalizing C with
  | nil => simp [Blocked, GetsStuck]
  | cons role rest ih =>
    rw [Blocked, ih]
    constructor
    · rintro (⟨v, hv, implementation, himplementation, resource, hresource, hcost, hmissing⟩ |
        ⟨w, ⟨v, hv, hhops⟩, hstuck⟩)
      · have hempty := stepCost_unlinked hcost hmissing.1 hmissing.2
        exact ⟨v, hv, implementation, himplementation, resource, hresource, hcost, .inl ⟨hempty, hmissing⟩⟩
      · obtain ⟨implementation, himplementation, resource, hresource, cost, hcost, hbytes, hid, -⟩ := hhops.step
        rw [hbytes, hid] at hstuck
        exact ⟨v, hv, implementation, himplementation, resource, hresource, by rw [hcost]; rfl, .inr hstuck⟩
    · rintro ⟨v, hv, implementation, himplementation, resource, hresource, hcost, hmissing | hstuck⟩
      · exact .inl ⟨v, hv, implementation, himplementation, resource, hresource, hcost, hmissing.2⟩
      · by_cases hunlinked : Unlinked e context role v
        · exact .inl ⟨v, hv, hunlinked⟩
        · obtain ⟨cost, hcost⟩ := Option.isSome_iff_exists.mp hcost
          obtain ⟨w, hhops, hbytes, hid, -⟩ := exists_hops himplementation hresource hcost hunlinked
          exact .inr ⟨w, ⟨v, hv, hhops⟩, by rw [hbytes, hid]; exact hstuck⟩

/-- A state after the roles belongs to a way through them. -/
theorem After.way {chain : List (LogicalRoleSpec F)} {C : SeparateChainState F → Prop} {w : SeparateChainState F}
    (h : After e context chain C w) : ∃ v way, C v ∧ Assigns context chain way ∧
      tailTotal e context v.totalMs v.outputBytes v.resourceId way = some w.totalMs ∧
      w.hasCrossResourceEdge = (v.hasCrossResourceEdge || crossesFrom v.resourceId way) := by
  induction chain generalizing C with
  | nil => exact ⟨w, [], h, .nil, rfl, by simp [crossesFrom]⟩
  | cons role rest ih =>
    have hrest : After e context rest (fun u => ∃ v, C v ∧ Hops e context role v u) w := h
    obtain ⟨u, way, ⟨v, hv, hhops⟩, hassigns, htotal, hcross⟩ := ih hrest
    obtain ⟨implementation, himplementation, resource, hresource, cost, hcost, hbytes, hid, hms, hcross'⟩ := hhops.step
    refine ⟨v, (implementation, resource) :: way, hv, .cons ⟨himplementation, hresource⟩ hassigns, ?_, ?_⟩
    · rw [tailTotal, hcost]
      rw [hms, hbytes, hid] at htotal
      exact htotal
    · rw [hcross, hcross', hid, crossesFrom, Bool.or_assoc]

/-- A way through roles that do not get stuck leads to a state after them. -/
theorem exists_after {chain : List (LogicalRoleSpec F)} {C : SeparateChainState F → Prop}
    (hfree : ¬Blocked e context chain C) {v : SeparateChainState F} {way : List (RolePlacement F)} {total : F} (hv : C v)
    (hassigns : Assigns context chain way)
    (htotal : tailTotal e context v.totalMs v.outputBytes v.resourceId way = some total) :
    ∃ w, After e context chain C w ∧ w.totalMs = total ∧
      w.hasCrossResourceEdge = (v.hasCrossResourceEdge || crossesFrom v.resourceId way) := by
  induction chain generalizing C v way with
  | nil =>
    cases hassigns
    exact ⟨v, hv, Option.some.inj htotal, by simp [crossesFrom]⟩
  | cons role rest ih =>
    cases hassigns with
    | @cons _ placement _ others hplacement hothers =>
      obtain ⟨implementation, resource⟩ := placement
      rw [Blocked, not_or] at hfree
      rw [tailTotal] at htotal
      obtain ⟨cost, hcost, htotal⟩ := Option.bind_eq_some_iff.mp htotal
      obtain ⟨u, hhops, hbytes, hid, hms, hcross⟩ := exists_hops hplacement.1 hplacement.2 hcost
        fun hbad => hfree.1 ⟨v, hv, hbad⟩
      obtain ⟨w, hafter, hwtotal, hwcross⟩ := ih hfree.2 (v := u) ⟨v, hv, hhops⟩ hothers
        (by rw [hms, hbytes, hid]; exact htotal)
      refine ⟨w, hafter, hwtotal, ?_⟩
      rw [hwcross, hcross, hid, crossesFrom, Bool.or_assoc]

/-! ## The whole chain -/

/-- The state after the first role. -/
def firstState (implementationIndex : Nat) (outputBytes : UInt64) (resource : ResourceId) (totalMs : F) :
    SeparateChainState F :=
  { implementationIndex, resourceId := resource, outputBytes, totalMs, crossTransferMs := F64.ofNat 0,
    hasCrossResourceEdge := false, hasFusionTriggerEdge := false }

/-- `w` is a state after the first role. -/
def Starts (e : Env) (context : FusionContext F) (dependencyInputs : List ObjectId) (first : LogicalRoleSpec F)
    (w : SeparateChainState F) : Prop :=
  ∃ entry ∈ first.implementations.zipIdx, ∃ resource ∈ context.resources, ∃ cost,
    firstCost e context dependencyInputs entry.1 resource = some cost ∧
    w = firstState entry.2 entry.1.task.cost.outputBytes resource.id cost.totalMs

theorem firstChainStates_collects (hle : CostOrder le) (e e' : Env) (first : LogicalRoleSpec F) :
    Collected le (Starts e' context dependencyInputs first) (firstChainStates e first dependencyInputs context) := by
  have hgathers := foldl_gathers (I := Collected le) (D := fun (entry : RoleImplementation F × Nat) w =>
    ∃ resource ∈ context.resources, ∃ cost, firstCost e' context dependencyInputs entry.1 resource = some cost ∧
      w = firstState entry.2 entry.1.task.cost.outputBytes resource.id cost.totalMs)
    (f := fun states entry => context.resources.foldl (fun states resource =>
      match firstCost (e.sub entry.2) context dependencyInputs entry.1 resource with
      | none => states
      | some cost => insertBetterChainState states
          (firstState entry.2 entry.1.task.cost.outputBytes resource.id cost.totalMs)) states)
    first.implementations.zipIdx (fun entry _ C states h => ?_) collected_empty
  · exact hgathers.congr fun w => by simp [Starts]
  · refine foldl_gathers (D := fun (resource : ResourceDescriptor F) w => ∃ cost,
      firstCost e' context dependencyInputs entry.1 resource = some cost ∧
      w = firstState entry.2 entry.1.task.cost.outputBytes resource.id cost.totalMs) _ ?_ h
    intro resource _ C states h
    rw [firstCost_env (e.sub entry.2) e']
    cases firstCost e' context dependencyInputs entry.1 resource with
    | none => exact h.congr fun w => by simp
    | some cost => exact (h.insert hle _).congr fun w => by simp

theorem Starts.sameFuture {first : LogicalRoleSpec F} (h : Starts e context dependencyInputs first v)
    (h' : Starts e context dependencyInputs first w) (hkey : v.key = w.key) : SameFuture v w := by
  refine ⟨hkey, ?_⟩
  obtain ⟨entry, hentry, resource, -, cost, -, rfl⟩ := h
  obtain ⟨entry', hentry', resource', -, cost', -, rfl⟩ := h'
  have hindex : entry.2 = entry'.2 := congrArg (·.1) hkey
  rw [List.mem_zipIdx_iff_getElem?] at hentry hentry'
  rw [hindex, hentry'] at hentry
  have himplementation := Option.some.inj hentry
  rw [firstState, firstState, himplementation]

/-- A state after the chain belongs to a way through it. -/
theorem After.chainWay {first : LogicalRoleSpec F}
    (h : After e context roles (Starts e context dependencyInputs first) w) :
    ∃ way, Assigns context (first :: roles) way ∧ chainTotal e context dependencyInputs way = some w.totalMs ∧
      w.hasCrossResourceEdge = crosses way := by
  obtain ⟨v, way, ⟨entry, hentry, resource, hresource, cost, hcost, rfl⟩, hassigns, htotal, hcross⟩ := h.way
  refine ⟨(entry.1, resource) :: way, .cons ⟨List.fst_mem_of_mem_zipIdx hentry, hresource⟩ hassigns, ?_, ?_⟩
  · rw [chainTotal, hcost]
    exact htotal
  · rw [hcross, crosses]
    rfl

/-- A way through a chain that does not get stuck leads to a state after it. -/
theorem exists_after_chain {first : LogicalRoleSpec F} {way : List (RolePlacement F)} {total : F}
    (hfree : ¬Blocked e context roles (Starts e context dependencyInputs first))
    (hassigns : Assigns context (first :: roles) way)
    (htotal : chainTotal e context dependencyInputs way = some total) :
    ∃ w, After e context roles (Starts e context dependencyInputs first) w ∧ w.totalMs = total ∧
      w.hasCrossResourceEdge = crosses way := by
  cases hassigns with
  | @cons _ placement _ others hplacement hothers =>
    obtain ⟨implementation, resource⟩ := placement
    obtain ⟨i, hi⟩ := exists_mem_zipIdx hplacement.1
    rw [chainTotal] at htotal
    obtain ⟨cost, hcost, htotal⟩ := Option.bind_eq_some_iff.mp htotal
    obtain ⟨w, hafter, hwtotal, hwcross⟩ := exists_after hfree
      (v := firstState i implementation.task.cost.outputBytes resource.id cost.totalMs)
      ⟨(implementation, i), hi, resource, hplacement.2, cost, hcost, rfl⟩ hothers htotal
    exact ⟨w, hafter, hwtotal, hwcross⟩

/-- The chain gets stuck if and only if the roles after the first do. -/
theorem chainGetsStuck_iff {first : LogicalRoleSpec F} : ChainGetsStuck e context dependencyInputs (first :: roles) ↔
    Blocked e context roles (Starts e context dependencyInputs first) := by
  rw [blocked_iff]
  constructor
  · rintro ⟨implementation, himplementation, resource, hresource, hcost, hstuck⟩
    obtain ⟨i, hi⟩ := exists_mem_zipIdx himplementation
    obtain ⟨cost, hcost⟩ := Option.isSome_iff_exists.mp hcost
    exact ⟨_, ⟨(implementation, i), hi, resource, hresource, cost, hcost, rfl⟩, hstuck⟩
  · rintro ⟨v, ⟨entry, hentry, resource, hresource, cost, hcost, rfl⟩, hstuck⟩
    exact ⟨entry.1, List.fst_mem_of_mem_zipIdx hentry, resource, hresource, by rw [hcost]; rfl, hstuck⟩

/-- The cheapest of the states. -/
def cheapest (states : List (SeparateChainState F)) : Option (SeparateChainState F) :=
  minBy (fun v w => F64.totalCmp v.totalMs w.totalMs) states

/-- The state from which the rest of a chain starts; no implementation has its index. -/
def seedState (outputBytes : UInt64) (previous : ResourceId) (initialTotalMs : F) : SeparateChainState F :=
  firstState (2 ^ 64 - 1) outputBytes previous initialTotalMs

/-- What the computation over a chain comes to: nothing when the chain gets stuck or has no feasible way, and otherwise
the cheapest of the collected states, and the cheapest of those that use two resources. -/
theorem separateChainPaths_spec (hle : CostOrder le) {first : LogicalRoleSpec F} (hnew : NamesNew e (first :: roles))
    (hnew₀ : NamesNew e' (first :: roles)) :
    (separateChainPaths e (first :: roles) dependencyInputs context = none ∧
      (Blocked e' context roles (Starts e' context dependencyInputs first) ∨
        ∀ w, ¬After e' context roles (Starts e' context dependencyInputs first) w)) ∨
    ∃ states paths, separateChainPaths e (first :: roles) dependencyInputs context = some paths ∧
      ¬Blocked e' context roles (Starts e' context dependencyInputs first) ∧
      Collected le (After e' context roles (Starts e' context dependencyInputs first)) states ∧
      cheapest ((e.sub 2).iter states.values) = some paths.best ∧
      cheapest (((e.sub 3).iter states.values).filter (·.hasCrossResourceEdge)) = paths.bestCrossResource := by
  have hfirst : Collected le (Starts e' context dependencyInputs first)
      (firstChainStates (e.sub 0) first dependencyInputs context) := firstChainStates_collects hle (e.sub 0) e' first
  have hunfold : separateChainPaths e (first :: roles) dependencyInputs context =
      (if (firstChainStates (e.sub 0) first dependencyInputs context).entries.isEmpty then none
      else do
        let states ← advanceChain (e.sub 1) context roles (firstChainStates (e.sub 0) first dependencyInputs context)
        let best ← cheapest ((e.sub 2).iter states.values)
        some ⟨best, cheapest (((e.sub 3).iter states.values).filter (·.hasCrossResourceEdge))⟩) := rfl
  rw [hunfold]
  by_cases hempty : (firstChainStates (e.sub 0) first dependencyInputs context).entries.isEmpty = true
  · rw [if_pos hempty]
    refine .inl ⟨rfl, .inr (after_empty roles fun v hv => ?_)⟩
    obtain ⟨w, hw, -⟩ := hfirst.covered v hv
    rw [Map.isEmpty_iff.mp hempty] at hw
    cases hw
  · rw [if_neg hempty]
    have hsome : ∃ v, Starts e' context dependencyInputs first v := by
      by_contra hnone
      refine hempty (Map.isEmpty_iff.mpr fun k => ?_)
      cases hk : (firstChainStates (e.sub 0) first dependencyInputs context).lookup k with
      | none => rfl
      | some w => exact absurd ⟨w, (hfirst.real k w hk).1⟩ hnone
    rcases advanceChain_spec hle hnew₀.tail 0 (hnew.tail.sub 1) hfirst hsome fun v w hv hw => hv.sameFuture hw with
      ⟨hnone, hend⟩ | ⟨states, hstates, hfree, ⟨w, hw⟩, hall⟩
    · refine .inl ⟨?_, hend⟩
      rw [advanceChain, hnone]
      rfl
    · obtain ⟨u, hu, -⟩ := hall.exists_values hw
      cases hbest : cheapest ((e.sub 2).iter states.values) with
      | none =>
        have hmem := Env.mem_iter (e := e.sub 2).mpr hu
        rw [minBy_none.mp hbest] at hmem
        cases hmem
      | some best =>
        refine .inr ⟨states, ⟨best, _⟩, ?_, hfree, hall, hbest, rfl⟩
        rw [advanceChain, hstates, Option.bind_eq_bind, Option.bind_some, hbest]
        rfl

/-- The same for the rest of a chain, from a given resource on. -/
theorem bestChainTailTotal_spec (hle : CostOrder le) (bytes : UInt64) (previous : ResourceId) (initial : F)
    (hnew : NamesNew e chain) (hnew₀ : NamesNew e' chain) :
    (bestChainTailTotal e chain bytes previous initial context = none ∧
      (Blocked e' context chain (· = seedState bytes previous initial) ∨
        ∀ w, ¬After e' context chain (· = seedState bytes previous initial) w)) ∨
    ∃ states total, bestChainTailTotal e chain bytes previous initial context = some total ∧
      ¬Blocked e' context chain (· = seedState bytes previous initial) ∧
      Collected le (After e' context chain (· = seedState bytes previous initial)) states ∧
      minBy F64.totalCmp (((e.sub 1).iter states.values).map (·.totalMs)) = some total := by
  generalize hseed : seedState bytes previous initial = seed
  have hstart : Collected le (· = seed) ((∅ : ChainStates F).insert seed.key seed) := by
    constructor
    · intro k w hw
      rw [Map.lookup_insert_eq] at hw
      split at hw
      · rename_i hk
        cases hw
        exact ⟨rfl, hk.symm⟩
      · simp at hw
    · rintro v rfl
      exact ⟨v, by rw [Map.lookup_insert_eq, if_pos rfl], hle.refl _⟩
  have hunfold : bestChainTailTotal e chain bytes previous initial context =
      (advanceChain (e.sub 0) context chain ((∅ : ChainStates F).insert seed.key seed)).bind fun states =>
        minBy F64.totalCmp (((e.sub 1).iter states.values).map (·.totalMs)) := by
    subst hseed
    rfl
  rw [hunfold]
  rcases advanceChain_spec hle hnew₀ 0 (hnew.sub 0) hstart ⟨seed, rfl⟩
    (fun v w hv hw _ => by rw [hv, hw]; exact ⟨rfl, rfl⟩) with ⟨hnone, hend⟩ | ⟨states, hstates, hfree, ⟨w, hw⟩, hall⟩
  · refine .inl ⟨?_, hend⟩
    rw [advanceChain, hnone]
    rfl
  · obtain ⟨u, hu, -⟩ := hall.exists_values hw
    cases hbest : minBy F64.totalCmp (((e.sub 1).iter states.values).map (·.totalMs)) with
    | none =>
      have hmem := Env.mem_iter (e := e.sub 1).mpr hu
      rw [List.map_eq_nil_iff.mp (minBy_none.mp hbest)] at hmem
      cases hmem
    | some total =>
      refine .inr ⟨states, total, ?_, hfree, hall, hbest⟩
      rw [advanceChain, hstates, Option.bind_some, hbest]

/-- The computation over a chain comes to a result if and only if the chain has a feasible way and does not get stuck. -/
theorem separateChainPaths_isSome (hnew : NamesNew e roles) (hnew₀ : NamesNew e' roles) :
    (separateChainPaths e roles dependencyInputs context).isSome = true ↔
      (∃ way total, Assigns context roles way ∧ chainTotal e' context dependencyInputs way = some total) ∧
        ¬ChainGetsStuck e' context dependencyInputs roles := by
  cases roles with
  | nil =>
    refine iff_of_false (by simp [separateChainPaths]) ?_
    rintro ⟨⟨way, total, hassigns, htotal⟩, -⟩
    cases hassigns
    cases htotal
  | cons first rest =>
    rw [chainGetsStuck_iff]
    rcases separateChainPaths_spec costOrder_any hnew hnew₀ with
      ⟨hnone, hend⟩ | ⟨states, paths, hpaths, hfree, hall, hbest, -⟩
    · rw [hnone]
      refine iff_of_false (by simp) ?_
      rintro ⟨⟨way, total, hassigns, htotal⟩, hfree⟩
      obtain ⟨w, hw, -⟩ := exists_after_chain hfree hassigns htotal
      exact hend.elim hfree fun hdead => hdead w hw
    · rw [hpaths]
      obtain ⟨way, hassigns, htotal, -⟩ := (hall.mem_iff (Env.mem_iter.mp (minBy_mem hbest))).chainWay
      exact iff_of_true rfl ⟨⟨way, _, hassigns, htotal⟩, hfree⟩

/-- The same for the rest of a chain, from a given resource on. -/
theorem bestChainTailTotal_isSome (hnew : NamesNew e roles) (hnew₀ : NamesNew e' roles) (bytes : UInt64)
    (previous : ResourceId) (initial : F) :
    (bestChainTailTotal e roles bytes previous initial context).isSome = true ↔
      (∃ way total, Assigns context roles way ∧ tailTotal e' context initial bytes previous way = some total) ∧
        ¬GetsStuck e' context bytes previous roles := by
  have hstuck : GetsStuck e' context bytes previous roles ↔
      Blocked e' context roles (· = seedState bytes previous initial) := by
    rw [blocked_iff]
    simp [seedState, firstState]
  rw [hstuck]
  rcases bestChainTailTotal_spec costOrder_any bytes previous initial hnew hnew₀ with
    ⟨hnone, hend⟩ | ⟨states, total, htotal, hfree, hall, hbest⟩
  · rw [hnone]
    refine iff_of_false (by simp) ?_
    rintro ⟨⟨way, total, hassigns, htotal⟩, hfree⟩
    obtain ⟨w, hw, -⟩ := exists_after hfree rfl hassigns htotal
    exact hend.elim hfree fun hdead => hdead w hw
  · rw [htotal]
    obtain ⟨w, hw, -⟩ := List.mem_map.mp (minBy_mem hbest)
    obtain ⟨v, way, rfl, hassigns, hway, -⟩ := (hall.mem_iff (Env.mem_iter.mp hw)).way
    exact iff_of_true rfl ⟨⟨way, _, hassigns, hway⟩, hfree⟩

/-! ## Small chains -/

def sampleContext (links : List (LinkProfile ℚ)) : FusionContext ℚ where
  scheduler := .default
  advisor := .default
  resources := [sampleResource 1, sampleResource 2]
  objects := ∅
  topology := ⟨links⟩

/-- A role that puts out `outputBytes`, then one that reads them. -/
def samplePair (outputBytes : UInt64) : List (LogicalRoleSpec ℚ) :=
  [sampleRole "first" outputBytes, sampleRole "second" 1]

/-- Both roles on the first resource. -/
def sampleWay (outputBytes : UInt64) : List (RolePlacement ℚ) :=
  (samplePair outputBytes).flatMap fun role => role.implementations.map fun implementation =>
    (implementation, sampleResource 1)

omit [F64 F] in
/-- Templates without inputs have no input of a new name. -/
theorem namesNew_of_no_inputs
    (h : ∀ role ∈ roles, ∀ implementation ∈ role.implementations, implementation.task.inputs = []) :
    NamesNew e roles := by
  intro n _ role hrole implementation himplementation
  rw [h role hrole implementation himplementation]
  exact List.not_mem_nil

theorem namesNew_sample (outputBytes : UInt64) : NamesNew sampleNames (samplePair outputBytes) :=
  namesNew_of_no_inputs (by simp [samplePair, sampleRole])

theorem assigns_sample (links : List (LinkProfile ℚ)) (outputBytes : UInt64) :
    Assigns (sampleContext links) (samplePair outputBytes) (sampleWay outputBytes) :=
  .cons ⟨List.mem_cons_self .., List.mem_cons_self ..⟩ (.cons ⟨List.mem_cons_self .., List.mem_cons_self ..⟩ .nil)

/-! ## Whether a way is found -/

/-- **No dead ends.** For roles that have a feasible way, the computation over a chain, and the one over the rest of a
chain from a given resource on, come to a result if and only if they do not get stuck. -/
theorem chain_found_iff (e : Env) (context : FusionContext F) (roles : List (LogicalRoleSpec F))
    (hnew : NamesNew e roles) :
    (∀ dependencyInputs, (∃ way total, Assigns context roles way ∧
        chainTotal e context dependencyInputs way = some total) →
      ((separateChainPaths e roles dependencyInputs context).isSome = true ↔
        ¬ChainGetsStuck e context dependencyInputs roles)) ∧
    ∀ bytes previous initial, (∃ way total, Assigns context roles way ∧
        tailTotal e context initial bytes previous way = some total) →
      ((bestChainTailTotal e roles bytes previous initial context).isSome = true ↔
        ¬GetsStuck e context bytes previous roles) := by
  constructor
  · intro dependencyInputs hfeasible
    rw [separateChainPaths_isSome hnew hnew, and_iff_right hfeasible]
  · intro bytes previous initial hfeasible
    rw [bestChainTailTotal_isSome hnew hnew, and_iff_right hfeasible]

/-- Nothing to move and no link: both roles could run on the first resource, and the computation gives up. -/
theorem chain_gives_up : (∃ way total, Assigns (sampleContext []) (samplePair 0) way ∧
    chainTotal sampleNames (sampleContext []) [] way = some total) ∧
    (separateChainPaths sampleNames (samplePair 0) [] (sampleContext [])).isSome = false :=
  ⟨⟨sampleWay 0, 2, assigns_sample [] 0, by decide +kernel⟩, by decide +kernel⟩

theorem chain_found_sample : (separateChainPaths sampleNames (samplePair 8) [] (sampleContext [])).isSome = true ↔
    ¬ChainGetsStuck sampleNames (sampleContext []) [] (samplePair 8) :=
  (chain_found_iff sampleNames (sampleContext []) (samplePair 8) (namesNew_sample 8)).1 []
    ⟨sampleWay 8, 2, assigns_sample [] 8, by decide +kernel⟩

/-! ## On rationals -/

section Exact

variable {context : FusionContext ℚ} {roles : List (LogicalRoleSpec ℚ)} {first : LogicalRoleSpec ℚ}
  {states : ChainStates ℚ} {state : SeparateChainState ℚ}

/-- The cheapest state stands for the cheapest way. -/
theorem cheapest_isLeast (hfree : ¬Blocked e context roles (Starts e context dependencyInputs first))
    (hall : Collected (fun a b : ℚ => a ≤ b) (After e context roles (Starts e context dependencyInputs first)) states)
    {e' : Env} (hcheapest : cheapest (e'.iter states.values) = some state) :
    IsLeast {total | ∃ way, Assigns context (first :: roles) way ∧
      chainTotal e context dependencyInputs way = some total} state.totalMs := by
  constructor
  · obtain ⟨way, hassigns, htotal, -⟩ := (hall.mem_iff (Env.mem_iter.mp (minBy_mem hcheapest))).chainWay
    exact ⟨way, hassigns, htotal⟩
  · rintro total ⟨way, hassigns, htotal⟩
    obtain ⟨w, hafter, rfl, -⟩ := exists_after_chain hfree hassigns htotal
    obtain ⟨u, hu, -, hle⟩ := hall.exists_values hafter
    exact (minBy_le hcheapest u (Env.mem_iter.mpr hu)).trans hle

/-- The same for the states and the ways that use two resources. -/
theorem cheapest_crossing (hfree : ¬Blocked e context roles (Starts e context dependencyInputs first))
    (hall : Collected (fun a b : ℚ => a ≤ b) (After e context roles (Starts e context dependencyInputs first)) states)
    {e' : Env} {best : Option (SeparateChainState ℚ)}
    (hcheapest : cheapest ((e'.iter states.values).filter (·.hasCrossResourceEdge)) = best) :
    (best.isSome = true ↔ ∃ way total, Assigns context (first :: roles) way ∧ crosses way = true ∧
      chainTotal e context dependencyInputs way = some total) ∧
    ∀ state, best = some state → IsLeast {total | ∃ way, Assigns context (first :: roles) way ∧ crosses way = true ∧
      chainTotal e context dependencyInputs way = some total} state.totalMs := by
  -- the states of the ways that use two resources
  have hreal : ∀ {state}, best = some state → ∃ way, Assigns context (first :: roles) way ∧ crosses way = true ∧
      chainTotal e context dependencyInputs way = some state.totalMs := by
    rintro state rfl
    obtain ⟨hmem, hcross⟩ := List.mem_filter.mp (minBy_mem hcheapest)
    obtain ⟨way, hassigns, htotal, hcrosses⟩ := (hall.mem_iff (Env.mem_iter.mp hmem)).chainWay
    exact ⟨way, hassigns, hcrosses.symm.trans hcross, htotal⟩
  have hcovered : ∀ {way total}, Assigns context (first :: roles) way → crosses way = true →
      chainTotal e context dependencyInputs way = some total →
      ∃ u ∈ (e'.iter states.values).filter (·.hasCrossResourceEdge), u.totalMs ≤ total := by
    intro way total hassigns hcrosses htotal
    obtain ⟨w, hafter, rfl, hcross⟩ := exists_after_chain hfree hassigns htotal
    obtain ⟨u, hu, hkey, hle⟩ := hall.exists_values hafter
    have hu' : u.hasCrossResourceEdge = w.hasCrossResourceEdge := congrArg (·.2.2.1) hkey
    exact ⟨u, List.mem_filter.mpr ⟨Env.mem_iter.mpr hu, by rw [hu', hcross, hcrosses]⟩, hle⟩
  constructor
  · constructor
    · intro hsome
      obtain ⟨state, hstate⟩ := Option.isSome_iff_exists.mp hsome
      obtain ⟨way, hway⟩ := hreal hstate
      exact ⟨way, state.totalMs, hway⟩
    · rintro ⟨way, total, hassigns, hcrosses, htotal⟩
      obtain ⟨u, hu, -⟩ := hcovered hassigns hcrosses htotal
      rw [Option.isSome_iff_ne_none]
      rintro rfl
      rw [minBy_none.mp hcheapest] at hu
      cases hu
  · rintro state rfl
    refine ⟨hreal rfl, ?_⟩
    rintro total ⟨way, hassigns, hcrosses, htotal⟩
    obtain ⟨u, hu, hle⟩ := hcovered hassigns hcrosses htotal
    exact (minBy_le hcheapest u hu).trans hle

/-- A tail costs the same whatever has been spent before it. -/
theorem tailTotal_add (spent : ℚ) (way : List (RolePlacement ℚ)) (total : ℚ) (bytes : UInt64) (previous : ResourceId) :
    tailTotal e context (spent + total) bytes previous way =
      (tailTotal e context total bytes previous way).map (spent + ·) := by
  induction way generalizing total bytes previous with
  | nil => rfl
  | cons placement rest ih =>
    obtain ⟨implementation, resource⟩ := placement
    rw [tailTotal, tailTotal]
    cases stepCost e context bytes previous implementation resource with
    | none => rfl
    | some cost =>
      simp only [Option.bind_eq_bind, Option.bind_some]
      rw [add_assoc, ih]

/-- The result of a computation over a chain: the least total of a feasible way, and of one that uses two resources. -/
theorem separateChainPaths_least (hnew : NamesNew e roles) (hnew₀ : NamesNew e' roles) {paths : SeparateChainPaths ℚ}
    (hpaths : separateChainPaths e roles dependencyInputs context = some paths) :
    IsLeast {total | ∃ way, Assigns context roles way ∧ chainTotal e' context dependencyInputs way = some total}
      paths.best.totalMs ∧
    (paths.bestCrossResource.isSome = true ↔ ∃ way total, Assigns context roles way ∧ crosses way = true ∧
      chainTotal e' context dependencyInputs way = some total) ∧
    ∀ state, paths.bestCrossResource = some state →
      IsLeast {total | ∃ way, Assigns context roles way ∧ crosses way = true ∧
        chainTotal e' context dependencyInputs way = some total} state.totalMs := by
  cases roles with
  | nil => cases hpaths
  | cons first roles =>
    rcases separateChainPaths_spec costOrder_rat hnew hnew₀ with ⟨hnone, -⟩ |
      ⟨states, found, hfound, hfree, hall, hbest, hcross⟩
    · rw [hnone] at hpaths
      cases hpaths
    · rw [hfound] at hpaths
      cases hpaths
      exact ⟨cheapest_isLeast hfree hall hbest, cheapest_crossing hfree hall hcross⟩

/-- The result of a computation over the rest of a chain: what was spent and the least total of a feasible way. -/
theorem bestChainTailTotal_least (hnew : NamesNew e roles) (hnew₀ : NamesNew e' roles) {bytes : UInt64}
    {previous : ResourceId} {initial total : ℚ}
    (htotal : bestChainTailTotal e roles bytes previous initial context = some total) :
    ∃ least, IsLeast {rest | ∃ way, Assigns context roles way ∧ tailTotal e' context 0 bytes previous way = some rest}
      least ∧ total = initial + least := by
  rcases bestChainTailTotal_spec costOrder_rat bytes previous initial hnew hnew₀ with ⟨hnone, -⟩ |
    ⟨states, found, hfound, hfree, hall, hbest⟩
  · rw [hnone] at htotal
    cases htotal
  · rw [hfound] at htotal
    cases htotal
    have hspent : ∀ way, tailTotal e' context initial bytes previous way =
        (tailTotal e' context 0 bytes previous way).map (initial + ·) := fun way => by
      rw [← tailTotal_add, add_zero]
    obtain ⟨w, hw, rfl⟩ := List.mem_map.mp (minBy_mem hbest)
    obtain ⟨v, way, rfl, hassigns, htotal, -⟩ := (hall.mem_iff (Env.mem_iter.mp hw)).way
    obtain ⟨least, hleast, hsum⟩ := Option.map_eq_some_iff.mp ((hspent way).symm.trans htotal)
    refine ⟨least, ⟨⟨way, hassigns, hleast⟩, ?_⟩, hsum.symm⟩
    rintro rest ⟨way', hassigns', hrest⟩
    obtain ⟨w', hafter, hw', -⟩ := exists_after hfree rfl hassigns'
      ((hspent way').trans (congrArg (Option.map (initial + ·)) hrest))
    obtain ⟨u, hu, -, hle⟩ := hall.exists_values hafter
    have hmin : minBy (fun a b : ℚ => F64.totalCmp a b) (((e.sub 1).iter states.values).map (·.totalMs)) =
        some w.totalMs := hbest
    have hbound := (minBy_le hmin u.totalMs (List.mem_map.mpr ⟨u, Env.mem_iter.mpr hu, rfl⟩)).trans hle
    rw [hw', ← hsum] at hbound
    exact le_of_add_le_add_left hbound

/-- **The dynamic program is exact.** What the computation over a chain finds is the least total of a feasible way, and
among the ways that use two resources the least total of these, if there is one; what it finds over the rest of a chain
is what was spent plus the least total of a feasible way through the rest. -/
theorem separate_paths_exact (e : Env) (context : FusionContext ℚ) (roles : List (LogicalRoleSpec ℚ))
    (hnew : NamesNew e roles) :
    (∀ dependencyInputs paths, separateChainPaths e roles dependencyInputs context = some paths →
      IsLeast {total | ∃ way, Assigns context roles way ∧ chainTotal e context dependencyInputs way = some total}
        paths.best.totalMs ∧
      (paths.bestCrossResource.isSome = true ↔ ∃ way total, Assigns context roles way ∧ crosses way = true ∧
        chainTotal e context dependencyInputs way = some total) ∧
      ∀ state, paths.bestCrossResource = some state →
        IsLeast {total | ∃ way, Assigns context roles way ∧ crosses way = true ∧
          chainTotal e context dependencyInputs way = some total} state.totalMs) ∧
    ∀ bytes previous initial total, bestChainTailTotal e roles bytes previous initial context = some total →
      ∃ least, IsLeast {rest | ∃ way, Assigns context roles way ∧ tailTotal e context 0 bytes previous way = some rest}
        least ∧ total = initial + least :=
  ⟨fun _ _ hpaths => separateChainPaths_least hnew hnew hpaths,
    fun _ _ _ _ htotal => bestChainTailTotal_least hnew hnew htotal⟩

/-- Two resources with a link. -/
def linkedContext : FusionContext ℚ := sampleContext [⟨⟨1⟩, ⟨2⟩, 30, 1⟩]

theorem separate_paths_sample : ∃ paths cross,
    separateChainPaths sampleNames (samplePair 8) [] linkedContext = some paths ∧ paths.bestCrossResource = some cross ∧
    IsLeast {total | ∃ way, Assigns linkedContext (samplePair 8) way ∧
      chainTotal sampleNames linkedContext [] way = some total} paths.best.totalMs ∧
    IsLeast {total | ∃ way, Assigns linkedContext (samplePair 8) way ∧ crosses way = true ∧
      chainTotal sampleNames linkedContext [] way = some total} cross.totalMs ∧ paths.best.totalMs < cross.totalMs := by
  have hfound : ((separateChainPaths sampleNames (samplePair 8) [] linkedContext).any fun paths =>
      paths.bestCrossResource.any fun cross => decide (paths.best.totalMs < cross.totalMs)) = true := by decide +kernel
  obtain ⟨paths, hpaths, hany⟩ := (Option.any_eq_true ..).mp hfound
  obtain ⟨cross, hcross, hlt⟩ := (Option.any_eq_true ..).mp hany
  obtain ⟨hbest, -, hleast⟩ :=
    (separate_paths_exact sampleNames linkedContext (samplePair 8) (namesNew_sample 8)).1 [] paths hpaths
  exact ⟨paths, cross, hpaths, hcross, hbest, hleast cross hcross, of_decide_eq_true hlt⟩

end Exact

end Plurifold
