import Plurifold.Fabric.Accepted

/-!
# Accepted jobs and their chains

The role graph of an accepted job (`JobDefinition.Accepted`) has distinct roles and no cycles.

A chain of roles that may be fused starts at a role whose dependencies are complete and goes on while the only consumer
of a role waits for nothing else. Walking back along the only dependency of every later role shows that the roles of a
chain are distinct, and that chains of different roles share none (`chain_agree`). The fabric accepts every task that
the planner draws up for a job that is `FusionSafe` (`fusion_accepted`, `reduction_level_accepted`).
-/

namespace Plurifold

open Lib

variable {F : Type}

/-! ## Validation -/

/-- The job passed the validation of its kind. -/
def JobDefinition.Accepted [F64 F] : JobDefinition F → Prop
  | .cooperative spec => validateCooperativeJob spec = .ok ()
  | .logical spec => validateLogicalJob spec = .ok ()

/-- The role graph of an accepted job is valid. -/
theorem JobDefinition.Accepted.graph [F64 F] {definition : JobDefinition F} (h : definition.Accepted) :
    GraphValid (jobRoles definition) (jobOutputs definition) := by
  cases definition with
  | cooperative spec =>
    have h' : validateCooperativeJob spec = .ok () := h
    unfold validateCooperativeJob at h'
    split at h'
    · cases h'
    · rename_i hgraph
      exact validateRoleGraph_ok hgraph
  | logical spec => exact validateLogicalJob_graph h

/-- The role names of an accepted job are distinct. -/
theorem JobDefinition.Accepted.nodup [F64 F] {definition : JobDefinition F} (h : definition.Accepted) :
    ((jobRoles definition).map Prod.fst).Nodup := h.graph.names

/-! ## Chains -/

/-- The outputs of the roles `dependencies`, if all are complete. -/
def gather (statuses : String → Option CooperativeRoleStatus) : List String → Option (List ObjectId)
  | [] => some []
  | dependency :: rest =>
    match statuses dependency with
    | some (.completed outputs) => (gather statuses rest).map (outputs ++ ·)
    | _ => none

theorem dependencyOutputs_eq (statuses : Map String CooperativeRoleStatus) :
    ∀ dependencies, dependencyOutputs statuses dependencies = gather statuses.lookup dependencies
  | [] => rfl
  | dependency :: rest => by
    unfold dependencyOutputs gather
    cases statuses.lookup dependency with
    | none => rfl
    | some status => cases status <;> simp only [dependencyOutputs_eq statuses rest]

theorem gather_completed {statuses : String → Option CooperativeRoleStatus} : ∀ {dependencies : List String}
    {outputs : List ObjectId}, gather statuses dependencies = some outputs → ∀ dependency ∈ dependencies,
    ∃ outputs, statuses dependency = some (.completed outputs)
  | dependency :: rest, outputs, h, d, hd => by
    rw [gather] at h
    split at h
    · rename_i own hown
      obtain ⟨others, hothers, -⟩ := Option.map_eq_some_iff.mp h
      rcases List.mem_cons.mp hd with rfl | hd
      · exact ⟨own, hown⟩
      · exact gather_completed hothers d hd
    · cases h

/-- Roles that stay complete keep their outputs. -/
theorem gather_of_stable {statuses statuses' : String → Option CooperativeRoleStatus} : ∀ {dependencies : List String}
    {outputs : List ObjectId}, (∀ d ∈ dependencies, ∀ outputs, statuses d = some (.completed outputs) →
      statuses' d = some (.completed outputs)) → gather statuses dependencies = some outputs →
    gather statuses' dependencies = some outputs
  | [], _, _, h => h
  | dependency :: rest, outputs, hstable, h => by
    rw [gather] at h ⊢
    split at h
    · rename_i own hown
      obtain ⟨others, hothers, rfl⟩ := Option.map_eq_some_iff.mp h
      rw [hstable dependency (List.mem_cons_self ..) own hown]
      dsimp only
      rw [gather_of_stable (fun d hd => hstable d (List.mem_cons_of_mem _ hd)) hothers]
      rfl
    · cases h

/-- `second` can follow `first` in a chain: both are unsharded, no other role reads `first`, `second` reads nothing
else, and the job does not return `first`. -/
structure Follows (spec : LogicalJobSpec F) (first second : LogicalRoleSpec F) : Prop where
  unshardedFirst : first.shards.fixedCount = some 1
  unsharded : second.shards.fixedCount = some 1
  hidden : first.name ∉ spec.outputs
  depends : second.dependsOn = [first.name]
  only : spec.roles.filter (fun candidate => candidate.dependsOn.contains first.name) = [second]

theorem Follows.mem {spec : LogicalJobSpec F} {first second : LogicalRoleSpec F} (h : Follows spec first second) :
    second ∈ spec.roles := by
  have : second ∈ spec.roles.filter fun candidate => candidate.dependsOn.contains first.name := by
    rw [h.only]
    exact List.mem_singleton_self _
  exact (List.mem_filter.mp this).1

/-- The only role that reads `first` is `second`. -/
theorem Follows.consumer {spec : LogicalJobSpec F} {first second role : LogicalRoleSpec F}
    (h : Follows spec first second) (hmem : role ∈ spec.roles) (hd : first.name ∈ role.dependsOn) : role = second := by
  have : role ∈ spec.roles.filter fun candidate => candidate.dependsOn.contains first.name :=
    List.mem_filter.mpr ⟨hmem, List.contains_iff_mem.mpr hd⟩
  rw [h.only] at this
  exact List.mem_singleton.mp this

/-- The rest of a chain after `current`: each role follows the one before it and waits. -/
inductive Linked (spec : LogicalJobSpec F) (statuses : String → Option CooperativeRoleStatus) :
    LogicalRoleSpec F → List (LogicalRoleSpec F) → Prop
  | nil (current : LogicalRoleSpec F) : Linked spec statuses current []
  | cons {current next : LogicalRoleSpec F} {rest : List (LogicalRoleSpec F)} : Follows spec current next →
      statuses next.name = some .waiting → Linked spec statuses next rest → Linked spec statuses current (next :: rest)

theorem growChain_linked {spec : LogicalJobSpec F} {statuses : Map String CooperativeRoleStatus} :
    ∀ (rounds : Nat) {current : LogicalRoleSpec F}, current.shards.fixedCount = some 1 →
    Linked spec statuses.lookup current (growChain spec statuses rounds current)
  | 0, current, _ => .nil current
  | rounds + 1, current, hcurrent => by
    rw [growChain]
    split
    · exact .nil current
    · rename_i hout
      split
      · rename_i consumer honly
        split
        · rename_i h
          obtain ⟨hunsharded, hdepends, hwaiting⟩ := h
          have hhidden : current.name ∉ spec.outputs := fun hmem => hout (List.contains_iff_mem.mpr hmem)
          exact .cons ⟨hcurrent, hunsharded, hhidden, hdepends, honly⟩ hwaiting (growChain_linked rounds hunsharded)
        · exact .nil current
      · exact .nil current

theorem fusionChain_linked (spec : LogicalJobSpec F) (statuses : Map String CooperativeRoleStatus)
    (first : LogicalRoleSpec F) :
    ∃ rest, fusionChain spec statuses first = first :: rest ∧ Linked spec statuses.lookup first rest := by
  refine ⟨_, rfl, ?_⟩
  split
  · rename_i h
    exact growChain_linked _ h
  · exact .nil first

section Linked

variable {spec : LogicalJobSpec F} {statuses : String → Option CooperativeRoleStatus}

/-- A later role of a chain follows the role before it. -/
theorem Linked.get {current : LogicalRoleSpec F} {rest : List (LogicalRoleSpec F)} (h : Linked spec statuses current rest) :
    ∀ {i : Nat} {role : LogicalRoleSpec F}, (current :: rest)[i + 1]? = some role →
    ∃ before, (current :: rest)[i]? = some before ∧ Follows spec before role ∧ statuses role.name = some .waiting := by
  induction h with
  | nil current => intro i role hrole; simp at hrole
  | @cons current next rest hfollows hwaiting _ ih =>
    intro i role hrole
    cases i with
    | zero =>
      simp only [List.getElem?_cons_succ, List.getElem?_cons_zero, Option.some.injEq] at hrole
      subst hrole
      exact ⟨current, rfl, hfollows, hwaiting⟩
    | succ i =>
      rw [List.getElem?_cons_succ] at hrole ⊢
      exact ih hrole

theorem Linked.isChain {current : LogicalRoleSpec F} {rest : List (LogicalRoleSpec F)}
    (h : Linked spec statuses current rest) : (current :: rest).IsChain (Follows spec) := by
  induction h with
  | nil current => exact .singleton current
  | cons hfollows _ _ ih => exact .cons_cons hfollows ih

theorem Linked.mem {first : LogicalRoleSpec F} (hfirst : first ∈ spec.roles) {rest : List (LogicalRoleSpec F)}
    (h : Linked spec statuses first rest) : ∀ role ∈ first :: rest, role ∈ spec.roles := by
  induction h with
  | nil current => intro role hrole; rwa [List.mem_singleton.mp hrole]
  | @cons current next rest hfollows _ _ ih =>
    intro role hrole
    rcases List.mem_cons.mp hrole with rfl | hrole
    · exact hfirst
    · exact ih hfollows.mem role hrole

/-- The role is in the job, has not been started, and its dependencies are complete. -/
structure Startable (spec : LogicalJobSpec F) (statuses : String → Option CooperativeRoleStatus)
    (role : LogicalRoleSpec F) : Prop where
  mem : role ∈ spec.roles
  notStarted : statuses role.name = some .waiting ∨ statuses role.name = some .ready
  dependencies : ∃ inputs, gather statuses role.dependsOn = some inputs

/-- A role that is not complete is no dependency of a startable one. -/
theorem Startable.not_follows {first before role : LogicalRoleSpec F} (hfirst : Startable spec statuses first)
    (hfollows : Follows spec before role) (heq : first = role)
    (hbefore : statuses before.name = some .waiting ∨ statuses before.name = some .ready) : False := by
  obtain ⟨inputs, hinputs⟩ := hfirst.dependencies
  have hd : before.name ∈ first.dependsOn := by rw [heq, hfollows.depends]; exact List.mem_singleton_self _
  obtain ⟨outputs, houtputs⟩ := gather_completed hinputs before.name hd
  rcases hbefore with h | h <;> rw [h] at houtputs <;> cases houtputs

/-- The roles of a chain have not been started. -/
theorem Linked.notStarted {first : LogicalRoleSpec F} (hfirst : Startable spec statuses first)
    {rest : List (LogicalRoleSpec F)} (h : Linked spec statuses first rest) :
    ∀ {i : Nat} {role : LogicalRoleSpec F}, (first :: rest)[i]? = some role →
    statuses role.name = some .waiting ∨ statuses role.name = some .ready
  | 0, role, hrole => by
    simp only [List.getElem?_cons_zero, Option.some.injEq] at hrole
    exact hrole ▸ hfirst.notStarted
  | i + 1, role, hrole => by
    obtain ⟨before, -, -, hwaiting⟩ := h.get hrole
    exact .inl hwaiting

/-- **Chains agree.** Where two chains share a role, they start at the same role and have it at the same place. -/
theorem chain_agree (hnodup : (spec.roles.map (·.name)).Nodup) {first first' : LogicalRoleSpec F}
    {rest rest' : List (LogicalRoleSpec F)} (hfirst : Startable spec statuses first)
    (hfirst' : Startable spec statuses first') (h : Linked spec statuses first rest)
    (h' : Linked spec statuses first' rest') : ∀ {i j : Nat} {role role' : LogicalRoleSpec F},
    (first :: rest)[i]? = some role → (first' :: rest')[j]? = some role' → role.name = role'.name →
    i = j ∧ first.name = first'.name
  | 0, 0, role, role', hi, hj, hname => by
    simp only [List.getElem?_cons_zero, Option.some.injEq] at hi hj
    exact ⟨rfl, by rw [hi, hj, hname]⟩
  | 0, j + 1, role, role', hi, hj, hname => by
    simp only [List.getElem?_cons_zero, Option.some.injEq] at hi
    obtain ⟨before, hbefore, hfollows, -⟩ := h'.get hj
    have heq : first = role' := eq_of_name hnodup hfirst.mem hfollows.mem (hi ▸ hname)
    exact (hfirst.not_follows hfollows heq (h'.notStarted hfirst' hbefore)).elim
  | i + 1, 0, role, role', hi, hj, hname => by
    simp only [List.getElem?_cons_zero, Option.some.injEq] at hj
    obtain ⟨before, hbefore, hfollows, -⟩ := h.get hi
    have heq : first' = role := eq_of_name hnodup hfirst'.mem hfollows.mem (hj ▸ hname.symm)
    exact (hfirst'.not_follows hfollows heq (h.notStarted hfirst hbefore)).elim
  | i + 1, j + 1, role, role', hi, hj, hname => by
    obtain ⟨before, hbefore, hfollows, -⟩ := h.get hi
    obtain ⟨before', hbefore', hfollows', -⟩ := h'.get hj
    have heq : role = role' := eq_of_name hnodup hfollows.mem hfollows'.mem hname
    have hnames : before.name = before'.name := by
      have := hfollows.depends.symm.trans (heq ▸ hfollows'.depends)
      exact List.singleton_inj.mp this
    obtain ⟨rfl, hsame⟩ := chain_agree hnodup hfirst hfirst' h h' hbefore hbefore' hnames
    exact ⟨rfl, hsame⟩

/-- The roles of a chain are distinct. -/
theorem chain_nodup (hnodup : (spec.roles.map (·.name)).Nodup) {first : LogicalRoleSpec F}
    {rest : List (LogicalRoleSpec F)} (hfirst : Startable spec statuses first) (h : Linked spec statuses first rest) :
    ((first :: rest).map (·.name)).Nodup := by
  rw [List.nodup_iff_injective_get]
  intro i j hij
  have hi : (first :: rest)[i.1]? = some ((first :: rest).get ⟨i.1, by simpa using i.2⟩) := by simp
  have hj : (first :: rest)[j.1]? = some ((first :: rest).get ⟨j.1, by simpa using j.2⟩) := by simp
  have hname : ((first :: rest).get ⟨i.1, by simpa using i.2⟩).name =
      ((first :: rest).get ⟨j.1, by simpa using j.2⟩).name := by
    rw [List.get_eq_getElem, List.get_eq_getElem, List.getElem_map, List.getElem_map] at hij
    exact hij
  exact Fin.ext (chain_agree hnodup hfirst hfirst h h hi hj hname).1

/-- Chains of different roles share no role. -/
theorem chain_disjoint (hnodup : (spec.roles.map (·.name)).Nodup) {first first' : LogicalRoleSpec F}
    {rest rest' : List (LogicalRoleSpec F)} (hfirst : Startable spec statuses first)
    (hfirst' : Startable spec statuses first') (h : Linked spec statuses first rest)
    (h' : Linked spec statuses first' rest') (hne : first.name ≠ first'.name) :
    ((first :: rest).map (·.name)).Disjoint ((first' :: rest').map (·.name)) := by
  intro name hmem hmem'
  obtain ⟨role, hrole, rfl⟩ := List.mem_map.mp hmem
  obtain ⟨role', hrole', hname⟩ := List.mem_map.mp hmem'
  obtain ⟨i, hi⟩ := List.mem_iff_getElem?.mp hrole
  obtain ⟨j, hj⟩ := List.mem_iff_getElem?.mp hrole'
  exact hne (chain_agree hnodup hfirst hfirst' h h' hi hj hname.symm).2

end Linked

/-! ## Fusion-safe jobs -/

/-- The planner can put `first` and `second` next to each other in a chain. -/
def canFuse (spec : LogicalJobSpec F) (first second : LogicalRoleSpec F) : Bool :=
  decide (first.shards.fixedCount = some 1) && decide (second.shards.fixedCount = some 1) &&
    !spec.outputs.contains first.name && decide (second.dependsOn = [first.name]) &&
    decide ((spec.roles.filter fun candidate => candidate.dependsOn.contains first.name).map (·.name) = [second.name])

/-- Every implementation of the role is a Pure builtin. -/
def allFusable (role : LogicalRoleSpec F) : Bool :=
  role.implementations.all fun implementation => fusableTemplate implementation.task

/-- Implementations that can become neighbouring stages of a pipeline have the entrypoint that a stage must have. -/
def FusionSafe (spec : LogicalJobSpec F) : Prop :=
  ∀ first ∈ spec.roles, ∀ second ∈ spec.roles, canFuse spec first second = true → allFusable first = true →
    allFusable second = true → ∀ a ∈ first.implementations, ∀ b ∈ second.implementations,
    (combineRequirements a.task.requirements b.task.requirements).isSome = true →
    a.task.entrypoint = "run" ∧ b.task.entrypoint = "run"

instance (spec : LogicalJobSpec F) : Decidable (FusionSafe spec) := by
  unfold FusionSafe
  infer_instance

def JobDefinition.FusionSafe : JobDefinition F → Prop
  | .cooperative _ => True
  | .logical spec => Plurifold.FusionSafe spec

theorem Follows.canFuse {spec : LogicalJobSpec F} {first second : LogicalRoleSpec F} (h : Follows spec first second) :
    Plurifold.canFuse spec first second = true := by
  simp only [Plurifold.canFuse, Bool.and_eq_true, decide_eq_true_eq, Bool.not_eq_true', h.only, List.map_cons,
    List.map_nil, and_true]
  refine ⟨⟨⟨h.unshardedFirst, h.unsharded⟩, ?_⟩, h.depends⟩
  rw [← Bool.not_eq_true, List.contains_iff_mem]
  exact h.hidden

section Accepted

variable {e : Env} {spec : LogicalJobSpec F} {dependencyInputs : List ObjectId}

variable [F64 F]

/-- Neighbouring implementations of a fused chain run the entrypoint that a stage must have. -/
theorem FusionOf.neighbours (hsafe : FusionSafe spec) {statuses : Map String CooperativeRoleStatus}
    {first : LogicalRoleSpec F} (hfirst : first ∈ spec.roles) {selected : ReadyFusionSelection F}
    {implementations : List (RoleImplementation F)}
    (h : FusionOf e (fusionChain spec statuses first) dependencyInputs selected implementations) {i : Nat}
    {a b : RoleImplementation F} (ha : implementations[i]? = some a) (hb : implementations[i + 1]? = some b) :
    a.task.entrypoint = "run" ∧ b.task.entrypoint = "run" := by
  obtain ⟨rest, hchain, hlinked⟩ := fusionChain_linked spec statuses first
  have hcombine : RequirementsCombine a b := by
    obtain ⟨hi, rfl⟩ := List.getElem?_eq_some_iff.mp ha
    obtain ⟨hi', rfl⟩ := List.getElem?_eq_some_iff.mp hb
    exact h.combine.getElem i hi'
  have at_role : ∀ {k : Nat} {implementation : RoleImplementation F}, implementations[k]? = some implementation →
      ∃ role, (first :: rest)[k]? = some role ∧ implementation ∈ role.implementations ∧ allFusable role = true := by
    intro k implementation hk
    obtain ⟨hlt, rfl⟩ := List.getElem?_eq_some_iff.mp hk
    have hlt' : k < ((fusionChain spec statuses first).take implementations.length).length := by
      rw [h.each.length_eq]
      exact hlt
    have hmem := h.each.get hlt' hlt
    refine ⟨_, ?_, hmem, List.all_eq_true.mpr (h.fusable _ (List.get_mem _ _))⟩
    rw [← hchain, List.get_eq_getElem, List.getElem_take, List.getElem?_eq_getElem]
  obtain ⟨role, hrole, hmem, hfusable⟩ := at_role ha
  obtain ⟨role', hrole', hmem', hfusable'⟩ := at_role hb
  obtain ⟨before, hbefore, hfollows, -⟩ := hlinked.get hrole'
  obtain rfl : before = role := Option.some.inj (hbefore.symm.trans hrole)
  exact hsafe before (hlinked.mem hfirst before (List.mem_of_getElem? hrole)) role' hfollows.mem hfollows.canFuse
    hfusable hfusable' a hmem b hmem' hcombine

theorem fusion_accepted (hsafe : FusionSafe spec) {statuses : Map String CooperativeRoleStatus}
    {first : LogicalRoleSpec F} (hfirst : first ∈ spec.roles) {context : FusionContext F}
    {selected : ReadyFusionSelection F}
    (h : selectReadyFusion e (fusionChain spec statuses first) dependencyInputs context = some selected) :
    validateTask selected.task = .ok () := by
  obtain ⟨implementations, hof⟩ := selectReadyFusion_spec h
  have hrun : ∀ implementation ∈ implementations, implementation.task.entrypoint = "run" := by
    intro implementation hmem
    obtain ⟨i, hi⟩ := List.mem_iff_getElem?.mp hmem
    obtain ⟨hlt, -⟩ := List.getElem?_eq_some_iff.mp hi
    have htwo := hof.two
    -- a stage has a neighbour before or after it
    by_cases hlast : i + 1 < implementations.length
    · exact (hof.neighbours hsafe hfirst hi (List.getElem?_eq_getElem hlast)).1
    · obtain ⟨k, rfl⟩ : ∃ k, i = k + 1 := ⟨i - 1, by omega⟩
      exact (hof.neighbours hsafe hfirst (List.getElem?_eq_getElem (by omega)) hi).2
  have hbuiltin : ∀ implementation ∈ implementations, implementation.task.artifact.startsWith "builtin:" = true := by
    intro implementation hmem
    obtain ⟨role, hrole, himpl⟩ := forall₂_mem_right hof.each hmem
    have := hof.fusable role hrole implementation himpl
    rw [fusableTemplate, Bool.and_eq_true] at this
    exact this.2
  obtain ⟨e', requirements, -, htask⟩ := hof.task
  match implementations, hof.two with
  | first :: second :: rest, _ =>
    refine (fusedPipelineTask_spec htask).2.2.2.2 fun template htemplate => ?_
    obtain ⟨implementation, hmem, rfl⟩ := List.mem_map.mp (show template ∈ (first :: second :: rest).map (·.task) from
      htemplate)
    exact ⟨hbuiltin implementation hmem, hrun implementation hmem⟩

theorem ready_role_accepted {role : LogicalRoleSpec F} {scheduler : TopologyAwareScheduler F}
    {resources : List (ResourceDescriptor F)} {objects : Objects} {topology : TopologySnapshot F}
    {selected : ReadyRoleSelection F}
    (h : selectReadyRole e role dependencyInputs scheduler resources objects topology = some selected) :
    validateTask selected.task = .ok () := by
  obtain ⟨⟨_, _, hmade⟩, hshard⟩ := selectReadyRole_spec h
  exact validateTask_plain hshard hmade.pipeline

omit [F64 F] in
theorem ShardsOf.accepted {role : LogicalRoleSpec F} {count : UInt32} {selected : List (ReadyShardSelection F)}
    (h : ShardsOf e role dependencyInputs count selected) : ∀ shard ∈ selected, validateTask shard.task = .ok () := by
  intro shard hmem
  obtain ⟨i, hi, hof⟩ := forall₂_mem_right h.each hmem
  exact hof.accepted (List.mem_range.mp hi)

omit [F64 F] in
theorem ItemOf.accepted {reduction : RoleReductionSpec F} {group : List ObjectId}
    {selected : ReadyReductionSelection F} (h : ItemOf e reduction group (.reduce selected)) :
    validateTask selected.task = .ok () := validateTask_plain h.2 h.1.pipeline

theorem reduction_level_accepted {reduction : RoleReductionSpec F} {inputs : List ObjectId} {readyMs : F}
    {available : Availability F} {context : ShardPlanningContext F} {items : List (ReadyReductionItem F)}
    (h : (selectReductionLevel e reduction inputs readyMs available context).1 = some items) :
    ∀ selected, ReadyReductionItem.reduce selected ∈ items → validateTask selected.task = .ok () := by
  intro selected hmem
  by_cases htwo : 2 ≤ inputs.length
  · obtain ⟨groups, hlevel⟩ := selectReductionLevel_spec htwo h
    obtain ⟨⟨group, i⟩, -, hitem⟩ := forall₂_mem_right hlevel.each hmem
    exact hitem.accepted
  · rw [selectReductionLevel, if_pos (by omega)] at h
    cases h
    obtain ⟨o, -, ho⟩ := List.mem_map.mp hmem
    cases ho

end Accepted

end Plurifold
