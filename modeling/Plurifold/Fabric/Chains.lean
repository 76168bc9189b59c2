import Plurifold.Fabric.Materialize
import Plurifold.Planner.Chain
import Plurifold.Planner.RoleGraph

/-!
# Fusion chains

The loop of `fusion_chain` has neither a counter nor a set of visited roles. In an accepted job it ends all the same,
because no role comes before itself: a chain is no longer than the list of roles (`growChain_add`), and it ends where the
rules let no role follow (`growChain_end`). The chains that one materialization pass works on share no role, and the
round of a chain touches no other (`materializeRole_spares`).
-/

namespace Plurifold

open Lib Attempt

variable {F : Type} {spec : LogicalJobSpec F} {statuses : Map String CooperativeRoleStatus}
  {first current : LogicalRoleSpec F} {rest : List (LogicalRoleSpec F)}

/-! ## No role comes before itself -/

theorem Follows.dependsOn {second : LogicalRoleSpec F} (h : Follows spec first second) :
    DependsOn (jobRoles (.logical spec)) first.name second.name :=
  ⟨second.dependsOn, List.mem_map.mpr ⟨second, h.mem, rfl⟩, by rw [h.depends]; exact List.mem_singleton_self _⟩

/-- `a` comes before `b`: `b` depends on `a`, or on a role that comes after `a`. -/
def Before (spec : LogicalJobSpec F) (a b : LogicalRoleSpec F) : Prop :=
  Relation.TransGen (DependsOn (jobRoles (.logical spec))) a.name b.name

instance : Trans (Before spec) (Before spec) (Before spec) := ⟨fun hab hbc => Relation.TransGen.trans hab hbc⟩

/-- The roles of a chain of an accepted job are distinct, wherever it starts. -/
theorem Linked.nodup [F64 F] (hvalid : validateLogicalJob spec = .ok ()) (hfirst : first ∈ spec.roles)
    {statuses : String → Option CooperativeRoleStatus} (h : Linked spec statuses first rest) :
    ((first :: rest).map (·.name)).Nodup := by
  have haccepted : (JobDefinition.logical spec).Accepted := hvalid
  have hgraph := haccepted.graph
  have hchain : (first :: rest).IsChain (Before spec) := h.isChain.imp fun a b hfollows => .single hfollows.dependsOn
  refine List.pairwise_map.mpr ((List.isChain_iff_pairwise.mp hchain).imp_of_mem fun {a b} ha _ hab hname => ?_)
  have hacc := (hgraph.acyclic _ (List.mem_map.mpr ⟨a, h.mem hfirst a ha, rfl⟩)).acc hgraph.names
  rw [Before, ← hname] at hab
  exact not_transGen_self hacc hab

/-! ## The loop ends -/

/-- A loop that ended before its last round comes to the same in more rounds. -/
theorem growChain_add {rounds : Nat} {current : LogicalRoleSpec F} (more : Nat)
    (h : (growChain spec statuses rounds current).length < rounds) :
    growChain spec statuses (rounds + more) current = growChain spec statuses rounds current := by
  induction rounds generalizing current with
  | zero => omega
  | succ rounds ih =>
    rw [Nat.add_right_comm, growChain, growChain]
    rw [growChain] at h
    split
    · rfl
    · rename_i hout
      rw [if_neg hout] at h
      split
      · rename_i consumer honly
        rw [honly] at h
        dsimp only at h
        split
        · rename_i hnext
          rw [if_pos hnext, List.length_cons] at h
          rw [ih (by omega)]
        · rfl
      · rfl

/-- One round: the chain ends where no role can follow, or goes on with the role that does. -/
theorem growChain_succ (rounds : Nat) (current : LogicalRoleSpec F) :
    (growChain spec statuses (rounds + 1) current = [] ∧
      ∀ next, ¬(Follows spec current next ∧ statuses.lookup next.name = some .waiting)) ∨
    ∃ next, growChain spec statuses (rounds + 1) current = next :: growChain spec statuses rounds next := by
  rw [growChain]
  split
  · rename_i hout
    exact .inl ⟨rfl, fun next h => h.1.hidden (List.contains_iff_mem.mp hout)⟩
  · split
    · rename_i consumer honly
      split
      · exact .inr ⟨consumer, rfl⟩
      · rename_i hnot
        refine .inl ⟨rfl, ?_⟩
        rintro next ⟨hfollows, hwaiting⟩
        obtain rfl := List.singleton_inj.mp (honly.symm.trans hfollows.only)
        exact hnot ⟨hfollows.unsharded, hfollows.depends, hwaiting⟩
    · rename_i hmany
      exact .inl ⟨rfl, fun next h => hmany next h.1.only⟩

/-- A loop that ended before its last round ended at a role that none can follow. -/
theorem growChain_end {rounds : Nat} {current : LogicalRoleSpec F}
    (h : (growChain spec statuses rounds current).length < rounds) :
    ∀ last ∈ (current :: growChain spec statuses rounds current).getLast?, ∀ next,
      ¬(Follows spec last next ∧ statuses.lookup next.name = some .waiting) := by
  induction rounds generalizing current with
  | zero => omega
  | succ rounds ih =>
    rcases growChain_succ rounds current with ⟨hnil, hend⟩ | ⟨next, hcons⟩
    · rw [hnil]
      rintro last ⟨⟩
      exact hend
    · rw [hcons, List.length_cons] at h
      rw [hcons, List.getLast?_cons_cons]
      exact ih (by omega)

/-- A chain of an accepted job has at most as many roles as the job. -/
theorem Linked.length_le [F64 F] (hvalid : validateLogicalJob spec = .ok ()) (hfirst : first ∈ spec.roles)
    {statuses : String → Option CooperativeRoleStatus} (h : Linked spec statuses first rest) :
    (first :: rest).length ≤ spec.roles.length := by
  have hsub := (h.nodup hvalid hfirst).subperm fun name hname => by
    obtain ⟨role, hrole, rfl⟩ := List.mem_map.mp hname
    exact List.mem_map.mpr ⟨role, h.mem hfirst role hrole, rfl⟩
  simpa using hsub.length_le

/-! ## One materialization pass -/

namespace Fabric

theorem readyLogical_eq {e : Env} {job : CooperativeJobRecord F} (hd : job.definition = .logical spec) :
    readyRoles e job = spec.roles.filterMap (readyLogical spec job.roles) := by
  rw [readyRoles, hd]

/-- A ready role owns its chain, and can be started. -/
theorem readyLogical_chain {role : LogicalRoleSpec F} (hmem : role ∈ spec.roles) {item : ReadyRole F}
    (h : readyLogical spec statuses role = some item) : ∃ rest, item.names = (role :: rest).map (·.name) ∧
      Startable spec statuses.lookup role ∧ Linked spec statuses.lookup role rest := by
  unfold readyLogical at h
  split at h
  · rename_i hn
    obtain ⟨inputs, hinputs, rfl⟩ := Option.map_eq_some_iff.mp h
    obtain ⟨rest, hchain, hlinked⟩ := fusionChain_linked spec statuses role
    exact ⟨rest, by rw [ReadyRole.names, hchain], ⟨hmem, hn, inputs, dependencyOutputs_eq statuses _ ▸ hinputs⟩, hlinked⟩
  · cases h

/-- The chains that one pass works on share no role. -/
theorem readyRoles_nodup [F64 F] (hvalid : validateLogicalJob spec = .ok ()) {job : CooperativeJobRecord F}
    (hd : job.definition = .logical spec) (e : Env) : ((readyRoles e job).flatMap ReadyRole.names).Nodup := by
  have hnames := (validateLogicalJob_ok hvalid).1
  rw [readyLogical_eq hd, List.nodup_flatMap]
  constructor
  · intro item hitem
    obtain ⟨role, hmem, hitem⟩ := List.mem_filterMap.mp hitem
    obtain ⟨rest, hown, -, hlinked⟩ := readyLogical_chain hmem hitem
    rw [hown]
    exact hlinked.nodup hvalid hmem
  · have hroles : spec.roles.Pairwise fun a b => a.name ≠ b.name := List.pairwise_map.mp hnames
    refine List.pairwise_filterMap.mpr (hroles.imp_of_mem fun {a b} ha hb hne item hitem item' hitem' => ?_)
    obtain ⟨rest, hown, hstart, hlinked⟩ := readyLogical_chain ha hitem
    obtain ⟨rest', hown', hstart', hlinked'⟩ := readyLogical_chain hb hitem'
    show item.names.Disjoint item'.names
    rw [hown, hown']
    exact chain_disjoint hnames hstart hstart' hlinked hlinked' hne

/-- Only the roles `names` of the job may have another status. -/
def Spares (j : JobId) (names : List String) (s s' : Fabric F) : Prop :=
  ∀ j' r, ¬(j' = j ∧ r ∈ names) → s'.ledger.role j' r = s.ledger.role j' r

section Spares

variable {j : JobId} {names : List String}

instance : IsPreorder (Fabric F) (Spares j names) where
  refl _ _ _ _ := rfl
  trans _ _ _ h h' j' r hr := (h' j' r hr).trans (h j' r hr)

theorem spares_modifyJob {f : CooperativeJobRecord F → CooperativeJobRecord F}
    (hf : ∀ job r, r ∉ names → (f job).roles.lookup r = job.roles.lookup r) (s : Fabric F) :
    Spares j names s (s.modifyJob j f) := by
  intro j' r hr
  cases hj : s.jobs.lookup j with
  | none =>
    simp only [ledger, modifyJob_lookup]
    split
    · rename_i h
      rw [h, hj]
      rfl
    · rfl
  | some job =>
    rw [role_modifyJob hj]
    split
    · rename_i h
      subst h
      rw [hf job r (fun hmem => hr ⟨rfl, hmem⟩), role_of_lookup hj]
    · rfl

theorem launchKeeps_spares : LaunchKeeps j (· ∈ names) (Spares (F := F) j names) where
  create task _ _ _ := along_bind (submit_along task fun _ _ _ _ _ => rfl) fun _ => along_update fun _ _ _ _ => rfl
  launch r status s hr _ := by
    unfold setRole
    exact spares_modifyJob (fun _ _ hother => AList.lookup_insert_ne (ne_of_mem_of_not_mem hr hother).symm) s
  selection r selection s _ := by
    unfold setSelection
    refine spares_modifyJob ?_ s
    exact fun _ _ _ => rfl

/-- The round of a ready role leaves the roles outside its chain alone. -/
theorem materializeRole_spares [F64 F] {e e' : Env} {job : CooperativeJobRecord F} {item : ReadyRole F}
    (hitem : item ∈ readyRoles e job) : (materializeRole e' j item).Along (Spares j item.names) :=
  materializeRole_along launchKeeps_spares e' item (readyRoles_name hitem) fun _ hr => hr

end Spares

/-! ## What fusion chains are -/

/-- **Fusion chains.** In an accepted job the loop ends, in any number of rounds that is no less than the number of roles.
The chain starts with its role, has distinct roles, each of which follows the one before it and waits, and no role can
follow the last one. Chains of different roles that can be started share no role; so the roles that one pass owns are
distinct, and the round of each of them leaves the others alone. -/
theorem fusion_chain_safe [F64 F] (spec : LogicalJobSpec F) (hvalid : validateLogicalJob spec = .ok ())
    (statuses : Map String CooperativeRoleStatus) :
    (∀ first ∈ spec.roles, first.shards.fixedCount = some 1 → ∃ rest,
      (∀ rounds, spec.roles.length ≤ rounds → growChain spec statuses rounds first = rest) ∧
      fusionChain spec statuses first = first :: rest ∧ ((first :: rest).map (·.name)).Nodup ∧
      (∀ i before role, (first :: rest)[i]? = some before → (first :: rest)[i + 1]? = some role →
        Follows spec before role ∧ statuses.lookup role.name = some .waiting) ∧
      ∀ last ∈ (first :: rest).getLast?, ∀ next,
        ¬(Follows spec last next ∧ statuses.lookup next.name = some .waiting)) ∧
    (∀ first first', Startable spec statuses.lookup first → Startable spec statuses.lookup first' → first ≠ first' →
      ((fusionChain spec statuses first).map (·.name)).Disjoint ((fusionChain spec statuses first').map (·.name))) ∧
    ∀ (e : Env) (job : CooperativeJobRecord F), job.definition = .logical spec →
      ((readyRoles e job).flatMap ReadyRole.names).Nodup ∧
      ∀ e' j, ∀ item ∈ readyRoles e job, (materializeRole e' j item).Along (Spares j item.names) := by
  refine ⟨fun first hfirst hunsharded => ?_, fun first first' hstart hstart' hne => ?_, fun e job hd => ?_⟩
  · have hlinked : Linked spec statuses.lookup first (growChain spec statuses spec.roles.length first) :=
      growChain_linked _ hunsharded
    have hshort : (growChain spec statuses spec.roles.length first).length < spec.roles.length := by
      have := hlinked.length_le hvalid hfirst
      rw [List.length_cons] at this
      omega
    refine ⟨growChain spec statuses spec.roles.length first, fun rounds hrounds => ?_, ?_, hlinked.nodup hvalid hfirst,
      ?_,
      growChain_end hshort⟩
    · obtain ⟨more, rfl⟩ := Nat.exists_eq_add_of_le hrounds
      exact growChain_add more hshort
    · rw [fusionChain, if_pos hunsharded]
    · intro i before role hbefore hrole
      obtain ⟨before', hbefore', hfollows, hwaiting⟩ := hlinked.get hrole
      obtain rfl := Option.some.inj (hbefore.symm.trans hbefore')
      exact ⟨hfollows, hwaiting⟩
  · have hnames := (validateLogicalJob_ok hvalid).1
    obtain ⟨rest, hchain, hlinked⟩ := fusionChain_linked spec statuses first
    obtain ⟨rest', hchain', hlinked'⟩ := fusionChain_linked spec statuses first'
    rw [hchain, hchain']
    exact chain_disjoint hnames hstart hstart' hlinked hlinked' fun hname =>
      hne (eq_of_name hnames hstart.mem hstart'.mem hname)
  · exact ⟨readyRoles_nodup hvalid hd e, fun e' j item hitem => materializeRole_spares hitem⟩

/-- Two roles in a row, then one that reads both, and two roles apart from them. -/
def forkJob : LogicalJobSpec ℚ where
  id := ⟨1⟩
  roles := [role "first" [], role "second" ["first"], role "third" ["second"], role "fourth" ["second", "third"],
    role "left" [], role "right" ["left"]]
  outputs := ["fourth", "right"]
where
  role (name : String) (dependsOn : List String) : LogicalRoleSpec ℚ :=
    { sampleRole name 1 with dependsOn }

/-- Nothing has been started. -/
def forkStatuses : Map String CooperativeRoleStatus := Map.collect (forkJob.roles.map fun role => (role.name, .waiting))

example : (fusionChain forkJob forkStatuses (forkJob.role "first" [])).map (·.name) = ["first", "second"] := by
  decide +kernel

theorem fusion_chain_sample :
    (∃ second, fusionChain forkJob forkStatuses (forkJob.role "first" []) = [forkJob.role "first" [], second] ∧
      Follows forkJob (forkJob.role "first" []) second ∧
      ∀ next, ¬(Follows forkJob second next ∧ forkStatuses.lookup next.name = some .waiting)) ∧
    ((fusionChain forkJob forkStatuses (forkJob.role "first" [])).map (·.name)).Disjoint
      ((fusionChain forkJob forkStatuses (forkJob.role "left" [])).map (·.name)) := by
  have hvalid : validateLogicalJob forkJob = .ok () := by decide +kernel
  obtain ⟨hchains, hdisjoint, -⟩ := fusion_chain_safe forkJob hvalid forkStatuses
  obtain ⟨rest, -, hchain, -, hfollows, hend⟩ := hchains (forkJob.role "first" []) (List.mem_cons_self ..) rfl
  have hlength : (fusionChain forkJob forkStatuses (forkJob.role "first" [])).length = 2 := by decide +kernel
  rw [hchain, List.length_cons, Nat.add_right_cancel_iff] at hlength
  obtain ⟨second, rfl⟩ := List.length_eq_one_iff.mp hlength
  refine ⟨⟨second, hchain, (hfollows 0 _ second rfl rfl).1, hend second rfl⟩, hdisjoint _ _ ?_ ?_ fun h => ?_⟩
  · exact ⟨List.mem_cons_self .., .inl (by decide +kernel), [], rfl⟩
  · exact ⟨by simp [forkJob], .inl (by decide +kernel), [], rfl⟩
  · have hname := congrArg LogicalRoleSpec.name h
    exact absurd hname (by decide)

end Fabric

end Plurifold
