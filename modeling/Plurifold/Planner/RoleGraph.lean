import Plurifold.Lib.Acyclic
import Plurifold.Planner.Validate

/-!
# Which role graphs are accepted

`validateRoleGraph` accepts a graph if and only if its names, dependencies and outputs are in order (`Listed`) and no
role depends on itself, however indirectly (`validate_role_graph_iff`). The cycle check resolves roles in an order in
which each comes after its dependencies (`InOrder`), and where there is no cycle a pass that leaves roles unresolved
resolves one more (`resolvePass_progress`).
-/

namespace Plurifold

open Lib

/-- The role `name` depends on the role `d`. -/
def DependsOn (roles : List (String × List String)) (d name : String) : Prop :=
  ∃ dependencies, (name, dependencies) ∈ roles ∧ d ∈ dependencies

/-- The roles in an order in which each comes after all its dependencies. -/
structure RunOrder (roles : List (String × List String)) (order : List String) : Prop where
  perm : order.Perm (roles.map Prod.fst)
  after : ∀ d name, DependsOn roles d name → order.idxOf d < order.idxOf name

/-- The loop of the cycle check, pass by pass, until it returns. -/
inductive ResolveReturns (roles : List (String × List String)) : List String → Except String Unit → Prop
  | all {resolved : List String} : (resolvePass roles resolved).length = roles.length →
      ResolveReturns roles resolved (.ok ())
  | stuck {resolved : List String} : (resolvePass roles resolved).length ≠ roles.length →
      (resolvePass roles resolved).length = resolved.length →
      ResolveReturns roles resolved (.error "role dependency graph contains a cycle")
  | again {resolved : List String} {result : Except String Unit} :
      (resolvePass roles resolved).length ≠ roles.length → (resolvePass roles resolved).length ≠ resolved.length →
      ResolveReturns roles (resolvePass roles resolved) result → ResolveReturns roles resolved result

variable {roles : List (String × List String)} {resolved : List String}

/-! ## The passes -/

theorem Resolvable.acc {roles : List (String × List String)} (hnodup : (roles.map Prod.fst).Nodup) {name : String}
    (h : Resolvable roles name) : Acc (DependsOn roles) name := by
  induction h with
  | @intro name dependencies hmem _ ih =>
    refine .intro name fun d hd => ?_
    obtain ⟨dependencies', hmem', hd⟩ := hd
    have hsame := List.inj_on_of_nodup_map hnodup hmem' hmem rfl
    cases hsame
    exact ih d hd

/-- The first role is resolved, if it can be, before the pass goes on. -/
theorem resolvePass_cons (name : String) (dependencies : List String) (rest : List (String × List String)) :
    resolvePass ((name, dependencies) :: rest) resolved =
      resolvePass rest (if name ∈ resolved then resolved
        else if dependencies.all fun dependency => dependency ∈ resolved then resolved ++ [name] else resolved) := rfl

theorem resolvePass_subset (roles : List (String × List String)) (resolved : List String) :
    resolved ⊆ resolvePass roles resolved := by
  induction roles generalizing resolved with
  | nil => exact fun _ h => h
  | cons role rest ih =>
    rw [resolvePass_cons]
    refine fun name h => ih _ ?_
    split
    · exact h
    split
    · exact List.mem_append_left _ h
    · exact h

/-- A pass resolves every role whose dependencies are resolved before it. -/
theorem resolvePass_resolves {name : String} {dependencies : List String} (hmem : (name, dependencies) ∈ roles)
    (hall : ∀ d ∈ dependencies, d ∈ resolved) : name ∈ resolvePass roles resolved := by
  induction roles generalizing resolved with
  | nil => cases hmem
  | cons role rest ih =>
    rw [resolvePass_cons]
    rcases List.mem_cons.mp hmem with rfl | hmem
    · refine resolvePass_subset rest _ ?_
      split
      · assumption
      rw [if_pos (by simpa using hall)]
      simp
    · refine ih hmem fun d hd => ?_
      split
      · exact hall d hd
      split
      · exact List.mem_append_left _ (hall d hd)
      · exact hall d hd

/-- Where there is no cycle, a pass that starts with unresolved roles resolves one. -/
theorem resolvePass_progress (hacyclic : Acyclic (DependsOn roles))
    (hknown : ∀ role ∈ roles, ∀ d ∈ role.2, d ∈ roles.map Prod.fst) (h : ResolvedSoFar roles resolved)
    (hopen : ∃ name ∈ roles.map Prod.fst, name ∉ resolved) : resolved.length < (resolvePass roles resolved).length := by
  obtain ⟨unresolved, hunresolved⟩ : ∃ unresolved, unresolved = (roles.map Prod.fst).filter (· ∉ resolved) := ⟨_, rfl⟩
  have hmem : ∀ name, name ∈ unresolved ↔ name ∈ roles.map Prod.fst ∧ name ∉ resolved := by
    intro name
    rw [hunresolved, List.mem_filter, decide_eq_true_eq]
  obtain ⟨name, hname, hnew⟩ := hopen
  obtain ⟨first, hfirst, hnone⟩ := hacyclic.exists_first (List.ne_nil_of_mem ((hmem name).mpr ⟨hname, hnew⟩))
  obtain ⟨hlisted, hfirst⟩ := (hmem first).mp hfirst
  obtain ⟨⟨first, dependencies⟩, hrole, rfl⟩ := List.mem_map.mp hlisted
  have hresolves : ∀ d ∈ dependencies, d ∈ resolved := by
    intro d hd
    by_contra hopen
    exact hnone d ((hmem d).mpr ⟨hknown _ hrole d hd, hopen⟩) ⟨dependencies, hrole, hd⟩
  have hsub : (first :: resolved).Subperm (resolvePass roles resolved) := by
    refine (List.nodup_cons.mpr ⟨hfirst, h.nodup⟩).subperm ?_
    rw [List.cons_subset]
    exact ⟨resolvePass_resolves hrole hresolves, resolvePass_subset roles resolved⟩
  exact hsub.length_le

/-- Every resolved role stands after its dependencies. -/
def InOrder (roles : List (String × List String)) (resolved : List String) : Prop :=
  ∀ d name, DependsOn roles d name → name ∈ resolved → resolved.idxOf d < resolved.idxOf name

theorem InOrder.snoc (hnodup : (roles.map Prod.fst).Nodup) (h : InOrder roles resolved) {name : String}
    {dependencies : List String} (hrole : (name, dependencies) ∈ roles) (hnew : name ∉ resolved)
    (hall : ∀ d ∈ dependencies, d ∈ resolved) : InOrder roles (resolved ++ [name]) := by
  intro d other hdepends hother
  rcases List.mem_append.mp hother with hother | hother
  · have hlt := h d other hdepends hother
    have hd : d ∈ resolved := List.idxOf_lt_length_iff.mp (hlt.trans (List.idxOf_lt_length_iff.mpr hother))
    rwa [List.idxOf_append_of_mem hd, List.idxOf_append_of_mem hother]
  · obtain rfl := List.mem_singleton.mp hother
    obtain ⟨dependencies', hrole', hd⟩ := hdepends
    obtain ⟨-, rfl⟩ := Prod.mk.inj (List.inj_on_of_nodup_map hnodup hrole' hrole rfl)
    rw [List.idxOf_append_of_mem (hall d hd), List.idxOf_append_of_notMem hnew]
    have := List.idxOf_lt_length_iff.mpr (hall d hd)
    omega

theorem resolvePass_inOrder (hnodup : (roles.map Prod.fst).Nodup) (h : InOrder roles resolved) :
    InOrder roles (resolvePass roles resolved) := by
  unfold resolvePass
  refine List.foldlRecOn (motive := InOrder roles) roles _ h ?_
  rintro resolved h ⟨name, dependencies⟩ hrole
  dsimp only
  split
  · exact h
  rename_i hnew
  split
  · rename_i hall
    exact h.snoc hnodup hrole hnew (by simpa using hall)
  · exact h

/-! ## The loop -/

/-- The loop returns, and what it returns is what so many passes give. -/
theorem resolveLoop_returns {passes : Nat} (h : ResolvedSoFar roles resolved)
    (hpasses : roles.length < resolved.length + passes) :
    ResolveReturns roles resolved (resolveLoop roles passes resolved) := by
  induction passes generalizing resolved with
  | zero =>
    have := h.length_le
    omega
  | succ passes ih =>
    have hgrows := resolvePass_length roles resolved
    rw [resolveLoop]
    split
    · exact .all ‹_›
    split
    · exact .stuck ‹_› ‹_›
    · exact .again ‹_› ‹_› (ih (resolvePass_keeps h) (by omega))

/-- A loop that resolves all roles has put them in order. -/
theorem ResolveReturns.order (hnodup : (roles.map Prod.fst).Nodup) {result : Except String Unit}
    (hloop : ResolveReturns roles resolved result) (hresult : result = .ok ()) (h : ResolvedSoFar roles resolved)
    (horder : InOrder roles resolved) : ∃ order, RunOrder roles order := by
  induction hloop with
  | @all resolved hlength =>
    have hnext := resolvePass_keeps h
    have hsub : (resolvePass roles resolved).Subperm (roles.map Prod.fst) :=
      hnext.nodup.subperm fun name hname => (hnext.sound name hname).mem
    have hperm := hsub.perm_of_length_le (by rw [List.length_map, hlength])
    refine ⟨_, hperm, fun d name hdepends => resolvePass_inOrder hnodup horder d name hdepends (hperm.mem_iff.mpr ?_)⟩
    obtain ⟨dependencies, hrole, -⟩ := hdepends
    exact List.mem_map.mpr ⟨_, hrole, rfl⟩
  | stuck => cases hresult
  | again _ _ _ ih => exact ih hresult (resolvePass_keeps h) (resolvePass_inOrder hnodup horder)

/-- Where there is no cycle, the loop resolves all roles. -/
theorem ResolveReturns.ok (hacyclic : Acyclic (DependsOn roles))
    (hknown : ∀ role ∈ roles, ∀ d ∈ role.2, d ∈ roles.map Prod.fst) (hnodup : (roles.map Prod.fst).Nodup)
    {result : Except String Unit} (hloop : ResolveReturns roles resolved result) (h : ResolvedSoFar roles resolved) :
    result = .ok () := by
  induction hloop with
  | all => rfl
  | @stuck resolved hopen hsame =>
    have hlt : resolved.length < roles.length := by
      have := (resolvePass_keeps h).length_le
      omega
    have hunresolved : ∃ name ∈ roles.map Prod.fst, name ∉ resolved := by
      by_contra hnone
      push Not at hnone
      have hle := (hnodup.subperm hnone).length_le
      rw [List.length_map] at hle
      omega
    have := resolvePass_progress hacyclic hknown h hunresolved
    omega
  | again _ _ _ ih => exact ih (resolvePass_keeps h)

theorem RunOrder.acyclic {order : List String} (h : RunOrder roles order) : Acyclic (DependsOn roles) :=
  .of_rank (fun name => order.idxOf name) h.after

/-- The cycle check returns on every graph, and a graph is accepted if and only if names, dependencies and outputs are
in order and no role depends on itself through others, or as well, its roles can be put in an order to run them. -/
theorem validate_role_graph_iff (roles : List (String × List String)) (outputs : List String) :
    ResolveReturns roles [] (resolveLoop roles (roles.length + 1) []) ∧
    (validateRoleGraph roles outputs = .ok () ↔ Listed roles outputs ∧ Acyclic (DependsOn roles)) ∧
    (validateRoleGraph roles outputs = .ok () ↔ Listed roles outputs ∧ ∃ order, RunOrder roles order) := by
  have hnone : ResolvedSoFar roles [] := ⟨List.nodup_nil, fun name hname => by cases hname⟩
  have hreturns : ResolveReturns roles [] (resolveLoop roles (roles.length + 1) []) :=
    resolveLoop_returns hnone (by simp)
  have horder : validateRoleGraph roles outputs = .ok () → Listed roles outputs ∧ ∃ order, RunOrder roles order := by
    intro h
    obtain ⟨hlisted, hloop⟩ := validateRoleGraph_ok_iff.mp h
    exact ⟨hlisted, hreturns.order hlisted.names_nodup hloop hnone fun d name _ hname => by cases hname⟩
  have hok : Listed roles outputs → Acyclic (DependsOn roles) → validateRoleGraph roles outputs = .ok () := by
    intro hlisted hacyclic
    refine validateRoleGraph_ok_iff.mpr ⟨hlisted, ?_⟩
    exact hreturns.ok hacyclic (fun role hrole => (hlisted.depends role hrole).1) hlisted.names_nodup hnone
  refine ⟨hreturns, ⟨fun h => ?_, fun ⟨hlisted, hacyclic⟩ => hok hlisted hacyclic⟩, horder, ?_⟩
  · obtain ⟨hlisted, order, h⟩ := horder h
    exact ⟨hlisted, h.acyclic⟩
  · rintro ⟨hlisted, order, h⟩
    exact hok hlisted h.acyclic

example : validateRoleGraph [("a", ["b"]), ("b", ["a"])] ["b"] = .error "role dependency graph contains a cycle" := by
  decide +kernel

end Plurifold
