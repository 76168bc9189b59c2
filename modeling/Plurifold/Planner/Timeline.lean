import Plurifold.Planner.Plan
import Plurifold.Lib.Timeline

/-!
# The timeline of a plan

Costs are read as exact rationals. One availability map goes through the whole of `plan`: every shard and every reducer
starts when its resource is free and its inputs are there (`InSequence`, `Stages`), so they are booked one after the
other in the order in which they are placed (`InSequence.books`, `Stages.books`). A plan whose placements take no
negative time is therefore consistent (`plan_consistent`).
-/

namespace Plurifold

open Lib

/-! ## Bookings -/

def PlannedPlacement.span (placement : PlannedPlacement ℚ) : Span ResourceId ℚ :=
  ⟨placement.resourceId, placement.startMs, placement.finishMs⟩

theorem foldl_max_eq (times : List ℚ) : ∀ ready : ℚ, times.foldl F64.max ready = times.foldl max ready := by
  induction times with
  | nil => exact fun _ => rfl
  | cons t times ih =>
    intro ready
    rw [List.foldl_cons, List.foldl_cons, f64_max, ih]

theorem latestPlaced_eq (readyMs : ℚ) (placements : List (PlannedPlacement ℚ)) :
    latestPlaced readyMs placements = latest readyMs (placements.map (·.span)) := by
  rw [latestPlaced, latest, foldl_max_eq, List.map_map]
  rfl

section

variable {readyMs finishMs : ℚ} {available available' : Availability ℚ} {placements : List (PlannedPlacement ℚ)}
  {stages : List (List (PlannedPlacement ℚ))}

theorem InSequence.books (h : InSequence readyMs available placements available') :
    Books (freeAt available) (placements.map (·.span)) (freeAt available') := by
  induction h with
  | nil => exact .nil
  | @cons available _ placement _ hstart _ _ ih =>
    refine .cons ?_ ?_
    · show freeAt available placement.resourceId ≤ placement.startMs
      rw [hstart, startMs_eq]
      exact le_max_right _ _
    · rw [freeAt_insert] at ih
      exact ih

theorem InSequence.ready_le (h : InSequence readyMs available placements available') :
    ∀ p ∈ placements, readyMs ≤ p.startMs ∧ p.finishMs = p.startMs + p.totalMs := by
  induction h with
  | nil => exact fun p hp => (List.not_mem_nil hp).elim
  | cons hstart hfinish _ ih =>
    refine List.forall_mem_cons.mpr ⟨⟨?_, hfinish⟩, ih⟩
    rw [hstart, startMs_eq]
    exact le_max_left _ _

theorem Stages.books (h : Stages readyMs available stages finishMs available') :
    Books (freeAt available) (stages.flatten.map (·.span)) (freeAt available') := by
  induction h with
  | nil => exact .nil
  | cons hstage _ ih =>
    rw [List.flatten_cons, List.map_append]
    exact hstage.books.append ih

theorem Stages.staged (h : Stages readyMs available stages finishMs available') :
    Staged readyMs (stages.map fun stage => stage.map (·.span)) finishMs := by
  induction h with
  | nil => exact .nil
  | cons hstage _ ih =>
    rw [latestPlaced_eq] at ih
    refine .cons (fun s hs => ?_) ih
    obtain ⟨p, hp, rfl⟩ := List.mem_map.mp hs
    exact (hstage.ready_le p hp).1

theorem Stages.finish_eq (h : Stages readyMs available stages finishMs available') :
    ∀ p ∈ stages.flatten, p.finishMs = p.startMs + p.totalMs := by
  induction h with
  | nil => exact fun p hp => (List.not_mem_nil hp).elim
  | cons hstage _ ih =>
    intro p hp
    rw [List.flatten_cons] at hp
    rcases List.mem_append.mp hp with hp | hp
    · exact (hstage.ready_le p hp).2
    · exact ih p hp

end

/-! ## What the loop over the roles keeps -/

/-- The placements of a role: its shards, then the reducers, level after level. -/
def PlannedRole.placements (planned : PlannedRole ℚ) : List (PlannedPlacement ℚ) :=
  planned.shards.map (·.placement) ++ planned.reductions.flatMap fun level => level.reductions.map (·.placement)

theorem PlannedRole.flatten_stages (planned : PlannedRole ℚ) : planned.stages.flatten = planned.placements := rfl

/-- A role in its place: after the roles it depends on, stage after stage. -/
structure RoleTimed (s : PlanState ℚ) (role : LogicalRoleSpec ℚ) (planned : PlannedRole ℚ) (selected : SelectedRole ℚ)
    (readyMs : ℚ) : Prop where
  lookup : s.selected.lookup role.name = some selected
  ready : 0 ≤ readyMs
  staged : Staged readyMs (planned.stages.map fun stage => stage.map (·.span)) selected.finishMs
  finish : ∀ p ∈ planned.placements, p.finishMs = p.startMs + p.totalMs
  after : ∀ name ∈ role.dependsOn, ∃ dependency, s.selected.lookup name = some dependency ∧ dependency.finishMs ≤ readyMs

/-- The roles planned so far, in the order in which they were planned, and their bookings. -/
structure Timed (spec : LogicalJobSpec ℚ) (s : PlanState ℚ) (done : List (PlannedRole ℚ)) : Prop where
  books : Books (fun _ => 0) ((done.flatMap (·.placements)).map (·.span)) (freeAt s.resourceAvailableMs)
  lookup : ∀ name planned, s.plannedRoles.lookup name = some planned ↔ planned ∈ done ∧ planned.name = name
  nodup : done.Nodup
  agree : ∀ name, s.selected.lookup name = none → s.plannedRoles.lookup name = none
  timed : ∀ role ∈ spec.roles, ∀ planned, s.plannedRoles.lookup role.name = some planned →
    ∃ selected readyMs, RoleTimed s role planned selected readyMs

section Timed

variable {spec : LogicalJobSpec ℚ} {s s' : PlanState ℚ} {done : List (PlannedRole ℚ)} {role : LogicalRoleSpec ℚ}
  {dependencies : List (SelectedRole ℚ)} {selected : SelectedRole ℚ} {planned : PlannedRole ℚ}

theorem timed_start (objects : Objects) : Timed spec ⟨objects, ∅, ∅, ∅⟩ [] where
  books := by
    have hfree : freeAt ∅ = fun _ => 0 := rfl
    rw [hfree]
    exact .nil
  lookup name planned := by simp
  nodup := .nil
  agree _ _ := rfl
  timed role _ planned h := by cases h

/-- A newly selected role does not change what was selected. -/
theorem RoleStep.lookup_selected (h : RoleStep role s s' dependencies selected planned)
    (hnew : s.selected.lookup role.name = none) {name : String} {entry : SelectedRole ℚ}
    (hname : s.selected.lookup name = some entry) : s'.selected.lookup name = some entry := by
  have hne : name ≠ role.name := by
    rintro rfl
    rw [hnew] at hname
    cases hname
  rw [h.selected_eq, AList.lookup_insert_ne hne, hname]

/-- The role that is planned comes after the roles it depends on. -/
theorem RoleStep.timed (h : RoleStep role s s' dependencies selected planned)
    (hnew : s.selected.lookup role.name = none) :
    RoleTimed s' role planned selected (dependencyReadyMs dependencies) where
  lookup := by rw [h.selected_eq, AList.lookup_insert]
  ready := by
    rw [dependencyReadyMs, foldl_max_eq]
    exact le_foldl_max
  staged := h.stages.staged
  finish p hp := h.stages.finish_eq p (by rwa [planned.flatten_stages])
  after name hname := by
    obtain ⟨dependency, hdependency, hlookup⟩ := forall₂_mem_left h.lookups hname
    refine ⟨dependency, h.lookup_selected hnew hlookup, ?_⟩
    rw [dependencyReadyMs, foldl_max_eq]
    exact mem_le_foldl_max (List.mem_map_of_mem hdependency)

theorem RoleTimed.next {role' : LogicalRoleSpec ℚ} {planned' : PlannedRole ℚ} {selected' : SelectedRole ℚ} {readyMs : ℚ}
    (h : RoleTimed s role' planned' selected' readyMs) (hstep : RoleStep role s s' dependencies selected planned)
    (hnew : s.selected.lookup role.name = none) : RoleTimed s' role' planned' selected' readyMs where
  lookup := hstep.lookup_selected hnew h.lookup
  ready := h.ready
  staged := h.staged
  finish := h.finish
  after name hname := by
    obtain ⟨dependency, hlookup, hle⟩ := h.after name hname
    exact ⟨dependency, hstep.lookup_selected hnew hlookup, hle⟩

/-- Planning a role books it after all that is booked. -/
theorem Timed.next (hnames : (spec.roles.map (·.name)).Nodup) (hrole : role ∈ spec.roles) (h : Timed spec s done)
    (hnew : s.selected.lookup role.name = none) (hstep : RoleStep role s s' dependencies selected planned) :
    Timed spec s' (done ++ [planned]) where
  books := by
    rw [List.flatMap_append, List.map_append]
    refine h.books.append ?_
    rw [List.flatMap_singleton, ← planned.flatten_stages]
    exact hstep.stages.books
  lookup name planned' := by
    rw [hstep.planned_eq, Map.lookup_insert_eq, List.mem_append, List.mem_singleton]
    split
    · rename_i hname
      subst hname
      constructor
      · intro heq
        cases heq
        exact ⟨.inr rfl, hstep.planned.name⟩
      · rintro ⟨hmem | rfl, hname⟩
        · have hsome := (h.lookup role.name planned').mpr ⟨hmem, hname⟩
          rw [h.agree _ hnew] at hsome
          cases hsome
        · rfl
    · rename_i hne
      rw [h.lookup]
      constructor
      · rintro ⟨hmem, hname⟩
        exact ⟨.inl hmem, hname⟩
      · rintro ⟨hmem | rfl, hname⟩
        · exact ⟨hmem, hname⟩
        · exact absurd (hname.symm.trans hstep.planned.name) hne
  nodup := by
    rw [List.nodup_append]
    refine ⟨h.nodup, List.nodup_singleton _, fun a ha b hb => ?_⟩
    rw [List.mem_singleton.mp hb]
    rintro rfl
    have hsome := (h.lookup role.name a).mpr ⟨ha, hstep.planned.name⟩
    rw [h.agree _ hnew] at hsome
    cases hsome
  agree name hname := by
    rw [hstep.selected_eq, Map.lookup_insert_eq] at hname
    rw [hstep.planned_eq, Map.lookup_insert_eq]
    split at hname
    · cases hname
    · rename_i hne
      rw [if_neg hne, h.agree name hname]
  timed other hother planned' hlookup := by
    rw [hstep.planned_eq, Map.lookup_insert_eq] at hlookup
    split at hlookup
    · rename_i hname
      cases hlookup
      obtain rfl := eq_of_name hnames hother hrole hname
      exact ⟨selected, _, hstep.timed hnew⟩
    · obtain ⟨selected', readyMs, htimed⟩ := h.timed other hother planned' hlookup
      exact ⟨selected', readyMs, htimed.next hstep hnew⟩

end Timed

/-! ## Consistent plans -/

/-- A consistent timeline of a job. -/
structure CooperativePlan.Consistent (result : CooperativePlan ℚ) (spec : LogicalJobSpec ℚ) : Prop where
  /-- Each role once, in the order of the spec. -/
  roles : result.roles.map (·.name) = spec.roles.map (·.name) ∧ (result.roles.map (·.name)).Nodup
  /-- The shards of a role start after all that its dependencies do. -/
  after : List.Forall₂ (fun role planned => ∀ name ∈ role.dependsOn, ∀ other ∈ result.roles, other.name = name →
    ∀ p ∈ other.placements, ∀ shard ∈ planned.shards, p.finishMs ≤ shard.placement.startMs) spec.roles result.roles
  firstLevel : ∀ planned ∈ result.roles, ∀ level, planned.reductions[0]? = some level →
    ∀ shard ∈ planned.shards, ∀ r ∈ level.reductions, shard.placement.finishMs ≤ r.placement.startMs
  nextLevel : ∀ planned ∈ result.roles, ∀ l level next, planned.reductions[l]? = some level →
    planned.reductions[l + 1]? = some next →
    ∀ r ∈ level.reductions, ∀ r' ∈ next.reductions, r.placement.finishMs ≤ r'.placement.startMs
  numbered : ∀ planned ∈ result.roles, ∀ (l : Nat) (level : PlannedReductionLevel ℚ), planned.reductions[l]? = some level →
    level.level.toNat = l
  /-- Placements on one resource do not overlap. -/
  apart : (result.roles.flatMap (·.placements)).Pairwise fun p q => p.resourceId = q.resourceId →
    p.finishMs ≤ q.startMs ∨ q.finishMs ≤ p.startMs
  finish : ∀ planned ∈ result.roles, ∀ p ∈ planned.placements, p.finishMs = p.startMs + p.totalMs
  makespan : IsGreatest {ms | ∃ planned ∈ result.roles, planned.name ∈ spec.outputs ∧
    ∃ p ∈ planned.placements, p.finishMs = ms} result.estimatedMakespanMs

section Consistent

variable {spec : LogicalJobSpec ℚ} {s : PlanState ℚ} {done : List (PlannedRole ℚ)} {result : CooperativePlan ℚ}
  {role : LogicalRoleSpec ℚ} {planned : PlannedRole ℚ} {selected : SelectedRole ℚ} {readyMs : ℚ}

/-- What a role in its place gives: bounds on all its placements. -/
theorem RoleTimed.bounds (h : RoleTimed s role planned selected readyMs) {p : PlannedPlacement ℚ}
    (hp : p ∈ planned.placements) : readyMs ≤ p.startMs ∧ p.finishMs ≤ selected.finishMs := by
  have hmem : p.span ∈ (planned.stages.map fun stage => stage.map (·.span)).flatten := by
    rw [← List.map_flatten, planned.flatten_stages]
    exact List.mem_map_of_mem hp
  exact ⟨h.staged.ready_le_start hmem, h.staged.finish_le hmem⟩

/-- A role that has shards ends when one of its placements does. -/
theorem RoleTimed.attained (h : RoleTimed s role planned selected readyMs) (hshards : planned.shards ≠ [])
    (hcost : ∀ p ∈ planned.placements, 0 ≤ p.totalMs) : ∃ p ∈ planned.placements, p.finishMs = selected.finishMs := by
  rcases h.staged.attained with hready | ⟨t, ht, heq⟩
  · obtain ⟨shard, hshard⟩ := List.exists_mem_of_ne_nil _ hshards
    have hp : shard.placement ∈ planned.placements := List.mem_append_left _ (List.mem_map_of_mem hshard)
    obtain ⟨hstart, hend⟩ := h.bounds hp
    have hfinish := h.finish _ hp
    have htotal := hcost _ hp
    exact ⟨shard.placement, hp, by linarith⟩
  · rw [← List.map_flatten, planned.flatten_stages] at ht
    obtain ⟨p, hp, rfl⟩ := List.mem_map.mp ht
    exact ⟨p, hp, heq⟩

/-- The planned roles are those of the plan, in another order. -/
theorem Timed.perm (hnames : (spec.roles.map (·.name)).Nodup) (h : Timed spec s done) (hsound : PlanSound spec s)
    (hread : PlanRead spec s result) (hroles : result.roles.map (·.name) = spec.roles.map (·.name)) :
    done.Perm result.roles := by
  have hnodup : result.roles.Nodup := List.Nodup.of_map _ (hroles ▸ hnames)
  refine (List.perm_ext_iff_of_nodup h.nodup hnodup).mpr fun planned => ⟨fun hmem => ?_, fun hmem => ?_⟩
  · have hlookup := (h.lookup planned.name planned).mpr ⟨hmem, rfl⟩
    have hselected : s.selected.lookup planned.name ≠ none := fun hnone => by
      rw [h.agree _ hnone] at hlookup
      cases hlookup
    obtain ⟨selected, hsome⟩ := Option.ne_none_iff_exists'.mp hselected
    obtain ⟨role, hrole, hname⟩ := List.mem_map.mp (hsound.known _ (Map.mem_keys.mpr ⟨selected, hsome⟩))
    obtain ⟨planned', hplanned', hlookup'⟩ := forall₂_mem_left hread.roles hrole
    rw [hname, hlookup] at hlookup'
    cases hlookup'
    exact hplanned'
  · obtain ⟨role, -, hlookup⟩ := forall₂_mem_right hread.roles hmem
    exact ((h.lookup _ _).mp hlookup).1

/-- The estimated makespan is when the last output role ends. -/
theorem PlanRead.makespan_greatest (hread : PlanRead spec s result) (houtputs : spec.outputs ≠ [])
    (hpositive : ∀ name ∈ spec.outputs, ∀ selected, s.selected.lookup name = some selected → 0 ≤ selected.finishMs) :
    (∃ name ∈ spec.outputs, ∃ selected, s.selected.lookup name = some selected ∧
      selected.finishMs = result.estimatedMakespanMs) ∧
    ∀ name ∈ spec.outputs, ∀ selected, s.selected.lookup name = some selected →
      selected.finishMs ≤ result.estimatedMakespanMs := by
  obtain ⟨outputs, hlookups, hmakespan⟩ := hread.makespan
  rw [dependencyReadyMs, foldl_max_eq] at hmakespan
  have hle : ∀ name ∈ spec.outputs, ∀ selected, s.selected.lookup name = some selected →
      selected.finishMs ≤ result.estimatedMakespanMs := by
    intro name hname selected hlookup
    obtain ⟨selected', hmem, hlookup'⟩ := forall₂_mem_left hlookups hname
    obtain rfl := Option.some.inj (hlookup.symm.trans hlookup')
    rw [hmakespan]
    exact mem_le_foldl_max (List.mem_map_of_mem hmem)
  refine ⟨?_, hle⟩
  have hcases : (outputs.map (·.finishMs)).foldl max (0 : ℚ) = 0 ∨
      (outputs.map (·.finishMs)).foldl max (0 : ℚ) ∈ outputs.map (·.finishMs) := foldl_max_cases
  rcases hcases with hzero | hmem
  · obtain ⟨name, hname⟩ := List.exists_mem_of_ne_nil _ houtputs
    obtain ⟨selected, -, hlookup⟩ := forall₂_mem_left hlookups hname
    refine ⟨name, hname, selected, hlookup, le_antisymm (hle name hname selected hlookup) ?_⟩
    rw [hmakespan]
    exact hzero.le.trans (hpositive name hname selected hlookup)
  · obtain ⟨selected, hselected, heq⟩ := List.mem_map.mp hmem
    obtain ⟨name, hname, hlookup⟩ := forall₂_mem_right hlookups hselected
    exact ⟨name, hname, selected, hlookup, heq.trans hmakespan.symm⟩

end Consistent

/-- Stages of a role start when the stage before them has ended. -/
theorem RoleTimed.stage_le {s : PlanState ℚ} {role : LogicalRoleSpec ℚ} {planned : PlannedRole ℚ}
    {selected : SelectedRole ℚ} {readyMs : ℚ} (h : RoleTimed s role planned selected readyMs) {i : Nat}
    {before after : List (PlannedPlacement ℚ)} (hbefore : planned.stages[i]? = some before)
    (hafter : planned.stages[i + 1]? = some after) {p q : PlannedPlacement ℚ} (hp : p ∈ before) (hq : q ∈ after) :
    p.finishMs ≤ q.startMs := by
  have hspans : ∀ {i : Nat} {stage : List (PlannedPlacement ℚ)}, planned.stages[i]? = some stage →
      (planned.stages.map fun stage => stage.map (·.span))[i]? = some (stage.map (·.span)) := by
    intro i stage hstage
    rw [List.getElem?_map, hstage]
    rfl
  exact h.staged.finish_le_start (hspans hbefore) (hspans hafter) (List.mem_map_of_mem hp) (List.mem_map_of_mem hq)

theorem PlannedRole.stages_succ (planned : PlannedRole ℚ) (l : Nat) :
    planned.stages[l + 1]? = (planned.reductions[l]?).map fun level => level.reductions.map (·.placement) := by
  rw [PlannedRole.stages, List.getElem?_cons_succ, List.getElem?_map]

/-- Levels are numbered from 0 on: there are fewer of them than shards, so the number does not wrap. -/
theorem PlannedRole.Planned.toNat_level {planned : PlannedRole ℚ} {role : LogicalRoleSpec ℚ} (h : planned.Planned role)
    {l : Nat} {level : PlannedReductionLevel ℚ} (hlevel : planned.reductions[l]? = some level) :
    level.level.toNat = l := by
  obtain ⟨m, hnarrows, -⟩ := h.narrows
  have hfew := h.few
  have hlength := hnarrows.length_le
  have hl := (List.getElem?_eq_some_iff.mp hlevel).1
  rw [h.numbered l level hlevel, UInt32.toNat_ofNat_of_lt' (by rw [UInt32.size]; omega)]

section Places

variable {spec : LogicalJobSpec ℚ} {s : PlanState ℚ} {done : List (PlannedRole ℚ)} {result : CooperativePlan ℚ}

/-- Every planned role is in its place. -/
def Places (spec : LogicalJobSpec ℚ) (s : PlanState ℚ) : Prop :=
  ∀ role ∈ spec.roles, ∀ planned, s.plannedRoles.lookup role.name = some planned →
    planned.Planned role ∧ ∃ selected readyMs, RoleTimed s role planned selected readyMs

theorem Places.of_mem (h : Places spec s) (hread : PlanRead spec s result) {planned : PlannedRole ℚ}
    (hplanned : planned ∈ result.roles) : ∃ role ∈ spec.roles, planned.Planned role ∧
      ∃ selected readyMs, RoleTimed s role planned selected readyMs := by
  obtain ⟨role, hrole, hlookup⟩ := forall₂_mem_right hread.roles hplanned
  exact ⟨role, hrole, h role hrole planned hlookup⟩

theorem Places.after (h : Places spec s) (hread : PlanRead spec s result) :
    List.Forall₂ (fun role planned => ∀ name ∈ role.dependsOn, ∀ other ∈ result.roles, other.name = name →
      ∀ p ∈ other.placements, ∀ shard ∈ planned.shards, p.finishMs ≤ shard.placement.startMs) spec.roles result.roles := by
  refine forall₂_imp_mem hread.roles
    fun role hrole planned _ hlookup name hname other hother hothername p hp shard hshard => ?_
  obtain ⟨-, selected, readyMs, htimed⟩ := h role hrole planned hlookup
  obtain ⟨dependency, hdependency, hle⟩ := htimed.after name hname
  obtain ⟨role', -, hplanned', selected', readyMs', htimed'⟩ := h.of_mem hread hother
  have hsame : role'.name = name := hplanned'.name.symm.trans hothername
  obtain rfl : selected' = dependency := Option.some.inj (htimed'.lookup.symm.trans (hsame ▸ hdependency))
  have hshards : shard.placement ∈ planned.placements := List.mem_append_left _ (List.mem_map_of_mem hshard)
  exact (htimed'.bounds hp).2.trans (hle.trans (htimed.bounds hshards).1)

/-- What is booked one after the other does not overlap, in whatever order it is listed. -/
theorem apart_of_books (hperm : done.Perm result.roles) {free : ResourceId → ℚ}
    (hbooks : Books (fun _ => 0) ((done.flatMap (·.placements)).map (·.span)) free)
    (hforward : ∀ planned ∈ result.roles, ∀ p ∈ planned.placements, p.startMs ≤ p.finishMs) :
    (result.roles.flatMap (·.placements)).Pairwise fun p q => p.resourceId = q.resourceId →
      p.finishMs ≤ q.startMs ∨ q.finishMs ≤ p.startMs := by
  have hforward' : ∀ t ∈ (done.flatMap (·.placements)).map (·.span), t.start ≤ t.finish := by
    intro t ht
    obtain ⟨p, hp, rfl⟩ := List.mem_map.mp ht
    obtain ⟨planned, hplanned, hp⟩ := List.mem_flatMap.mp hp
    exact hforward planned (hperm.mem_iff.mp hplanned) p hp
  have hapart := List.pairwise_map.mp (hbooks.apart hforward')
  refine (hperm.flatMap_right _).pairwise (hapart.imp fun h heq => .inl (h heq)) fun h heq => ?_
  exact (h heq.symm).symm

/-- The makespan is when the last placement of an output role ends. -/
theorem Places.makespan (h : Places spec s) (hread : PlanRead spec s result) (hjob : validateLogicalJob spec = .ok ())
    (hcost : ∀ planned ∈ result.roles, ∀ p ∈ planned.placements, 0 ≤ p.totalMs) :
    IsGreatest {ms | ∃ planned ∈ result.roles, planned.name ∈ spec.outputs ∧ ∃ p ∈ planned.placements, p.finishMs = ms}
      result.estimatedMakespanMs := by
  have hgraph := validateLogicalJob_graph hjob
  -- an output role, by its name
  have houtput : ∀ name ∈ spec.outputs, ∃ role ∈ spec.roles, role.name = name ∧ ∃ planned ∈ result.roles,
      planned.Planned role ∧ ∃ selected readyMs, RoleTimed s role planned selected readyMs := by
    intro name hname
    obtain ⟨entry, hentry, rfl⟩ := List.mem_map.mp (hgraph.outputs name hname)
    obtain ⟨role, hrole, rfl⟩ := List.mem_map.mp hentry
    obtain ⟨planned, hplanned, hlookup⟩ := forall₂_mem_left hread.roles hrole
    exact ⟨role, hrole, rfl, planned, hplanned, h role hrole planned hlookup⟩
  have hpositive : ∀ name ∈ spec.outputs, ∀ selected, s.selected.lookup name = some selected → 0 ≤ selected.finishMs := by
    intro name hname selected hlookup
    obtain ⟨role, -, rfl, planned, -, -, selected', readyMs, htimed⟩ := houtput name hname
    obtain rfl := Option.some.inj (hlookup.symm.trans htimed.lookup)
    exact htimed.ready.trans htimed.staged.ready_le_finish
  obtain ⟨⟨name, hname, selected, hlookup, heq⟩, hle⟩ :=
    hread.makespan_greatest (validateLogicalJob_outputs hjob) hpositive
  constructor
  · obtain ⟨role, hrole, rfl, planned, hplanned, hof, selected', readyMs, htimed⟩ := houtput name hname
    obtain rfl := Option.some.inj (hlookup.symm.trans htimed.lookup)
    have hshards := hof.shards ((validateLogicalJob_ok hjob).2 role hrole).shards
    obtain ⟨p, hp, hend⟩ := htimed.attained hshards (hcost planned hplanned)
    exact ⟨planned, hplanned, hof.name ▸ hname, p, hp, hend.trans heq⟩
  · rintro ms ⟨planned, hplanned, hname, p, hp, rfl⟩
    obtain ⟨role, -, hof, selected', readyMs, htimed⟩ := h.of_mem hread hplanned
    exact (htimed.bounds hp).2.trans (hle planned.name hname selected' (hof.name ▸ htimed.lookup))

end Places

/-- **Planned timelines are consistent.** A plan whose placements take no negative time lists every role once and in
order, starts a role after its dependencies and a level after the one before it, never uses a resource for two placements
at a time, and ends when the last placement of an output role does. -/
theorem plan_consistent {fuel : Nat} {e : Env} {spec : LogicalJobSpec ℚ} {scheduler : TopologyAwareScheduler ℚ}
    {resources : List (ResourceDescriptor ℚ)} {objects : Objects} {topology : TopologySnapshot ℚ}
    {result : CooperativePlan ℚ} (h : plan fuel e spec scheduler resources objects topology = .ok result)
    (hcost : ∀ planned ∈ result.roles, ∀ p ∈ planned.placements, 0 ≤ p.totalMs) : result.Consistent spec := by
  obtain ⟨hjob, hobjects⟩ := plan_valid h
  obtain ⟨hnames, hvalid⟩ := validateLogicalJob_ok hjob
  rcases plan_cases hjob hobjects scheduler resources topology (I := fun s => ∃ done, Timed spec s done)
    ⟨[], timed_start objects⟩ (fun role hrole s s' dependencies selected planned hs hnew hstep =>
      hs.elim fun done hdone => ⟨done ++ [planned], hdone.next hnames hrole hnew hstep⟩) fuel e with
    ⟨role, -, hfail⟩ | ⟨result', s, hok, ⟨done, htimed⟩, hsound, hread⟩ | ⟨hfuel, -⟩
  · rw [hfail] at h
    cases h
  · rw [hok] at h
    cases h
    have hplaces : Places spec s := fun role hrole planned hlookup =>
      ⟨hread.planned hsound hrole hlookup, htimed.timed role hrole planned hlookup⟩
    have hroles : result.roles.map (·.name) = spec.roles.map (·.name) := map_eq_of_forall₂
      (forall₂_imp_mem hread.roles fun role hrole planned _ hlookup => (hplaces role hrole planned hlookup).1.name)
    have hfinish : ∀ planned ∈ result.roles, ∀ p ∈ planned.placements, p.finishMs = p.startMs + p.totalMs := by
      intro planned hplanned
      obtain ⟨role, -, -, selected, readyMs, hrole⟩ := hplaces.of_mem hread hplanned
      exact hrole.finish
    refine
      { roles := ⟨hroles, hroles ▸ hnames⟩
        after := hplaces.after hread
        firstLevel := fun planned hplanned level hlevel shard hshard r hr => ?_
        nextLevel := fun planned hplanned l level next hlevel hnext r hr r' hr' => ?_
        numbered := fun planned hplanned l level hlevel => ?_
        apart := apart_of_books (htimed.perm hnames hsound hread hroles) htimed.books fun planned hplanned p hp => ?_
        finish := hfinish
        makespan := hplaces.makespan hread hjob hcost }
    · obtain ⟨role, -, -, selected, readyMs, hrole⟩ := hplaces.of_mem hread hplanned
      refine hrole.stage_le (i := 0) rfl ?_ (List.mem_map_of_mem hshard) (List.mem_map_of_mem hr)
      rw [planned.stages_succ, hlevel, Option.map_some]
    · obtain ⟨role, -, -, selected, readyMs, hrole⟩ := hplaces.of_mem hread hplanned
      refine hrole.stage_le (i := l + 1) ?_ ?_ (List.mem_map_of_mem hr) (List.mem_map_of_mem hr')
      · rw [planned.stages_succ, hlevel, Option.map_some]
      · rw [planned.stages_succ, hnext, Option.map_some]
    · obtain ⟨role, -, hof, -⟩ := hplaces.of_mem hread hplanned
      exact hof.toNat_level hlevel
    · rw [hfinish planned hplanned p hp]
      exact le_add_of_nonneg_right (hcost planned hplanned p hp)
  · rw [hfuel] at h
    cases h

theorem plan_consistent_tree : ∃ result, treePlan = .ok result ∧ result.Consistent treeJob := by
  have hsome : treePlan.toOption.isSome = true := by decide +kernel
  have hnonneg : (treePlan.toOption.all fun result => result.roles.all fun planned =>
      planned.placements.all fun p => decide (0 ≤ p.totalMs)) = true := by
    decide +kernel
  cases hplan : treePlan with
  | error err =>
    rw [hplan] at hsome
    cases hsome
  | ok result =>
    rw [hplan] at hnonneg
    refine ⟨result, rfl, plan_consistent hplan fun planned hplanned p hp => ?_⟩
    exact of_decide_eq_true (List.all_eq_true.mp (List.all_eq_true.mp hnonneg planned hplanned) p hp)

end Plurifold
