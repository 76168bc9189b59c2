import Plurifold.Planner.ShardSearch
import Plurifold.Lib.Greedy

/-!
# Fixed sharding is optimal

The shards of a role with a fixed count cost the same wherever they are placed (`shardRuns_iff`). `chooseShards` places
each where it finishes first (`bestShard_best`), so that it places them greedily (`chooseShardsLoop_greedy`); no way of
placing as many shards ends earlier (`fixed_sharding_optimal`).
-/

namespace Plurifold

open Lib

variable {role : LogicalRoleSpec ℚ} {dependencyInputs : List ObjectId} {count : UInt32} {readyMs : ℚ}
  {available available' : Availability ℚ} {context context' : ShardPlanningContext ℚ} {e e' : Env}

/-! ## What a shard costs -/

/-- Shard `i` of `count` takes `ms` on resource `r` as one of the role's implementations. -/
def ShardRuns (e : Env) (role : LogicalRoleSpec ℚ) (dependencyInputs : List ObjectId) (count : UInt32)
    (context : ShardPlanningContext ℚ) (i : Nat) (r : ResourceId) (ms : ℚ) : Prop :=
  ∃ implementation ∈ role.implementations, ∃ resource ∈ context.resources, resource.id = r ∧ ∃ task cost,
    instantiateShardTask e implementation.task dependencyInputs (UInt32.ofNat i) count none context.objects = some task ∧
    placementCost context.scheduler task resource context.objects context.topology = some cost ∧ cost.totalMs = ms

/-- The task of a shard of an undivided input. -/
def shardTask (e : Env) (template : TaskTemplate ℚ) (dependencyInputs : List ObjectId) (index count : UInt32) :
    TaskSpec ℚ :=
  { template.instantiate e dependencyInputs with shard := some ⟨index, count, none⟩ }

/-- Neither its index nor its name changes what a shard costs. -/
theorem placementCost_shardTask {template : TaskTemplate ℚ} {index index' : UInt32} {resource : ResourceDescriptor ℚ} :
    placementCost context.scheduler (shardTask e template dependencyInputs index count) resource context.objects
      context.topology =
    placementCost context.scheduler (shardTask e' template dependencyInputs index' count) resource context.objects
      context.topology :=
  placementCost_related rfl rfl (fun _ => rfl) (List.forall₂_same.mpr fun _ _ => rfl)

theorem shardRuns_iff (e' : Env) {i : Nat} {r : ResourceId} {ms : ℚ} :
    ShardRuns e role dependencyInputs count context i r ms ↔
      ∃ implementation ∈ role.implementations, ∃ resource ∈ context.resources, resource.id = r ∧ ∃ cost,
        placementCost context.scheduler (shardTask e' implementation.task dependencyInputs 0 count) resource
          context.objects context.topology = some cost ∧ cost.totalMs = ms := by
  refine exists_congr fun implementation => and_congr_right fun _ => exists_congr fun resource => ?_
  refine and_congr_right fun _ => and_congr_right fun _ => ?_
  constructor
  · rintro ⟨task, cost, htask, hcost, hms⟩
    cases htask
    exact ⟨cost, placementCost_shardTask.trans hcost, hms⟩
  · rintro ⟨cost, hcost, hms⟩
    exact ⟨_, cost, rfl, placementCost_shardTask.trans hcost, hms⟩

theorem ShardRuns.index {i i' : Nat} {r : ResourceId} {ms : ℚ}
    (h : ShardRuns e role dependencyInputs count context i r ms) :
    ShardRuns e' role dependencyInputs count context i' r ms := (shardRuns_iff e).mpr ((shardRuns_iff e).mp h)

/-! ## The best place for a shard -/

def ReadyShardSelection.finishMs (selection : ReadyShardSelection ℚ) : ℚ := selection.startMs + selection.cost.totalMs

/-- The earlier a shard finishes, the better. -/
def earliness (selection : ReadyShardSelection ℚ) : ℚᵒᵈ := OrderDual.toDual selection.finishMs

theorem le_of_finishesBefore {a p b q : ℚ} (h : finishesBefore a p b q = true) : a + p ≤ b + q := by
  unfold finishesBefore at h
  rcases totalCmp_cases (a + p) (b + q) with ⟨_, hlt⟩ | ⟨_, heq⟩ | ⟨hcmp, _⟩
  · exact hlt.le
  · exact heq.le
  · rw [hcmp] at h
    cases h

theorem le_of_not_finishesBefore {a p b q : ℚ} (h : ¬finishesBefore a p b q = true) : b + q ≤ a + p := by
  unfold finishesBefore at h
  rcases totalCmp_cases (a + p) (b + q) with ⟨hcmp, _⟩ | ⟨_, heq⟩ | ⟨_, hgt⟩
  · rw [hcmp] at h
    exact absurd rfl h
  · exact heq.ge
  · exact hgt.le

/-- The selections for one implementation of one shard. -/
def OnResources (implementation : String) (task : TaskSpec ℚ) (index : UInt32) (readyMs : ℚ) (available : Availability ℚ)
    (context : ShardPlanningContext ℚ) (selection : ReadyShardSelection ℚ) : Prop :=
  ∃ resource ∈ context.resources, ∃ cost,
    placementCost context.scheduler task resource context.objects context.topology = some cost ∧
    selection = ⟨index, implementation, task, resource.id, startMs readyMs available resource.id, cost⟩

theorem bestShardOnResources_best {implementation : String} {task : TaskSpec ℚ} {index : UInt32}
    {C : ReadyShardSelection ℚ → Prop} {best : Option (ReadyShardSelection ℚ)} (h : BestOf earliness C best) :
    BestOf earliness
      (fun selection => C selection ∨ OnResources implementation task index readyMs available context selection)
      (bestShardOnResources implementation task index readyMs available context best) := by
  unfold bestShardOnResources
  refine foldl_gathers (I := BestOf earliness) (D := fun (resource : ResourceDescriptor ℚ) selection => ∃ cost,
    placementCost context.scheduler task resource context.objects context.topology = some cost ∧
    selection = ⟨index, implementation, task, resource.id, startMs readyMs available resource.id, cost⟩)
    context.resources (fun resource _ C best h => ?_) h
  cases hcost : placementCost context.scheduler task resource context.objects context.topology with
  | none => exact h.congr fun c => by simp
  | some cost =>
    dsimp only
    refine BestOf.congr (h.offer (fun htaken current hcurrent => ?_) fun hdropped => ?_) fun c => by simp
    · subst hcurrent
      exact le_of_finishesBefore htaken
    · cases best with
      | none => exact absurd rfl hdropped
      | some current => exact ⟨current, rfl, le_of_not_finishesBefore hdropped⟩

/-- The selections for one shard. -/
def Selectable (e : Env) (role : LogicalRoleSpec ℚ) (dependencyInputs : List ObjectId) (index count : UInt32)
    (readyMs : ℚ) (available : Availability ℚ) (context : ShardPlanningContext ℚ) (selection : ReadyShardSelection ℚ) :
    Prop :=
  ∃ entry ∈ role.implementations.zipIdx,
    OnResources entry.1.name (shardTask (e.sub entry.2) entry.1.task dependencyInputs index count) index readyMs
      available context selection

/-- The loop over the implementations ends with the selection that finishes first. -/
theorem bestShard_best (e : Env) (index : UInt32) : ∃ best,
    bestShard e role dependencyInputs index count none readyMs available context = some best ∧
    BestOf earliness (Selectable e role dependencyInputs index count readyMs available context) best := by
  obtain ⟨best, hbest, hof⟩ := foldlM_gathers (I := BestOf earliness)
    (f := fun best (entry : RoleImplementation ℚ × Nat) => do
      let task ← instantiateShardTask (e.sub entry.2) entry.1.task dependencyInputs index count none context.objects
      pure (bestShardOnResources entry.1.name task index readyMs available context best))
    (D := fun (entry : RoleImplementation ℚ × Nat) selection =>
      OnResources entry.1.name (shardTask (e.sub entry.2) entry.1.task dependencyInputs index count) index readyMs
        available context selection) role.implementations.zipIdx
    (fun entry _ C best h => ⟨_, rfl, bestShardOnResources_best h⟩) bestOf_none
  exact ⟨best, hbest, hof.congr fun c => by simp [Selectable]⟩

/-- Every place for a shard is among the selections. -/
theorem exists_selection {i : Nat} {r : ResourceId} {ms : ℚ} (index : UInt32)
    (h : ShardRuns e role dependencyInputs count context i r ms) (e' : Env) : ∃ selection,
    Selectable e' role dependencyInputs index count readyMs available context selection ∧
      selection.finishMs = startMs readyMs available r + ms := by
  obtain ⟨implementation, himplementation, resource, hresource, rfl, cost, hcost, rfl⟩ := (shardRuns_iff e).mp h
  obtain ⟨k, hk⟩ := exists_mem_zipIdx himplementation
  exact ⟨_, ⟨(implementation, k), hk, resource, hresource, cost, placementCost_shardTask.trans hcost, rfl⟩, rfl⟩

/-- The selection of `bestShard` is a place for the shard, and the one where it finishes first. -/
theorem bestShard_first {e : Env} {i : Nat} {selected : ReadyShardSelection ℚ}
    (h : bestShard e role dependencyInputs (UInt32.ofNat i) count none readyMs available context =
      some (some selected)) (e' : Env) :
    ShardRuns e' role dependencyInputs count context 0 selected.resourceId selected.cost.totalMs ∧
    selected.startMs = startMs readyMs available selected.resourceId ∧
    ∀ r ms, ShardRuns e' role dependencyInputs count context 0 r ms →
      selected.finishMs ≤ startMs readyMs available r + ms := by
  obtain ⟨best, hbest, hof⟩ : ∃ best,
      bestShard e role dependencyInputs (UInt32.ofNat i) count none readyMs available context = some best ∧ _ :=
    bestShard_best e _
  rw [h] at hbest
  cases hbest
  refine ⟨?_, ?_, fun r ms hruns => ?_⟩
  · obtain ⟨entry, hentry, resource, hresource, cost, hcost, rfl⟩ := hof.real _ rfl
    exact (shardRuns_iff e).mpr ⟨entry.1, List.fst_mem_of_mem_zipIdx hentry, resource, hresource, rfl, cost,
      placementCost_shardTask.trans hcost, rfl⟩
  · obtain ⟨entry, hentry, resource, hresource, cost, hcost, rfl⟩ := hof.real _ rfl
    rfl
  · obtain ⟨selection, hselection, hfinish⟩ := exists_selection (UInt32.ofNat i) hruns e
    obtain ⟨best, hbest, hle⟩ := hof.covered selection hselection
    cases hbest
    rw [← hfinish]
    exact hle

/-! ## All shards -/

/-- The resource of a shard and the time it takes there. -/
def ReadyShardSelection.job (selection : ReadyShardSelection ℚ) : ResourceId × ℚ :=
  (selection.resourceId, selection.cost.totalMs)

theorem startMs_insert {r : ResourceId} {ms : ℚ} (h : readyMs ≤ ms) :
    startMs readyMs (available.insert r ms) = Function.update (startMs readyMs available) r ms := by
  funext r'
  rw [startMs_eq, freeAt_insert]
  by_cases heq : r' = r
  · subst heq
    rw [Function.update_self, Function.update_self, max_eq_right h]
  · rw [Function.update_of_ne heq, Function.update_of_ne heq, startMs_eq]

/-- The shards are placed greedily, and finish when they would if run back to back. -/
theorem chooseShardsLoop_greedy (hnonneg : ∀ r ms, ShardRuns e' role dependencyInputs count context 0 r ms → 0 ≤ ms)
    {indexes : List Nat} {selected : List (ReadyShardSelection ℚ)}
    (h : chooseShardsLoop e role dependencyInputs count none readyMs context indexes available =
      (some selected, available')) :
    Greedy (ShardRuns e' role dependencyInputs count context 0) (startMs readyMs available) (selected.map (·.job)) ∧
      finishes (startMs readyMs available) (selected.map (·.job)) = selected.map (·.finishMs) := by
  induction indexes generalizing available selected with
  | nil =>
    cases h
    exact ⟨.nil, rfl⟩
  | cons i indexes ih =>
    obtain ⟨first, rest, hfirst, hrest, rfl⟩ := chooseShardsLoop_cons.mp h
    obtain ⟨hruns, hstart, hearliest⟩ := bestShard_first hfirst e'
    have hready : readyMs ≤ first.startMs + first.cost.totalMs := by
      have hle : readyMs ≤ first.startMs := by
        rw [hstart, startMs_eq]
        exact le_max_left _ _
      linarith [hnonneg _ _ hruns]
    obtain ⟨hgreedy, hfinishes⟩ := ih hrest
    rw [startMs_insert hready] at hgreedy hfinishes
    have hfinish : startMs readyMs available first.resourceId + first.cost.totalMs = first.finishMs := by
      rw [← hstart]
      rfl
    have hfinish' : first.startMs + first.cost.totalMs = first.finishMs := rfl
    rw [List.map_cons]
    refine ⟨.cons hruns (fun r ms hoffer => ?_) ?_, ?_⟩
    · rw [hfinish]
      exact hearliest r ms hoffer
    · rwa [hfinish, ← hfinish']
    · show _ :: finishes (Function.update _ first.resourceId (startMs readyMs available first.resourceId +
        first.cost.totalMs)) _ = _
      rw [hfinish, ← hfinish', hfinishes]
      rfl

/-- A place for one shard is enough for all of them. -/
theorem chooseShardsLoop_isSome {i : Nat} {r : ResourceId} {ms : ℚ}
    (h : ShardRuns e' role dependencyInputs count context i r ms) (indexes : List Nat) (available : Availability ℚ) :
    (chooseShardsLoop e role dependencyInputs count none readyMs context indexes available).1.isSome = true := by
  induction indexes generalizing available with
  | nil => rfl
  | cons i indexes ih =>
    obtain ⟨best, hbest, hof⟩ : ∃ best, bestShard (e.sub i) role dependencyInputs (UInt32.ofNat i) count none readyMs
        available context = some best ∧ _ := bestShard_best _ _
    obtain ⟨selection, hselection, -⟩ := exists_selection (UInt32.ofNat i) h (e.sub i)
    obtain ⟨first, rfl, -⟩ := hof.covered selection hselection
    obtain ⟨rest, hrest⟩ := Option.isSome_iff_exists.mp
      (ih (available.insert first.resourceId (first.startMs + first.cost.totalMs)))
    rw [Option.isSome_iff_exists]
    exact ⟨first :: rest, congrArg Prod.fst (chooseShardsLoop_cons.mpr ⟨first, rest, hbest, Prod.ext hrest rfl, rfl⟩)⟩

/-- The shards assigned to resources, each with the time it takes there as one of the role's implementations. -/
def ShardsAssigned (e : Env) (role : LogicalRoleSpec ℚ) (dependencyInputs : List ObjectId) (count : UInt32)
    (context : ShardPlanningContext ℚ) (jobs : List (ResourceId × ℚ)) : Prop :=
  List.Forall₂ (fun i job => ShardRuns e role dependencyInputs count context i job.1 job.2) (List.range count.toNat) jobs

theorem shardsAssigned_iff {jobs : List (ResourceId × ℚ)} : ShardsAssigned e role dependencyInputs count context jobs ↔
    jobs.length = count.toNat ∧ ∀ job ∈ jobs, ShardRuns e role dependencyInputs count context 0 job.1 job.2 := by
  unfold ShardsAssigned
  constructor
  · intro h
    refine ⟨h.length_eq.symm.trans List.length_range, fun job hjob => ?_⟩
    obtain ⟨i, -, hruns⟩ := forall₂_mem_right h hjob
    exact hruns.index
  · rintro ⟨hlength, hall⟩
    refine List.forall₂_iff_zip.mpr ⟨by rw [List.length_range, hlength], fun hmem => ?_⟩
    exact (hall _ (List.of_mem_zip hmem).2).index

/-- More resources leave every assignment in place. -/
theorem ShardsAssigned.mono {resources : List (ResourceDescriptor ℚ)} (hmore : context.resources ⊆ resources)
    {jobs : List (ResourceId × ℚ)} (h : ShardsAssigned e role dependencyInputs count context jobs) :
    ShardsAssigned e role dependencyInputs count { context with resources } jobs := by
  refine h.imp fun i job hruns => ?_
  obtain ⟨implementation, himplementation, resource, hresource, hcost⟩ := hruns
  exact ⟨implementation, himplementation, resource, hmore hresource, hcost⟩

theorem ShardsAssigned.exists_runs {jobs : List (ResourceId × ℚ)}
    (h : ShardsAssigned e role dependencyInputs count context jobs) (hcount : 0 < count.toNat) :
    ∃ r ms, ShardRuns e role dependencyInputs count context 0 r ms := by
  obtain ⟨hlength, hall⟩ := shardsAssigned_iff.mp h
  obtain ⟨job, hjob⟩ := List.exists_mem_of_length_pos (hlength ▸ hcount)
  exact ⟨job.1, job.2, hall job hjob⟩

section Chosen

variable (hnonneg : ∀ r ms, ShardRuns e' role dependencyInputs count context 0 r ms → 0 ≤ ms)
  {selections : List (ReadyShardSelection ℚ)}

include hnonneg

/-- The jobs of the shards that are placed are an assignment of them, a greedy one. -/
theorem chooseShards_greedy
    (h : (chooseShards e role dependencyInputs count none readyMs available context).1 = some selections) :
    Greedy (ShardRuns e' role dependencyInputs count context 0) (startMs readyMs available) (selections.map (·.job)) ∧
      finishes (startMs readyMs available) (selections.map (·.job)) = selections.map (·.finishMs) ∧
      ShardsAssigned e' role dependencyInputs count context (selections.map (·.job)) := by
  have hrun : chooseShards e role dependencyInputs count none readyMs available context = (some selections, _) :=
    Prod.ext h rfl
  obtain ⟨hgreedy, hfinishes⟩ := chooseShardsLoop_greedy hnonneg hrun
  refine ⟨hgreedy, hfinishes, shardsAssigned_iff.mpr ⟨?_, hgreedy.offers⟩⟩
  rw [List.length_map, chooseShards_length hrun]

/-- The last selected shard finishes no later than the last one of any assignment. -/
theorem chooseShards_latest_le
    (h : (chooseShards e role dependencyInputs count none readyMs available context).1 = some selections)
    {jobs : List (ResourceId × ℚ)} (hjobs : ShardsAssigned e' role dependencyInputs count context jobs) {ms t : ℚ}
    (hms : IsGreatest {t | t ∈ selections.map (·.finishMs)} ms)
    (ht : IsGreatest {x | x ∈ finishes (startMs readyMs available) jobs} t) : ms ≤ t := by
  obtain ⟨hgreedy, hfinishes, hassigned⟩ := chooseShards_greedy hnonneg h
  obtain ⟨hlength, hall⟩ := shardsAssigned_iff.mp hjobs
  rw [← hfinishes] at hms
  apply hgreedy.latest_le _ _ hms ht
  · intro job hjob
    exact ⟨hall job hjob, hnonneg _ _ (hall job hjob)⟩
  · rw [hlength, (shardsAssigned_iff.mp hassigned).1]

/-- Shards are placed if and only if there is a place for one. -/
theorem chooseShards_isSome_iff (hcount : 0 < count.toNat) :
    (chooseShards e role dependencyInputs count none readyMs available context).1.isSome = true ↔
      ∃ r ms, ShardRuns e' role dependencyInputs count context 0 r ms := by
  constructor
  · intro hsome
    obtain ⟨selections, hchosen⟩ := Option.isSome_iff_exists.mp hsome
    obtain ⟨-, -, hassigned⟩ := chooseShards_greedy hnonneg hchosen
    exact hassigned.exists_runs hcount
  · rintro ⟨r, ms, hruns⟩
    exact chooseShardsLoop_isSome hruns _ _

end Chosen

/-- Of the selected shards, one finishes last. -/
theorem chooseShards_latest (hcount : 0 < count.toNat) {selections : List (ReadyShardSelection ℚ)}
    (h : (chooseShards e role dependencyInputs count none readyMs available context).1 = some selections) :
    ∃ ms, IsGreatest {t | t ∈ selections.map (·.finishMs)} ms := by
  apply exists_latest
  rw [← List.length_pos_iff, List.length_map, chooseShards_length (Prod.ext h rfl)]
  exact hcount

/-- **Fixed sharding is optimal.** When no place for a shard takes negative time, the shards can be placed if one can.
The last of them finishes as early as in any assignment of the shards in which the shards of a resource run back to back
from when it is free and the inputs are ready; more resources never make it finish later. -/
theorem fixed_sharding_optimal (hcount : 1 ≤ count.toNat) (e : Env)
    (hnonneg : ∀ i < count.toNat, ∀ r ms, ShardRuns e role dependencyInputs count context i r ms → 0 ≤ ms) (readyMs : ℚ)
    (available : Availability ℚ) :
    let chosen := fun context => (chooseShards e role dependencyInputs count none readyMs available context).1
    ((chosen context).isSome = true ↔
      ∃ i < count.toNat, ∃ r ms, ShardRuns e role dependencyInputs count context i r ms) ∧
    ∀ selections, chosen context = some selections → ∃ ms, IsGreatest {t | t ∈ selections.map (·.finishMs)} ms ∧
      IsLeast {t | ∃ jobs, ShardsAssigned e role dependencyInputs count context jobs ∧
        IsGreatest {x | x ∈ finishes (startMs readyMs available) jobs} t} ms ∧
      ∀ resources, context.resources ⊆ resources →
        (∀ i < count.toNat, ∀ r ms,
          ShardRuns e role dependencyInputs count { context with resources } i r ms → 0 ≤ ms) →
        ∃ selections' ms', chosen { context with resources } = some selections' ∧
          IsGreatest {t | t ∈ selections'.map (·.finishMs)} ms' ∧ ms' ≤ ms := by
  intro chosen
  have hfirst := fun r ms => hnonneg 0 hcount r ms
  constructor
  · refine (chooseShards_isSome_iff hfirst hcount).trans ⟨fun ⟨r, ms, hruns⟩ => ⟨0, hcount, r, ms, hruns⟩, ?_⟩
    rintro ⟨i, -, r, ms, hruns⟩
    exact ⟨r, ms, hruns.index⟩
  · intro selections hchosen
    obtain ⟨-, hfinishes, hassigned⟩ := chooseShards_greedy hfirst hchosen
    obtain ⟨ms, hms⟩ := chooseShards_latest hcount hchosen
    refine ⟨ms, hms, ⟨⟨_, hassigned, hfinishes ▸ hms⟩, ?_⟩, fun resources hmore hnonneg' => ?_⟩
    · rintro t ⟨jobs, hjobs, ht⟩
      exact chooseShards_latest_le hfirst hchosen hjobs hms ht
    · -- the assignment found with fewer resources is one with more
      have hfirst' := fun r ms => hnonneg' 0 hcount r ms
      have hkept := hassigned.mono hmore
      have hsome : (chosen { context with resources }).isSome = true :=
        (chooseShards_isSome_iff hfirst' hcount).mpr (hkept.exists_runs hcount)
      obtain ⟨selections', hchosen'⟩ := Option.isSome_iff_exists.mp hsome
      obtain ⟨ms', hms'⟩ := chooseShards_latest hcount hchosen'
      exact ⟨selections', ms', hchosen', hms', chooseShards_latest_le hfirst' hchosen' hkept hms' (hfinishes ▸ hms)⟩

theorem fixed_sharding_optimal_three : ∃ selections ms,
    (chooseShards sampleNames (sampleRole "map" 8) [] 3 none 0 ∅ searchContext).1 = some selections ∧
      IsLeast {t | ∃ jobs, ShardsAssigned sampleNames (sampleRole "map" 8) [] 3 searchContext jobs ∧
        IsGreatest {x | x ∈ finishes (startMs 0 ∅) jobs} t} ms := by
  have hcosts : (searchContext.resources.all fun resource =>
      (sampleRole "map" 8).implementations.all fun implementation =>
        (placementCost searchContext.scheduler (shardTask sampleNames implementation.task [] 0 3) resource
          searchContext.objects searchContext.topology).all fun cost => decide (0 ≤ cost.totalMs)) = true := by
    decide +kernel
  have hnonneg : ∀ i < (3 : UInt32).toNat, ∀ r ms,
      ShardRuns sampleNames (sampleRole "map" 8) [] 3 searchContext i r ms → 0 ≤ ms := by
    intro i _ r ms hruns
    obtain ⟨implementation, himplementation, resource, hresource, -, cost, hcost, rfl⟩ :=
      (shardRuns_iff sampleNames).mp hruns
    have hle := List.all_eq_true.mp (List.all_eq_true.mp hcosts resource hresource) implementation himplementation
    rw [hcost] at hle
    exact of_decide_eq_true hle
  have hsome : (chooseShards sampleNames (sampleRole "map" 8) [] 3 none 0 ∅ searchContext).1.isSome = true := by
    decide +kernel
  obtain ⟨selections, hselections⟩ := Option.isSome_iff_exists.mp hsome
  obtain ⟨-, hoptimal⟩ := fixed_sharding_optimal (by decide) sampleNames hnonneg 0 ∅
  obtain ⟨ms, -, hleast, -⟩ := hoptimal selections hselections
  exact ⟨selections, ms, hselections, hleast⟩

end Plurifold
