import Plurifold.Planner.Partition
import Plurifold.Planner.Validate
import Plurifold.Planner.Placement
import Plurifold.Lib.Search
import Mathlib.Tactic.Linarith

/-!
# How shards are placed and counted

`chooseShards` places one shard after the other (`chooseShardsLoop_cons`), each drawn up from an implementation of the
role and started when its resource is free (`bestShard_spec`).

`chooseAutoShards` tries every shard count from the same availability and leaves the best so far only for a count whose
makespan gains the share that the policy asks for (`Gains`). It takes over the availability of the count it settles on
(`chooseAutoShards_chosen`). What it settles on is a leader among the feasible counts (`auto_shards_search`).
-/

namespace Plurifold

open Lib

variable {F : Type} [F64 F]

/-! ## One shard after the other -/

theorem bestShardOnResources_spec {implementation : String} {task : TaskSpec F} {index : UInt32} {readyMs : F}
    {available : Availability F} {context : ShardPlanningContext F} {best : Option (ReadyShardSelection F)}
    {selected : ReadyShardSelection F}
    (h : bestShardOnResources implementation task index readyMs available context best = some selected) :
    best = some selected ∨ (selected.task = task ∧ selected.index = index ∧
      selected.startMs = startMs readyMs available selected.resourceId) := by
  suffices hall : ∀ selected, bestShardOnResources implementation task index readyMs available context best =
      some selected → best = some selected ∨ (selected.task = task ∧ selected.index = index ∧
        selected.startMs = startMs readyMs available selected.resourceId) from hall selected h
  unfold bestShardOnResources
  refine List.foldlRecOn (motive := fun now => ∀ selected : ReadyShardSelection F, now = some selected →
    best = some selected ∨ (selected.task = task ∧ selected.index = index ∧
      selected.startMs = startMs readyMs available selected.resourceId)) _ _ (fun _ h => .inl h) ?_
  intro now ih resource _ selected h
  split at h
  · exact ih selected h
  · rcases replaced_or_kept h with rfl | h
    · exact .inr ⟨rfl, rfl, rfl⟩
    · exact ih selected h

section Shards

variable {role : LogicalRoleSpec F} {dependencyInputs : List ObjectId} {policy : Option (AutoShardPolicy F)}
  {readyMs : F} {context : ShardPlanningContext F}

/-- A shard as `chooseShards` draws it up, from one implementation of the role. -/
structure ShardDrawn (e : Env) (role : LogicalRoleSpec F) (dependencyInputs : List ObjectId) (count : UInt32)
    (policy : Option (AutoShardPolicy F)) (objects : Objects) (i : Nat) (selected : ReadyShardSelection F) : Prop where
  index : selected.index = UInt32.ofNat i
  task : ∃ implementation ∈ role.implementations, ∃ k, instantiateShardTask (e.sub k) implementation.task
    dependencyInputs (UInt32.ofNat i) count policy objects = some selected.task

theorem bestShard_spec {e : Env} {i : Nat} {count : UInt32} {available : Availability F}
    {selected : ReadyShardSelection F}
    (h : bestShard e role dependencyInputs (UInt32.ofNat i) count policy readyMs available context =
      some (some selected)) : ShardDrawn e role dependencyInputs count policy context.objects i selected ∧
      selected.startMs = startMs readyMs available selected.resourceId := by
  refine foldlM_some_inv (I := fun best => ∀ selected, best = some selected →
    ShardDrawn e role dependencyInputs count policy context.objects i selected ∧
      selected.startMs = startMs readyMs available selected.resourceId) _ (fun _ h => by cases h) ?_ h selected rfl
  rintro best ⟨implementation, k⟩ best' hmem ih hbest selected hselected
  obtain ⟨task, htask, hbest⟩ := Option.bind_eq_some_iff.mp hbest
  cases hbest
  rcases bestShardOnResources_spec hselected with h | ⟨rfl, hindex, hstart⟩
  · exact ih selected h
  · exact ⟨⟨hindex, implementation, List.fst_mem_of_mem_zipIdx hmem, k, htask⟩, hstart⟩

/-- The first shard is the best one, the others are placed around it. -/
theorem chooseShardsLoop_cons {e : Env} {count : UInt32} {i : Nat} {indexes : List Nat}
    {available available' : Availability F} {selected : List (ReadyShardSelection F)} :
    chooseShardsLoop e role dependencyInputs count policy readyMs context (i :: indexes) available =
      (some selected, available') ↔
    ∃ first rest, bestShard (e.sub i) role dependencyInputs (UInt32.ofNat i) count policy readyMs available context =
        some (some first) ∧
      chooseShardsLoop e role dependencyInputs count policy readyMs context indexes
        (available.insert first.resourceId (first.startMs + first.cost.totalMs)) = (some rest, available') ∧
      selected = first :: rest := by
  rw [chooseShardsLoop]
  cases bestShard (e.sub i) role dependencyInputs (UInt32.ofNat i) count policy readyMs available context with
  | none => simp
  | some best =>
    cases best with
    | none => simp
    | some first =>
      dsimp only
      rcases hrest : chooseShardsLoop e role dependencyInputs count policy readyMs context indexes
        (available.insert first.resourceId (first.startMs + first.cost.totalMs)) with ⟨_ | rest, available''⟩
      · simp [hrest]
      · constructor
        · intro h
          cases h
          exact ⟨first, rest, rfl, hrest, rfl⟩
        · rintro ⟨first', rest', hfirst, hrest', rfl⟩
          cases hfirst
          rw [hrest] at hrest'
          cases hrest'
          rfl

theorem chooseShardsLoop_drawn {e : Env} {count : UInt32} {indexes : List Nat} {available available' : Availability F}
    {selected : List (ReadyShardSelection F)}
    (h : chooseShardsLoop e role dependencyInputs count policy readyMs context indexes available =
      (some selected, available')) :
    List.Forall₂ (fun i shard => ShardDrawn (e.sub i) role dependencyInputs count policy context.objects i shard)
      indexes selected := by
  induction indexes generalizing available selected with
  | nil =>
    cases h
    exact .nil
  | cons i indexes ih =>
    obtain ⟨first, rest, hfirst, hrest, rfl⟩ := chooseShardsLoop_cons.mp h
    exact .cons (bestShard_spec hfirst).1 (ih hrest)

theorem chooseShards_length {e : Env} {count : UInt32} {available available' : Availability F}
    {selected : List (ReadyShardSelection F)}
    (h : chooseShards e role dependencyInputs count policy readyMs available context = (some selected, available')) :
    selected.length = count.toNat := by
  rw [← (chooseShardsLoop_drawn h).length_eq, List.length_range]

end Shards

/-! ## When resources are free -/

theorem f64_max (a b : ℚ) : F64.max a b = max a b := by
  show (if a < b then b else a) = max a b
  split
  · rename_i hlt
    exact (max_eq_right hlt.le).symm
  · rename_i hge
    exact (max_eq_left (not_lt.mp hge)).symm

/-- When a resource becomes free; at once if it is not in use. -/
def freeAt (available : Availability ℚ) (r : ResourceId) : ℚ := (available.lookup r).getD 0

theorem freeAt_insert (available : Availability ℚ) (r : ResourceId) (ms : ℚ) :
    freeAt (available.insert r ms) = Function.update (freeAt available) r ms := by
  funext r'
  by_cases h : r' = r
  · subst h
    rw [freeAt, AList.lookup_insert, Function.update_self]
    rfl
  · rw [freeAt, AList.lookup_insert_ne h, Function.update_of_ne h]
    rfl

theorem startMs_eq (readyMs : ℚ) (available : Availability ℚ) (r : ResourceId) :
    startMs readyMs available r = max readyMs (freeAt available r) := f64_max _ _

/-! ## The search for a count -/

/-- The policy's limit, capped by the number of units, of which there is taken to be at least one. -/
theorem maxAutoShards_eq {role : LogicalRoleSpec F} (hvalid : validateLogicalRole role = .ok ())
    {policy : AutoShardPolicy F} (hauto : role.shards.auto = some policy) (units : UInt64) :
    (maxAutoShards policy units).toNat = min policy.maxShards.toNat (max 1 units.toNat) := by
  have hmax := maxShards_of_valid hvalid hauto
  have hlt := policy.maxShards.toNat_lt
  unfold maxAutoShards
  split
  · rename_i hunits
    rw [hunits, UInt32.toNat_one, UInt64.toNat_zero]
    omega
  · rename_i hunits
    have hpos : 0 < units.toNat := Nat.pos_iff_ne_zero.mpr fun h0 => hunits (UInt64.toNat_inj.mp h0)
    have hcap : (UInt32.ofNat (min units.toNat (2 ^ 32 - 1))).toNat = min units.toNat (2 ^ 32 - 1) :=
      UInt32.toNat_ofNat_of_lt' (by rw [UInt32.size]; omega)
    generalize UInt32.ofNat (min units.toNat (2 ^ 32 - 1)) = cap at hcap
    show (if policy.maxShards ≤ cap then policy.maxShards else cap).toNat = _
    split
    · rename_i hle
      have := UInt32.le_iff_toNat_le.mp hle
      omega
    · rename_i hgt
      have := UInt32.lt_iff_toNat_lt.mp (UInt32.not_le.mp hgt)
      omega

section Auto

variable {role : LogicalRoleSpec F} {dependencyInputs : List ObjectId} {policy : AutoShardPolicy F} {readyMs : F}
  {available : Availability F} {context : ShardPlanningContext F} {e : Env}

/-- How long after `readyMs` the last shard ends. -/
def incrementalMs (readyMs : F) (selections : List (ReadyShardSelection F)) : F :=
  F64.max (latestFinish readyMs selections - readyMs) (F64.ofNat 0)

/-- What `choose_shards` makes of a shard count: the shards, the availability after them, and the makespan. -/
def shardTrial (e : Env) (role : LogicalRoleSpec F) (dependencyInputs : List ObjectId) (policy : AutoShardPolicy F)
    (readyMs : F) (available : Availability F) (context : ShardPlanningContext F) (count : Nat) :
    Option (List (ReadyShardSelection F) × Availability F × F) :=
  match chooseShards (e.sub count) role dependencyInputs (UInt32.ofNat count) (some policy) readyMs available context with
  | (some selections, available') => some (selections, available', incrementalMs readyMs selections)
  | (none, _) => none

theorem shardTrial_eq_some {count : Nat} {t : List (ReadyShardSelection F) × Availability F × F} :
    shardTrial e role dependencyInputs policy readyMs available context count = some t ↔
      chooseShards (e.sub count) role dependencyInputs (UInt32.ofNat count) (some policy) readyMs available context =
        (some t.1, t.2.1) ∧ t.2.2 = incrementalMs readyMs t.1 := by
  obtain ⟨selections, available', makespan⟩ := t
  unfold shardTrial
  split
  · rename_i hrun
    rw [hrun]
    constructor
    · intro h
      cases h
      exact ⟨rfl, rfl⟩
    · rintro ⟨h, hmakespan⟩
      cases h
      exact congrArg (fun makespan => some (selections, available', makespan)) hmakespan.symm
  · rename_i hrun
    rw [hrun]
    simp

/-- The trials of the counts up to a limit that succeed. -/
def shardTrials (e : Env) (role : LogicalRoleSpec F) (dependencyInputs : List ObjectId) (policy : AutoShardPolicy F)
    (readyMs : F) (available : Availability F) (context : ShardPlanningContext F) (limit : Nat) :
    List (List (ReadyShardSelection F) × Availability F × F) :=
  (List.range' 1 limit).filterMap (shardTrial e role dependencyInputs policy readyMs available context)

theorem mem_shardTrials {limit : Nat} {t : List (ReadyShardSelection F) × Availability F × F} :
    t ∈ shardTrials e role dependencyInputs policy readyMs available context limit ↔
      ∃ count, 1 ≤ count ∧ count ≤ limit ∧
        shardTrial e role dependencyInputs policy readyMs available context count = some t := by
  unfold shardTrials
  rw [List.mem_filterMap]
  constructor
  · rintro ⟨count, hcount, ht⟩
    have hrange := List.mem_range'_1.mp hcount
    exact ⟨count, hrange.1, by omega, ht⟩
  · rintro ⟨count, hpos, hle, ht⟩
    exact ⟨count, List.mem_range'_1.mpr ⟨hpos, by omega⟩, ht⟩

/-- The search is a search through the trials that succeed. -/
theorem chooseAutoShards_eq {units : UInt64}
    (hunits : partitionUnits role policy.partition context.objects = some units) :
    chooseAutoShards e role dependencyInputs policy readyMs available context =
      match (shardTrials e role dependencyInputs policy readyMs available context
          (maxAutoShards policy units).toNat).foldl
          (fun best t => if improvesOn policy t.2.2 t.1.length best then some t else best) none with
      | some (selections, availability, _) => (some selections, availability)
      | none => (none, available) := by
  unfold chooseAutoShards shardTrials
  rw [hunits, List.foldl_filterMap]
  dsimp only
  congr 2
  funext best count
  unfold shardTrial
  rcases chooseShards (e.sub count) role dependencyInputs (UInt32.ofNat count) (some policy) readyMs available context
    with ⟨_ | selections, available'⟩ <;> rfl

/-- The search settles on a count, and takes over the shards and the availability of its trial. -/
theorem chooseAutoShards_chosen {available' : Availability F} {selected : List (ReadyShardSelection F)}
    (h : chooseAutoShards e role dependencyInputs policy readyMs available context = (some selected, available')) :
    ∃ units n, partitionUnits role policy.partition context.objects = some units ∧ 1 ≤ n ∧
      n ≤ (maxAutoShards policy units).toNat ∧
      chooseShards (e.sub n) role dependencyInputs (UInt32.ofNat n) (some policy) readyMs available context =
        (some selected, available') := by
  cases hunits : partitionUnits role policy.partition context.objects with
  | none =>
    rw [chooseAutoShards, hunits] at h
    cases h
  | some units =>
    rw [chooseAutoShards_eq hunits] at h
    split at h
    · rename_i ht
      cases h
      have hmem := (foldl_kept ht).resolve_left (Option.some_ne_none _).symm
      obtain ⟨n, hpos, hle, htrial⟩ := mem_shardTrials.mp hmem
      exact ⟨units, n, rfl, hpos, hle, (shardTrial_eq_some.mp htrial).1⟩
    · cases h

/-- Without fitting offsets no shard can be formed. -/
theorem shardTrial_none {o : ObjectId} {object : ObjectMetadata} {count : Nat}
    (hhead : role.implementations.head?.bind (·.task.inputs[policy.partition.input]?) = some o)
    (hobject : context.objects.lookup o = some object) (hfit : ¬OffsetsFit policy.partition object)
    (hpos : 0 < (UInt32.ofNat count).toNat) :
    shardTrial e role dependencyInputs policy readyMs available context count = none := by
  obtain ⟨implementation, himplementation, hinput⟩ := Option.bind_eq_some_iff.mp hhead
  obtain ⟨i, hmem⟩ := exists_mem_zipIdx (List.mem_of_mem_head? himplementation)
  have hnone : bestShard ((e.sub count).sub 0) role dependencyInputs (UInt32.ofNat 0) (UInt32.ofNat count) (some policy)
      readyMs available context = none := by
    refine foldlM_eq_none (fun best => ?_) none hmem
    dsimp only
    rw [instantiateShardTask, concretePartition_none hinput hobject hfit]
    rfl
  have hrun : chooseShards (e.sub count) role dependencyInputs (UInt32.ofNat count) (some policy) readyMs available
      context = (none, available) := by
    rw [chooseShards, ← Nat.sub_add_cancel hpos, List.range_succ_eq_map, chooseShardsLoop, hnone]
  rw [shardTrial, hrun]

end Auto

/-- A makespan that is shorter, by at least the share `g`. -/
def Gains (g a b : ℚ) : Prop := a < b ∧ a ≤ (1 - g) * b

theorem gains_margin (g : ℚ) : Margin (Gains g) where
  irrefl a h := lt_irrefl a h.1
  lt_of_not := by
    rintro a b c ⟨hlt, hle⟩ hnot
    by_contra hge
    have hcb : c < b := (not_lt.mp hge).trans_lt hlt
    exact hnot ⟨hcb, (not_lt.mp hge).trans hle⟩
  mono h hgains := ⟨h.trans_lt hgains.1, h.trans hgains.2⟩

section Search

variable {role : LogicalRoleSpec ℚ} {dependencyInputs : List ObjectId} {policy : AutoShardPolicy ℚ} {readyMs : ℚ}
  {available : Availability ℚ} {context : ShardPlanningContext ℚ} {e : Env}

/-- A count with more shards replaces the best one if its makespan gains the share of the policy. -/
theorem improvesOn_iff {best : List (ReadyShardSelection ℚ) × Availability ℚ × ℚ} {m : ℚ} {length : Nat} (hm : 0 ≤ m)
    (hlength : best.1.length < length) :
    improvesOn policy m length (some best) = true ↔ Gains policy.minGainRatio m best.2.2 := by
  obtain ⟨selections, availability, current⟩ := best
  unfold improvesOn Gains
  rcases totalCmp_cases m current with ⟨hcmp, hlt⟩ | ⟨hcmp, heq⟩ | ⟨hcmp, hgt⟩
  · have hpos : 0 < current := hm.trans_lt hlt
    have hzero : (F64.le current (F64.ofNat 0 : ℚ)) = false := by simp [F64.le, F64.ofNat, hpos]
    simp only [hcmp, hzero, Bool.false_eq_true, if_false]
    simp only [F64.le, decide_eq_true_eq]
    rw [le_div_iff₀ hpos]
    constructor
    · intro h
      exact ⟨hlt, by linarith⟩
    · rintro ⟨-, h⟩
      linarith
  · simp only [hcmp, decide_eq_true_eq]
    exact iff_of_false (by simpa using hlength.le) fun h => h.1.ne heq
  · simp only [hcmp]
    exact iff_of_false (by simp) fun h => h.1.not_gt hgt

theorem incrementalMs_nonneg (readyMs : ℚ) (selections : List (ReadyShardSelection ℚ)) :
    0 ≤ incrementalMs readyMs selections := by
  simp only [incrementalMs, F64.max, F64.ofNat, Nat.cast_zero]
  split
  · exact le_refl _
  · exact not_lt.mp ‹_›

theorem shardTrial_length {count : Nat} (hcount : count < 2 ^ 32) {t : List (ReadyShardSelection ℚ) × Availability ℚ × ℚ}
    (h : shardTrial e role dependencyInputs policy readyMs available context count = some t) : t.1.length = count := by
  rw [chooseShards_length (shardTrial_eq_some.mp h).1, UInt32.toNat_ofNat_of_lt' (by rw [UInt32.size]; omega)]

/-- Trials in a row: the later one has more shards, and makespans are not negative. -/
def LaterTrial (t t' : List (ReadyShardSelection ℚ) × Availability ℚ × ℚ) : Prop :=
  t.1.length < t'.1.length ∧ 0 ≤ t'.2.2

theorem shardTrials_pairwise {limit : Nat} (hlimit : limit < 2 ^ 32) :
    (shardTrials e role dependencyInputs policy readyMs available context limit).Pairwise LaterTrial := by
  unfold shardTrials
  rw [List.pairwise_filterMap]
  refine List.Pairwise.imp_of_mem (fun {count count'} hmem hmem' hlt t ht t' ht' => ⟨?_, ?_⟩) (List.pairwise_lt_range' 1)
  · have := List.mem_range'_1.mp hmem
    have := List.mem_range'_1.mp hmem'
    rwa [shardTrial_length (by omega) ht, shardTrial_length (by omega) ht']
  · rw [(shardTrial_eq_some.mp ht').2]
    exact incrementalMs_nonneg _ _

/-- The search ends with a leader among the trials that succeed. -/
theorem shardTrials_leader {limit : Nat} (hlimit : limit < 2 ^ 32) :
    Leader (·.2.2) (Gains policy.minGainRatio)
      (shardTrials e role dependencyInputs policy readyMs available context limit)
      ((shardTrials e role dependencyInputs policy readyMs available context limit).foldl
        (fun best t => if improvesOn policy t.2.2 t.1.length best then some t else best) none) := by
  have hpairs : (shardTrials e role dependencyInputs policy readyMs available context limit).Pairwise LaterTrial :=
    shardTrials_pairwise hlimit
  refine leader_foldl (gains_margin _) (fun _ => rfl) (fun best t hlater => ?_) hpairs
  exact improvesOn_iff hlater.2 hlater.1

/-- `choose_shards` succeeds with `count` shards, `limit` at most, and the last one ends `m` after the inputs are ready. -/
def FeasibleCount (e : Env) (role : LogicalRoleSpec ℚ) (dependencyInputs : List ObjectId) (policy : AutoShardPolicy ℚ)
    (readyMs : ℚ) (available : Availability ℚ) (context : ShardPlanningContext ℚ) (limit count : Nat) (m : ℚ) : Prop :=
  1 ≤ count ∧ count ≤ limit ∧ ∃ selections available',
    chooseShards (e.sub count) role dependencyInputs (UInt32.ofNat count) (some policy) readyMs available context =
      (some selections, available') ∧ m = incrementalMs readyMs selections

theorem feasibleCount_iff {limit count : Nat} {m : ℚ} :
    FeasibleCount e role dependencyInputs policy readyMs available context limit count m ↔ 1 ≤ count ∧ count ≤ limit ∧
      ∃ t, shardTrial e role dependencyInputs policy readyMs available context count = some t ∧ t.2.2 = m := by
  unfold FeasibleCount
  refine and_congr_right fun _ => and_congr_right fun _ => ?_
  constructor
  · rintro ⟨selections, available', hrun, hm⟩
    exact ⟨(selections, available', m), shardTrial_eq_some.mpr ⟨hrun, hm⟩, rfl⟩
  · rintro ⟨t, ht, rfl⟩
    obtain ⟨hrun, hm⟩ := shardTrial_eq_some.mp ht
    exact ⟨t.1, t.2.1, hrun, hm⟩

theorem exists_mem_shardTrials {limit count : Nat} {m : ℚ}
    (h : FeasibleCount e role dependencyInputs policy readyMs available context limit count m) (hlimit : limit < 2 ^ 32) :
    ∃ t ∈ shardTrials e role dependencyInputs policy readyMs available context limit, t.1.length = count ∧ t.2.2 = m := by
  obtain ⟨hpos, hle, t, ht, hm⟩ := feasibleCount_iff.mp h
  exact ⟨t, mem_shardTrials.mpr ⟨count, hpos, hle, ht⟩, shardTrial_length (by omega) ht, hm⟩

theorem feasibleCount_of_mem {limit : Nat} {t : List (ReadyShardSelection ℚ) × Availability ℚ × ℚ}
    (hlimit : limit < 2 ^ 32) (h : t ∈ shardTrials e role dependencyInputs policy readyMs available context limit) :
    FeasibleCount e role dependencyInputs policy readyMs available context limit t.1.length t.2.2 := by
  obtain ⟨count, hpos, hle, ht⟩ := mem_shardTrials.mp h
  rw [shardTrial_length (by omega) ht]
  exact feasibleCount_iff.mpr ⟨hpos, hle, t, ht, rfl⟩

/-- What a leader among the trials means for the counts: it is below the smaller ones, gains on the smallest, and no
larger one gains on it. -/
theorem leader_counts {limit : Nat} (hlimit : limit < 2 ^ 32) {best : List (ReadyShardSelection ℚ) × Availability ℚ × ℚ}
    (h : Leader (·.2.2) (Gains policy.minGainRatio)
      (shardTrials e role dependencyInputs policy readyMs available context limit) (some best)) :
    best ∈ shardTrials e role dependencyInputs policy readyMs available context limit ∧
      ∀ c m, FeasibleCount e role dependencyInputs policy readyMs available context limit c m →
        (c < best.1.length → best.2.2 < m) ∧ (best.1.length < c → ¬Gains policy.minGainRatio m best.2.2) ∧
        ((∀ c' m', FeasibleCount e role dependencyInputs policy readyMs available context limit c' m' → c ≤ c') →
          best.1.length ≠ c → Gains policy.minGainRatio best.2.2 m) := by
  obtain ⟨before, after, hsplit, hbefore, hafter, hfirst⟩ := h.split
  refine ⟨by rw [hsplit]; simp, fun c m hfeasible => ?_⟩
  have hpairs : (shardTrials e role dependencyInputs policy readyMs available context limit).Pairwise LaterTrial :=
    shardTrials_pairwise hlimit
  rw [hsplit] at hpairs
  obtain ⟨hpairsBefore, hpairsAfter, hacross⟩ := List.pairwise_append.mp hpairs
  obtain ⟨t, ht, rfl, rfl⟩ := exists_mem_shardTrials hfeasible hlimit
  rw [hsplit] at ht
  rcases List.mem_append.mp ht with ht | ht
  · -- a smaller count
    have hlt : t.1.length < best.1.length := (hacross t ht best (List.mem_cons_self ..)).1
    refine ⟨fun _ => hbefore t ht, fun h => absurd h hlt.not_gt, fun hleast _ => ?_⟩
    cases before with
    | nil => cases ht
    | cons first before =>
      rcases List.mem_cons.mp ht with rfl | hlater
      · exact hfirst t rfl
      · have hsmaller := (List.pairwise_cons.mp hpairsBefore).1 t hlater
        have hmem : first ∈ shardTrials e role dependencyInputs policy readyMs available context limit := by
          rw [hsplit]
          simp
        exact absurd (hleast _ _ (feasibleCount_of_mem hlimit hmem)) (Nat.not_le.mpr hsmaller.1)
  · rcases List.mem_cons.mp ht with rfl | ht
    · -- the count itself
      exact ⟨fun h => absurd h (lt_irrefl _), fun h => absurd h (lt_irrefl _), fun _ h => absurd rfl h⟩
    · -- a larger count
      have hlt : best.1.length < t.1.length := ((List.pairwise_cons.mp hpairsAfter).1 t ht).1
      refine ⟨fun h => absurd h hlt.not_gt, fun _ => hafter t ht, fun hleast _ => ?_⟩
      have hmem : best ∈ shardTrials e role dependencyInputs policy readyMs available context limit := by
        rw [hsplit]
        simp
      exact absurd (hleast _ _ (feasibleCount_of_mem hlimit hmem)) (Nat.not_le.mpr hlt)

/-- Without a leader among the trials no count is feasible. -/
theorem infeasible_of_leader {limit : Nat} (hlimit : limit < 2 ^ 32)
    (h : Leader (·.2.2) (Gains policy.minGainRatio)
      (shardTrials e role dependencyInputs policy readyMs available context limit) none) :
    ¬∃ count m, FeasibleCount e role dependencyInputs policy readyMs available context limit count m := by
  rintro ⟨count, m, hfeasible⟩
  obtain ⟨t, ht, -⟩ := exists_mem_shardTrials hfeasible hlimit
  rw [h.eq_nil] at ht
  cases ht

section Snapshot

variable {o : ObjectId} {object : ObjectMetadata}
  (hinput : role.implementations.head?.bind (·.task.inputs[policy.partition.input]?) = some o)
  (hobject : context.objects.lookup o = some object)

include hinput hobject

/-- A feasible count has units to share out. -/
theorem FeasibleCount.units {limit count : Nat} {m : ℚ} (hlimit : limit < 2 ^ 32)
    (h : FeasibleCount e role dependencyInputs policy readyMs available context limit count m) :
    ∃ units, partitionUnits role policy.partition context.objects = some units := by
  cases hunits : partitionUnits role policy.partition context.objects with
  | some units => exact ⟨units, rfl⟩
  | none =>
    obtain ⟨hpos, hle, t, ht, -⟩ := feasibleCount_iff.mp h
    have hcount : 0 < (UInt32.ofNat count).toNat := by
      rw [UInt32.toNat_ofNat_of_lt' (by rw [UInt32.size]; omega)]
      omega
    rw [shardTrial_none hinput hobject (partitionUnits_none hinput hobject hunits) hcount] at ht
    cases ht

/-- The search takes over the leader among the trials up to its limit. -/
theorem chooseAutoShards_leader (hvalid : validateLogicalRole role = .ok ()) (hauto : role.shards.auto = some policy)
    {units : UInt64} (hunits : partitionUnits role policy.partition context.objects = some units) :
    ∃ best, Leader (·.2.2) (Gains policy.minGainRatio)
      (shardTrials e role dependencyInputs policy readyMs available context
        (min policy.maxShards.toNat (max 1 (unitCount policy.partition object)))) best ∧
      (best = none → chooseAutoShards e role dependencyInputs policy readyMs available context = (none, available)) ∧
      ∀ t, best = some t →
        chooseAutoShards e role dependencyInputs policy readyMs available context = (some t.1, t.2.1) := by
  obtain ⟨object', hobject', -, hcount⟩ := partitionUnits_some hinput hunits
  obtain rfl : object = object' := Option.some.inj (hobject.symm.trans hobject')
  have hmax : (maxAutoShards policy units).toNat =
      min policy.maxShards.toNat (max 1 (unitCount policy.partition object)) := by
    rw [maxAutoShards_eq hvalid hauto, hcount]
  rw [chooseAutoShards_eq hunits, hmax]
  refine ⟨_, shardTrials_leader (Nat.lt_of_le_of_lt (Nat.min_le_left _ _) policy.maxShards.toNat_lt), ?_, ?_⟩
  · intro h
    rw [h]
  · intro t h
    rw [h]

end Snapshot

/-- **The search for a shard count.** For an automatic role that passed validation and a published input, with as limit
the policy's, capped by the units of the input (or one): the search succeeds when some count does, and leaves the
availability alone when none does. The count it settles on has a shorter makespan than every smaller one and gains the
policy's share on the smallest; no larger count gains that share on it. The shards and the availability are those of
`choose_shards` at that count. -/
theorem auto_shards_search (hvalid : validateLogicalRole role = .ok ()) (hauto : role.shards.auto = some policy)
    {o : ObjectId} {object : ObjectMetadata}
    (hinput : role.implementations.head?.bind (·.task.inputs[policy.partition.input]?) = some o)
    (hobject : context.objects.lookup o = some object) (e : Env) (dependencyInputs : List ObjectId) (readyMs : ℚ)
    (available : Availability ℚ) :
    let limit := min policy.maxShards.toNat (max 1 (unitCount policy.partition object))
    let Feasible := FeasibleCount e role dependencyInputs policy readyMs available context limit
    let chosen := chooseAutoShards e role dependencyInputs policy readyMs available context
    (chosen.1.isSome = true ↔ ∃ count m, Feasible count m) ∧ (chosen.1 = none → chosen.2 = available) ∧
      ∀ selections, chosen.1 = some selections → ∃ count m, Feasible count m ∧ selections.length = count ∧
        chosen = chooseShards (e.sub count) role dependencyInputs (UInt32.ofNat count) (some policy) readyMs available
          context ∧
        (∀ c' m', Feasible c' m' → c' < count → m < m') ∧
        (∀ c₀ m₀, Feasible c₀ m₀ → (∀ c' m', Feasible c' m' → c₀ ≤ c') → count ≠ c₀ →
          m ≤ (1 - policy.minGainRatio) * m₀) ∧
        ∀ c' m', Feasible c' m' → count < c' → m ≤ m' ∨ (1 - policy.minGainRatio) * m < m' := by
  intro limit Feasible chosen
  have hlimit : limit < 2 ^ 32 := Nat.lt_of_le_of_lt (Nat.min_le_left _ _) policy.maxShards.toNat_lt
  cases hunits : partitionUnits role policy.partition context.objects with
  | none =>
    have hnone : chosen = (none, available) := by
      show chooseAutoShards _ _ _ _ _ _ _ = _
      rw [chooseAutoShards, hunits]
    have hinfeasible : ¬∃ count m, Feasible count m := by
      rintro ⟨count, m, hfeasible⟩
      obtain ⟨units, hsome⟩ := hfeasible.units hinput hobject hlimit
      rw [hunits] at hsome
      cases hsome
    rw [hnone]
    exact ⟨iff_of_false (by simp) hinfeasible, fun _ => rfl, fun _ h => by cases h⟩
  | some units =>
    obtain ⟨best, hleader, hlost, hchosen⟩ : ∃ best, _ ∧ (best = none → chosen = _) ∧ ∀ t, best = some t → chosen = _ :=
      chooseAutoShards_leader hinput hobject hvalid hauto hunits
    cases best with
    | none =>
      rw [hlost rfl]
      exact ⟨iff_of_false (by simp) (infeasible_of_leader hlimit hleader), fun _ => rfl, fun _ h => by cases h⟩
    | some best =>
      obtain ⟨hmem, hcounts⟩ := leader_counts hlimit hleader
      have hfeasible := feasibleCount_of_mem hlimit hmem
      obtain ⟨count, hpos, hle, htrial⟩ := mem_shardTrials.mp hmem
      obtain rfl : best.1.length = count := shardTrial_length (by omega) htrial
      rw [hchosen best rfl]
      refine ⟨iff_of_true rfl ⟨_, _, hfeasible⟩, fun h => (Option.some_ne_none _ h).elim, fun selections h => ?_⟩
      cases h
      refine ⟨best.1.length, best.2.2, hfeasible, rfl, ((shardTrial_eq_some.mp htrial).1).symm, fun c' m' h hlt => ?_,
        fun c₀ m₀ h hleast hne => ((hcounts c₀ m₀ h).2.2 hleast hne).2, fun c' m' h hlt => ?_⟩
      · exact (hcounts c' m' h).1 hlt
      · rcases lt_or_ge m' best.2.2 with hless | hge
        · exact .inr (not_le.mp fun hgain => (hcounts c' m' h).2.1 hlt ⟨hless, hgain⟩)
        · exact .inl hge

end Search

/-- An object of ten bytes. -/
def tenBytes : ObjectMetadata where
  id := ⟨8⟩
  sizeBytes := 10
  digest := none
  encoding := none
  locations := [⟨1⟩]
  producer := none

/-- A role that may split the two records of the object over two shards. -/
def splitRole : LogicalRoleSpec ℚ where
  name := "split"
  implementations := [⟨"cpu", ⟨"builtin:sum-records-u64", "run", [], [⟨8⟩], {}, .pure, ⟨100, 8⟩⟩⟩]
  dependsOn := []
  shards := .policy (.auto ⟨2, .records 0 [0, 4, 10], 0, 0⟩)
  reduction := none

def searchPolicy : AutoShardPolicy ℚ := ⟨2, .records 0 [0, 4, 10], 0, 0⟩

def searchContext : ShardPlanningContext ℚ where
  scheduler := .default
  resources := [sampleResource 1, sampleResource 2]
  objects := (∅ : Objects).insert ⟨8⟩ tenBytes
  topology := ⟨[⟨⟨1⟩, ⟨2⟩, 0, 1000⟩]⟩

theorem auto_shards_search_split : ∃ selections count m,
    (chooseAutoShards sampleNames splitRole [] searchPolicy 0 ∅ searchContext).1 = some selections ∧
      selections.length = count ∧ FeasibleCount sampleNames splitRole [] searchPolicy 0 ∅ searchContext 2 count m := by
  have hsome : (chooseAutoShards sampleNames splitRole [] searchPolicy 0 ∅ searchContext).1.isSome = true := by
    decide +kernel
  obtain ⟨selections, hselections⟩ := Option.isSome_iff_exists.mp hsome
  have hvalid : validateLogicalRole splitRole = .ok () := by decide +kernel
  have hobject : searchContext.objects.lookup ⟨8⟩ = some tenBytes := AList.lookup_insert ∅
  obtain ⟨-, -, hsearch⟩ := auto_shards_search hvalid rfl rfl hobject sampleNames [] 0 ∅
  obtain ⟨count, m, hfeasible, hlength, -⟩ := hsearch selections hselections
  exact ⟨selections, count, m, hselections, hlength, hfeasible⟩

end Plurifold
