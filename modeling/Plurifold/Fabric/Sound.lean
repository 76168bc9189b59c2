import Plurifold.Fabric.Ledger

/-!
# Sound ledgers

`Sound` is the invariant behind the fabric's bookkeeping. For every role it says what the tasks bound to the role are
doing, by the status of the role (`RoleOk`); for every task, that it is the only one for its roles unless it is one of
several shards. Every step keeps it (`Step.sound`).

A step touches the roles of one task or of one launch. For all other roles nothing changes that `RoleOk` reads
(`SameRole`), so each step has one case to prove.
-/

namespace Plurifold

open Lib Fabric Ledger

variable {F : Type} {strict : Prop} {L L' : Ledger F} {j : JobId} {r : String} {t : TaskId}

/-! ## The invariant -/

structure IdleOk (L : Ledger F) (j : JobId) (r : String) : Prop where
  reduction : L.reduction j r = none
  unbound : ∀ t, ¬L.Bound t j r

structure SubmittedOk (strict : Prop) (L : Ledger F) (j : JobId) (r : String) (t : TaskId) : Prop where
  reduction : L.reduction j r = none
  serves : L.Serves t j r
  notLost : L.progress t ≠ .uncertain
  working : strict → L.progress t = .working
  only : ∀ t', L.Bound t' j r → t' = t

structure ShardedOk (strict : Prop) (L : Ledger F) (j : JobId) (r : String) (tasks : List TaskId) (n : Nat) :
    Prop where
  reduction : L.reduction j r = none
  shards : L.Shards j r tasks
  notLost : ∀ t ∈ tasks, L.progress t ≠ .uncertain
  count : strict → n = (L.doneOutputs tasks).length ∧ n < tasks.length
  only : ∀ t, L.Bound t j r → t ∈ tasks

structure ReducingOk (strict : Prop) (L : Ledger F) (j : JobId) (r : String) (tasks : List TaskId) (n : Nat)
    (level : UInt32) : Prop where
  reduction : ∃ active, L.reduction j r = some active ∧ active.level = level ∧ tasks = itemTasks active.items
  reducers : ∀ t ∈ tasks, L.binding t = some (.reduction j r)
  none : tasks = [] → n = 0
  count : strict → n = (L.doneOutputs tasks).length
  others : ∀ t, L.Bound t j r → t ∈ tasks ∨ ∃ outputs, L.progress t = .completed outputs

structure CompletedOk (L : Ledger F) (j : JobId) (r : String) : Prop where
  reduction : L.reduction j r = none
  done : ∀ t, L.Bound t j r → ∃ outputs, L.progress t = .completed outputs

structure UncertainOk (L : Ledger F) (j : JobId) (r : String) : Prop where
  reduction : L.reduction j r = none
  lost : ∃ t, L.Bound t j r ∧ L.progress t = .uncertain
  noReducer : ∀ t, L.binding t ≠ some (.reduction j r)

/-- What the status of a role says about its tasks and its reduction. -/
def RoleOk (strict : Prop) (L : Ledger F) (j : JobId) (r : String) : Option CooperativeRoleStatus → Prop
  | none | some .waiting | some .ready => IdleOk L j r
  | some (.submitted t) => SubmittedOk strict L j r t
  | some (.sharded tasks n) => ShardedOk strict L j r tasks n
  | some (.reducing tasks n level) => ReducingOk strict L j r tasks n level
  | some (.completed _) => CompletedOk L j r
  | some .uncertain => UncertainOk L j r

/-- What holds of tasks, bindings and definitions, whatever their progress. -/
structure Wellformed [F64 F] (L : Ledger F) : Prop where
  accepted : ∀ j definition, L.definition j = some definition → definition.Accepted
  known : ∀ t b, L.binding t = some b → ∃ spec, L.spec t = some spec
  unique : ∀ t t' j r, L.Works t j r → L.Works t' j r → t = t' ∨
    (L.binding t = some (.shard j r) ∧ L.binding t' = some (.shard j r) ∧
      ∃ i i', L.shardIndex t = some i ∧ L.shardIndex t' = some i' ∧ i ≠ i')
  fusedPure : ∀ t j names spec, L.binding t = some (.fusedChain j names) → L.spec t = some spec → spec.effects = .pure
  reducerPure : ∀ t j r spec, L.binding t = some (.reduction j r) → L.spec t = some spec → spec.effects = .pure
  chain : ∀ t j names, L.binding t = some (.fusedChain j names) → 2 ≤ names.length ∧ names.Nodup ∧
    ∃ definition, L.definition j = some definition ∧ ChainIn definition names
  planned : ∀ t, L.planned t → ∃ spec, L.spec t = some spec

structure Sound [F64 F] (strict : Prop) (L : Ledger F) : Prop extends Wellformed L where
  domain : ∀ j r, (L.role j r).isSome ↔
    ∃ definition, L.definition j = some definition ∧ r ∈ (jobRoles definition).map Prod.fst
  roleOk : ∀ j r, RoleOk strict L j r (L.role j r)
  absent : ∀ t, L.spec t = none → L.progress t = .working
  lost : ∀ t spec, L.progress t = .uncertain → L.spec t = some spec → spec.effects.automaticallyRetryable = false
  oneOutput : ∀ t j r outputs, L.binding t = some (.reduction j r) → L.progress t = .completed outputs →
    outputs.length = 1
  reducible : ∀ j r active, L.reduction j r = some active →
    ∃ definition, L.definition j = some definition ∧ (logicalRoleReduction definition r).isSome = true

/-! ## Reading the invariant -/

theorem Ledger.Works.bound (h : L.Works t j r) : L.Bound t j r := by
  obtain ⟨b, hb, hj, hr, -⟩ := h
  exact ⟨b, hb, hj, hr⟩

theorem Ledger.Serves.works (h : L.Serves t j r) : L.Works t j r := by
  rcases h with h | ⟨names, h, hr⟩
  · exact ⟨_, h, rfl, List.mem_singleton_self r, rfl⟩
  · exact ⟨_, h, rfl, hr, rfl⟩

theorem bound_iff {b : TaskRoleBinding} (h : L.binding t = some b) : L.Bound t j r ↔ j = b.job ∧ r ∈ b.roles := by
  constructor
  · rintro ⟨b', hb', rfl, hr⟩
    obtain rfl := Option.some.inj (h.symm.trans hb')
    exact ⟨rfl, hr⟩
  · rintro ⟨rfl, hr⟩
    exact ⟨b, h, rfl, hr⟩

/-- The role of a task that works for one role. -/
theorem bound_one {b : TaskRoleBinding} (h : L.binding t = some b) {r' : String} (hone : b.roles = [r']) :
    L.Bound t j r ↔ j = b.job ∧ r = r' := by
  rw [bound_iff h, hone, List.mem_singleton]

theorem works_of_shard (h : L.binding t = some (.shard j r)) : L.Works t j r :=
  ⟨_, h, rfl, List.mem_singleton_self r, rfl⟩

section

variable [F64 F]

/-- An Exclusive task is neither a pipeline nor a reducer. -/
theorem Wellformed.exclusive (h : Wellformed L) (hb : L.Bound t j r) {spec : TaskSpec F} (hspec : L.spec t = some spec)
    (hretry : spec.effects.automaticallyRetryable = false) :
    L.binding t = some (.single j r) ∨ L.binding t = some (.shard j r) := by
  obtain ⟨b, hbinding, hj, hr⟩ := hb
  cases b with
  | single j' r' => cases hj; rw [List.mem_singleton.mp hr]; exact .inl hbinding
  | shard j' r' => cases hj; rw [List.mem_singleton.mp hr]; exact .inr hbinding
  | fusedChain j' names => rw [h.fusedPure t j' names spec hbinding hspec] at hretry; cases hretry
  | reduction j' r' => rw [h.reducerPure t j' r' spec hbinding hspec] at hretry; cases hretry

theorem Sound.lost_works (h : Sound strict L) (hb : L.Bound t j r) (hl : L.progress t = .uncertain) :
    L.Works t j r := by
  obtain ⟨b, hbinding, -⟩ := id hb
  obtain ⟨spec, hspec⟩ := h.known t b hbinding
  rcases h.exclusive hb hspec (h.lost t spec hl hspec) with hb | hb
  · exact Serves.works (.inl hb)
  · exact works_of_shard hb

/-- The role of a working task that does all its work is submitted. -/
theorem Sound.submitted (h : Sound strict L) (hserves : L.Serves t j r) (hw : L.progress t = .working) :
    L.role j r = some (.submitted t) ∧ SubmittedOk strict L j r t := by
  have hbound := hserves.works.bound
  have hnotShard : L.binding t ≠ some (.shard j r) := by
    rcases hserves with h | ⟨names, h, -⟩ <;> rw [h] <;> nofun
  have hnotReducer : L.binding t ≠ some (.reduction j r) := by
    rcases hserves with h | ⟨names, h, -⟩ <;> rw [h] <;> nofun
  have hok := h.roleOk j r
  generalize hstatus : L.role j r = status at hok
  match status, hok with
  | none, hok | some .waiting, hok | some .ready, hok => exact absurd hbound (hok.unbound t)
  | some (.submitted t'), hok =>
    obtain rfl := hok.only t hbound
    exact ⟨rfl, hok⟩
  | some (.sharded tasks n), hok =>
    obtain ⟨i, hi⟩ := List.mem_iff_getElem?.mp (hok.only t hbound)
    exact absurd (hok.shards i t hi).1 hnotShard
  | some (.reducing tasks n level), hok =>
    rcases hok.others t hbound with hmem | ⟨outputs, hdone⟩
    · exact absurd (hok.reducers t hmem) hnotReducer
    · rw [hw] at hdone; cases hdone
  | some (.completed outputs), hok =>
    obtain ⟨outputs, hdone⟩ := hok.done t hbound
    rw [hw] at hdone; cases hdone
  | some .uncertain, hok =>
    obtain ⟨u, hu, hlost⟩ := hok.lost
    rcases h.unique t u j r hserves.works (h.lost_works hu hlost) with rfl | ⟨hb, -⟩
    · rw [hw] at hlost; cases hlost
    · exact absurd hb hnotShard

/-- The role of a working shard counts it among its shards, unless it is uncertain. -/
theorem Sound.sharded (h : Sound strict L) (hb : L.binding t = some (.shard j r)) (hw : L.progress t = .working) :
    (∃ tasks n, L.role j r = some (.sharded tasks n) ∧ t ∈ tasks ∧ ShardedOk strict L j r tasks n) ∨
      (L.role j r = some .uncertain ∧ UncertainOk L j r) := by
  have hbound : L.Bound t j r := (works_of_shard hb).bound
  have hok := h.roleOk j r
  generalize hstatus : L.role j r = status at hok
  match status, hok with
  | none, hok | some .waiting, hok | some .ready, hok => exact absurd hbound (hok.unbound t)
  | some (.submitted t'), hok =>
    obtain rfl := hok.only t hbound
    rcases hok.serves with hs | ⟨names, hs, -⟩ <;> rw [hb] at hs <;> cases hs
  | some (.sharded tasks n), hok => exact .inl ⟨tasks, n, rfl, hok.only t hbound, hok⟩
  | some (.reducing tasks n level), hok =>
    rcases hok.others t hbound with hmem | ⟨outputs, hdone⟩
    · have := hok.reducers t hmem
      rw [hb] at this
      cases this
    · rw [hw] at hdone; cases hdone
  | some (.completed outputs), hok =>
    obtain ⟨outputs, hdone⟩ := hok.done t hbound
    rw [hw] at hdone; cases hdone
  | some .uncertain, hok => exact .inr ⟨rfl, hok⟩

/-- The role of a working reducer is reducing, and the reducer belongs to its current level. -/
theorem Sound.reducing (h : Sound strict L) (hb : L.binding t = some (.reduction j r)) (hw : L.progress t = .working) :
    ∃ active n, L.reduction j r = some active ∧ L.role j r = some (.reducing (itemTasks active.items) n active.level) ∧
      t ∈ itemTasks active.items ∧ ReducingOk strict L j r (itemTasks active.items) n active.level := by
  have hbound : L.Bound t j r := (bound_one hb rfl).mpr ⟨rfl, rfl⟩
  have hok := h.roleOk j r
  generalize hstatus : L.role j r = status at hok
  match status, hok with
  | none, hok | some .waiting, hok | some .ready, hok => exact absurd hbound (hok.unbound t)
  | some (.submitted t'), hok =>
    obtain rfl := hok.only t hbound
    rcases hok.serves with hs | ⟨names, hs, -⟩ <;> rw [hb] at hs <;> cases hs
  | some (.sharded tasks n), hok =>
    obtain ⟨i, hi⟩ := List.mem_iff_getElem?.mp (hok.only t hbound)
    have := (hok.shards i t hi).1
    rw [hb] at this
    cases this
  | some (.reducing tasks n level), hok =>
    obtain ⟨active, hactive, rfl, rfl⟩ := hok.reduction
    rcases hok.others t hbound with hmem | ⟨outputs, hdone⟩
    · exact ⟨active, n, hactive, rfl, hmem, hok⟩
    · rw [hw] at hdone; cases hdone
  | some (.completed outputs), hok =>
    obtain ⟨outputs, hdone⟩ := hok.done t hbound
    rw [hw] at hdone; cases hdone
  | some .uncertain, hok => exact absurd hb (hok.noReducer t)

/-- A role with a running reduction is reducing. -/
theorem Sound.reducing_of_active (h : Sound strict L) {active : ActiveReduction}
    (hactive : L.reduction j r = some active) :
    ∃ n, L.role j r = some (.reducing (itemTasks active.items) n active.level) ∧
      ReducingOk strict L j r (itemTasks active.items) n active.level := by
  have hok := h.roleOk j r
  generalize hstatus : L.role j r = status at hok
  match status, hok with
  | none, hok | some .waiting, hok | some .ready, hok => rw [hok.reduction] at hactive; cases hactive
  | some (.submitted _), hok | some (.sharded _ _), hok | some (.completed _), hok | some .uncertain, hok =>
    rw [hok.reduction] at hactive; cases hactive
  | some (.reducing tasks n level), hok =>
    obtain ⟨stored, hstored, hlevel, htasks⟩ := hok.reduction
    obtain rfl : stored = active := Option.some.inj (hstored.symm.trans hactive)
    subst hlevel htasks
    exact ⟨n, rfl, hok⟩

/-- A role that has not been started has no task. -/
theorem Sound.idle (h : Sound strict L) (hn : NotStarted (L.role j r)) : IdleOk L j r := by
  have hok := h.roleOk j r
  rcases hn with hn | hn <;> rw [hn] at hok <;> exact hok

end

/-! ## Roles that a step does not touch -/

/-- Nothing changed that `RoleOk` reads of this role. -/
structure SameRole (L L' : Ledger F) (j : JobId) (r : String) : Prop where
  reduction : L'.reduction j r = L.reduction j r
  binding : ∀ t, L.Bound t j r ∨ L'.Bound t j r → L'.binding t = L.binding t
  spec : ∀ t, L.Bound t j r → L'.spec t = L.spec t
  progress : ∀ t, L.Bound t j r → L'.progress t = L.progress t

theorem SameRole.bound (h : SameRole L L' j r) : L'.Bound t j r ↔ L.Bound t j r := by
  constructor
  · rintro hb
    have heq := h.binding t (.inr hb)
    obtain ⟨b, hb, hj, hr⟩ := hb
    exact ⟨b, heq ▸ hb, hj, hr⟩
  · rintro hb
    have heq := h.binding t (.inl hb)
    obtain ⟨b, hb, hj, hr⟩ := hb
    exact ⟨b, heq ▸ hb, hj, hr⟩

theorem doneOutputs_congr {tasks : List TaskId} (h : ∀ t ∈ tasks, L'.progress t = L.progress t) :
    L'.doneOutputs tasks = L.doneOutputs tasks :=
  List.filterMap_congr fun t ht => by rw [h t ht]

theorem Ledger.Shards.bound {tasks : List TaskId} (h : L.Shards j r tasks) (ht : t ∈ tasks) : L.Bound t j r := by
  obtain ⟨i, hi⟩ := List.mem_iff_getElem?.mp ht
  exact (works_of_shard (h i t hi).1).bound

theorem SameRole.shards (h : SameRole L L' j r) {tasks : List TaskId} (hs : L.Shards j r tasks) :
    L'.Shards j r tasks := by
  intro i t hi
  obtain ⟨hb, spec, hspec, hshard⟩ := hs i t hi
  have hbound := (works_of_shard hb).bound
  exact ⟨(h.binding t (.inl hbound)).trans hb, spec, (h.spec t hbound).trans hspec, hshard⟩

theorem SameRole.serves (h : SameRole L L' j r) (hs : L.Serves t j r) : L'.Serves t j r := by
  have heq := h.binding t (.inl hs.works.bound)
  rcases hs with hs | ⟨names, hs, hr⟩
  · exact .inl (heq.trans hs)
  · exact .inr ⟨names, heq.trans hs, hr⟩

/-- A role that a step does not touch stays as it should be. -/
theorem RoleOk.frame {status : Option CooperativeRoleStatus} (h : RoleOk strict L j r status)
    (hs : SameRole L L' j r) : RoleOk strict L' j r status := by
  match status, h with
  | none, h | some .waiting, h | some .ready, h =>
    exact ⟨hs.reduction.trans h.reduction, fun t ht => h.unbound t (hs.bound.mp ht)⟩
  | some (.submitted t), h =>
    have heq := hs.progress t h.serves.works.bound
    refine ⟨hs.reduction.trans h.reduction, hs.serves h.serves, ?_, ?_, fun t' ht' => h.only t' (hs.bound.mp ht')⟩
    · rw [heq]; exact h.notLost
    · rw [heq]; exact h.working
  | some (.sharded tasks n), h =>
    have heq : ∀ t ∈ tasks, L'.progress t = L.progress t := fun t ht => hs.progress t (h.shards.bound ht)
    refine ⟨hs.reduction.trans h.reduction, hs.shards h.shards, ?_, ?_, fun t ht => h.only t (hs.bound.mp ht)⟩
    · intro t ht
      rw [heq t ht]
      exact h.notLost t ht
    · rw [doneOutputs_congr heq]
      exact h.count
  | some (.reducing tasks n level), h =>
    have hbound : ∀ t ∈ tasks, L.Bound t j r := fun t ht => (bound_one (h.reducers t ht) rfl).mpr ⟨rfl, rfl⟩
    obtain ⟨active, hactive, hrest⟩ := h.reduction
    refine ⟨⟨active, hs.reduction.trans hactive, hrest⟩, ?_, h.none, ?_, ?_⟩
    · intro t ht
      rw [hs.binding t (.inl (hbound t ht))]
      exact h.reducers t ht
    · rw [doneOutputs_congr fun t ht => hs.progress t (hbound t ht)]
      exact h.count
    · intro t ht
      rw [hs.progress t (hs.bound.mp ht)]
      exact h.others t (hs.bound.mp ht)
  | some (.completed outputs), h =>
    refine ⟨hs.reduction.trans h.reduction, fun t ht => ?_⟩
    rw [hs.progress t (hs.bound.mp ht)]
    exact h.done t (hs.bound.mp ht)
  | some .uncertain, h =>
    obtain ⟨u, hu, hlost⟩ := h.lost
    refine ⟨hs.reduction.trans h.reduction, ⟨u, hs.bound.mpr hu, (hs.progress u hu).trans hlost⟩, fun t ht => ?_⟩
    have hbound : L'.Bound t j r := (bound_one ht rfl).mpr ⟨rfl, rfl⟩
    rw [hs.binding t (.inr hbound)] at ht
    exact h.noReducer t ht

theorem sameRole_of_eq (hred : L'.reduction j r = L.reduction j r) (hbinding : L'.binding = L.binding)
    (hspec : L'.spec = L.spec) (hprogress : ∀ t, L.Bound t j r → L'.progress t = L.progress t) :
    SameRole L L' j r :=
  ⟨hred, fun t _ => by rw [hbinding], fun t _ => by rw [hspec], hprogress⟩

/-- Progress of a task that works for other roles. -/
theorem sameRole_setProgress {p : Progress} (h : ¬L.Bound t j r) : SameRole L (L.setProgress t p) j r := by
  refine sameRole_of_eq rfl rfl rfl fun t' ht' => ?_
  rw [setProgress_progress, if_neg]
  rintro rfl
  exact h ht'

/-- New tasks for other roles. -/
theorem sameRole_addAll [F64 F] (h : Wellformed L) {specs : List (TaskSpec F)} {b : TaskRoleBinding}
    (hnew : ∀ spec ∈ specs, L.spec spec.id = none) (hother : ¬(j = b.job ∧ r ∈ b.roles)) :
    SameRole L (L.addAll specs b) j r := by
  have hold : ∀ t, L.Bound t j r → t ∉ specs.map (·.id) := by
    rintro t ⟨b', hb', -⟩ hmem
    obtain ⟨spec, hspec, rfl⟩ := List.mem_map.mp hmem
    obtain ⟨known, hknown⟩ := h.known _ b' hb'
    rw [hnew spec hspec] at hknown
    cases hknown
  have hnot : ∀ t, (L.addAll specs b).Bound t j r → t ∉ specs.map (·.id) := by
    intro t ht hmem
    refine hother ((bound_iff ?_).mp ht)
    rw [addAll_binding, if_pos hmem]
  refine ⟨rfl, fun t ht => ?_, fun t ht => ?_, fun t _ => rfl⟩
  · rw [addAll_binding, if_neg]
    exact ht.elim (hold t) (hnot t)
  · have : specs.find? (fun spec => decide (spec.id = t)) = none := by
      rw [List.find?_eq_none]
      intro spec hspec hid
      exact hold t ht (List.mem_map.mpr ⟨spec, hspec, of_decide_eq_true hid⟩)
    rw [addAll_spec, this, Option.none_or]

/-! ## New tasks -/

section AddAll

variable {specs : List (TaskSpec F)} {b : TaskRoleBinding}

theorem addAll_spec_of_mem (hnodup : (specs.map (·.id)).Nodup) {spec : TaskSpec F} (h : spec ∈ specs) :
    (L.addAll specs b).spec spec.id = some spec := by
  have hfind : specs.find? (fun other => decide (other.id = spec.id)) = some spec := by
    obtain ⟨front, rest, rfl⟩ := List.append_of_mem h
    rw [List.find?_append, Option.or_eq_right_of_none, List.find?_cons_of_pos]
    · exact decide_eq_true rfl
    · rw [List.find?_eq_none]
      intro other hother hid
      rw [List.map_append, List.map_cons, List.nodup_append] at hnodup
      exact hnodup.2.2 other.id (List.mem_map.mpr ⟨other, hother, rfl⟩) spec.id (List.mem_cons_self ..)
        (of_decide_eq_true hid)
  rw [addAll_spec, hfind, Option.some_or]

theorem addAll_spec_of_not_mem (h : t ∉ specs.map (·.id)) : (L.addAll specs b).spec t = L.spec t := by
  have hfind : specs.find? (fun other => decide (other.id = t)) = none := by
    rw [List.find?_eq_none]
    intro other hother hid
    exact h (List.mem_map.mpr ⟨other, hother, of_decide_eq_true hid⟩)
  rw [addAll_spec, hfind, Option.none_or]

theorem not_new (hnew : ∀ spec ∈ specs, L.spec spec.id = none) {spec : TaskSpec F} (h : L.spec t = some spec) :
    t ∉ specs.map (·.id) := by
  intro hmem
  obtain ⟨other, hother, rfl⟩ := List.mem_map.mp hmem
  rw [hnew other hother] at h
  cases h

/-- A task of the new ledger is a new one or was known. -/
theorem addAll_cases (hnodup : (specs.map (·.id)).Nodup) {spec : TaskSpec F}
    (h : (L.addAll specs b).spec t = some spec) :
    (spec ∈ specs ∧ spec.id = t ∧ (L.addAll specs b).binding t = some b) ∨
      (L.spec t = some spec ∧ (L.addAll specs b).binding t = L.binding t) := by
  by_cases hmem : t ∈ specs.map (·.id)
  · obtain ⟨own, hown, rfl⟩ := List.mem_map.mp hmem
    rw [addAll_spec_of_mem hnodup hown] at h
    cases h
    exact .inl ⟨hown, rfl, if_pos hmem⟩
  · rw [addAll_spec_of_not_mem hmem] at h
    exact .inr ⟨h, if_neg hmem⟩

/-- The tasks for a launch or a level, as `Wellformed` wants them. -/
structure NewTasks (L : Ledger F) (specs : List (TaskSpec F)) (b : TaskRoleBinding) : Prop where
  new : ∀ spec ∈ specs, L.spec spec.id = none
  nodup : (specs.map (·.id)).Nodup
  idle : b.isReduction = false → ∀ r ∈ b.roles, ∀ t, ¬L.Bound t b.job r
  fused : ∀ j names, b = .fusedChain j names → (∀ spec ∈ specs, spec.effects = .pure) ∧ 2 ≤ names.length ∧
    names.Nodup ∧ ∃ definition, L.definition j = some definition ∧ ChainIn definition names
  reducers : ∀ j r, b = .reduction j r → ∀ spec ∈ specs, spec.effects = .pure
  several : b.isReduction = false → specs.length ≤ 1 ∨ ∃ j r, b = .shard j r ∧
    ∀ (i : Nat) (spec : TaskSpec F), specs[i]? = some spec → IsShard spec i specs.length

theorem IsShard.shardIndex {spec : TaskSpec F} {i n : Nat} (h : IsShard spec i n) (hspec : L.spec t = some spec) :
    L.shardIndex t = some i := by
  obtain ⟨shard, hshard, rfl, -⟩ := h
  simp [Ledger.shardIndex, hspec, hshard]

variable [F64 F]

theorem NewTasks.unique (hnew : NewTasks L specs b) (h : Wellformed L) (t t' : TaskId) (j : JobId) (r : String)
    (hw : (L.addAll specs b).Works t j r) (hw' : (L.addAll specs b).Works t' j r) : t = t' ∨
    ((L.addAll specs b).binding t = some (.shard j r) ∧ (L.addAll specs b).binding t' = some (.shard j r) ∧
      ∃ i i', (L.addAll specs b).shardIndex t = some i ∧ (L.addAll specs b).shardIndex t' = some i' ∧ i ≠ i') := by
  -- the only tasks of a role that is started now are the new ones
  have fresh : ∀ {t t' : TaskId}, t ∈ specs.map (·.id) → (L.addAll specs b).Works t j r →
      (L.addAll specs b).Works t' j r → t' ∈ specs.map (·.id) ∧ j = b.job ∧ r ∈ b.roles ∧ b.isReduction = false := by
    rintro t t' hmem ⟨own, hown, hj, hr, hred⟩ ⟨other, hother, hj', hr', -⟩
    rw [addAll_binding, if_pos hmem] at hown
    cases hown
    refine ⟨?_, hj.symm, hr, hred⟩
    by_contra hmem'
    rw [addAll_binding, if_neg hmem'] at hother
    exact hnew.idle hred r hr t' ⟨other, hother, hj'.trans hj.symm, hr'⟩
  by_cases hmem : t ∈ specs.map (·.id)
  · obtain ⟨hmem', hj, hr, hred⟩ := fresh hmem hw hw'
    obtain ⟨spec, hspec, rfl⟩ := List.mem_map.mp hmem
    obtain ⟨spec', hspec', rfl⟩ := List.mem_map.mp hmem'
    obtain ⟨i, hi⟩ := List.mem_iff_getElem?.mp hspec
    obtain ⟨i', hi'⟩ := List.mem_iff_getElem?.mp hspec'
    by_cases hii : i = i'
    · subst hii
      rw [hi] at hi'
      cases hi'
      exact .inl rfl
    rcases hnew.several hred with hone | ⟨j', r', rfl, hshards⟩
    · have hlt := (List.getElem?_eq_some_iff.mp hi).1
      have hlt' := (List.getElem?_eq_some_iff.mp hi').1
      omega
    · cases hj
      cases List.mem_singleton.mp hr
      refine .inr ⟨if_pos hmem, if_pos hmem', i, i', ?_, ?_, hii⟩
      · exact (hshards i spec hi).shardIndex (addAll_spec_of_mem hnew.nodup hspec)
      · exact (hshards i' spec' hi').shardIndex (addAll_spec_of_mem hnew.nodup hspec')
  · have hmem' : t' ∉ specs.map (·.id) := fun hmem' => hmem (fresh hmem' hw' hw).1
    have hworks : ∀ {t : TaskId}, t ∉ specs.map (·.id) → (L.addAll specs b).Works t j r → L.Works t j r := by
      rintro t hmem ⟨own, hown, hrest⟩
      rw [addAll_binding, if_neg hmem] at hown
      exact ⟨own, hown, hrest⟩
    have hindex : ∀ {t : TaskId}, t ∉ specs.map (·.id) → (L.addAll specs b).shardIndex t = L.shardIndex t := by
      intro t hmem
      rw [Ledger.shardIndex, addAll_spec_of_not_mem hmem, Ledger.shardIndex]
    rw [addAll_binding, addAll_binding, if_neg hmem, if_neg hmem', hindex hmem, hindex hmem']
    exact h.unique t t' j r (hworks hmem hw) (hworks hmem' hw')

theorem NewTasks.wellformed (hnew : NewTasks L specs b) (h : Wellformed L) {planned : TaskId → Prop}
    (hplanned : ∀ t, planned t → L.planned t ∨ t ∈ specs.map (·.id)) :
    Wellformed ((L.addAll specs b).setPlanned planned) := by
  have hold : ∀ {t : TaskId} {spec : TaskSpec F}, L.spec t = some spec → (L.addAll specs b).spec t = some spec :=
    fun hspec => (addAll_spec_of_not_mem (not_new hnew.new hspec)).trans hspec
  have hfresh : ∀ {t : TaskId}, t ∈ specs.map (·.id) → ∃ spec ∈ specs, (L.addAll specs b).spec t = some spec := by
    intro t hmem
    obtain ⟨spec, hspec, rfl⟩ := List.mem_map.mp hmem
    exact ⟨spec, hspec, addAll_spec_of_mem hnew.nodup hspec⟩
  refine ⟨h.accepted, fun t own hown => ?_, hnew.unique h, fun t j names spec hb hspec => ?_,
    fun t j r spec hb hspec => ?_, fun t j names hb => ?_, fun t ht => ?_⟩
  · by_cases hmem : t ∈ specs.map (·.id)
    · obtain ⟨spec, -, hspec⟩ := hfresh hmem
      exact ⟨spec, hspec⟩
    · have hown' : L.binding t = some own := by rwa [setPlanned_binding, addAll_binding, if_neg hmem] at hown
      obtain ⟨spec, hspec⟩ := h.known t own hown'
      exact ⟨spec, hold hspec⟩
  · rcases addAll_cases hnew.nodup hspec with ⟨hmem, -, hb'⟩ | ⟨hspec, hb'⟩
    · exact (hnew.fused j names (Option.some.inj (hb'.symm.trans hb))).1 spec hmem
    · exact h.fusedPure t j names spec (hb'.symm.trans hb) hspec
  · rcases addAll_cases hnew.nodup hspec with ⟨hmem, -, hb'⟩ | ⟨hspec, hb'⟩
    · exact hnew.reducers j r (Option.some.inj (hb'.symm.trans hb)) spec hmem
    · exact h.reducerPure t j r spec (hb'.symm.trans hb) hspec
  · rw [setPlanned_binding, addAll_binding] at hb
    split at hb
    · exact (hnew.fused j names (Option.some.inj hb)).2
    · exact h.chain t j names hb
  · rcases hplanned t ht with ht | hmem
    · obtain ⟨spec, hspec⟩ := h.planned t ht
      exact ⟨spec, hold hspec⟩
    · obtain ⟨spec, -, hspec⟩ := hfresh hmem
      exact ⟨spec, hspec⟩

end AddAll

/-! ## Steps without new tasks -/

theorem Wellformed.congr [F64 F] (h : Wellformed L) (hspec : L'.spec = L.spec) (hbinding : L'.binding = L.binding)
    (hdefinition : L'.definition = L.definition) (hplanned : L'.planned = L.planned) : Wellformed L' := by
  cases L
  cases L'
  subst hspec hbinding hdefinition hplanned
  exact ⟨h.accepted, h.known, h.unique, h.fusedPure, h.reducerPure, h.chain, h.planned⟩

/-- What a task may come to. -/
def MayBecome (L : Ledger F) (t : TaskId) : Progress → Prop
  | .working => False
  | .completed outputs => ∀ j r, L.binding t = some (.reduction j r) → outputs.length = 1
  | .uncertain => ∀ spec, L.spec t = some spec → spec.effects.automaticallyRetryable = false

/-- A step that changes the progress of tasks and the statuses of roles. -/
structure Advances (L L' : Ledger F) : Prop where
  spec : L'.spec = L.spec
  binding : L'.binding = L.binding
  definition : L'.definition = L.definition
  planned : L'.planned = L.planned
  progress : ∀ t, L'.progress t = L.progress t ∨
    ((∃ spec, L.spec t = some spec) ∧ MayBecome L t (L'.progress t))
  role : ∀ j r, (L'.role j r).isSome = (L.role j r).isSome
  reduction : ∀ j r active, L'.reduction j r = some active →
    ∃ definition, L.definition j = some definition ∧ (logicalRoleReduction definition r).isSome = true

theorem Sound.advance [F64 F] (h : Sound strict L) (ha : Advances L L')
    (hok : ∀ j r, RoleOk strict L' j r (L'.role j r)) : Sound strict L' := by
  refine ⟨h.toWellformed.congr ha.spec ha.binding ha.definition ha.planned, fun j r => ?_, hok, fun t ht => ?_,
    fun t spec hl hspec => ?_, fun t j r outputs hb hdone => ?_, fun j r active hactive => ?_⟩
  · rw [ha.role, ha.definition]
    exact h.domain j r
  · rw [ha.spec] at ht
    rcases ha.progress t with heq | ⟨⟨spec, hspec⟩, -⟩
    · rw [heq]; exact h.absent t ht
    · rw [ht] at hspec; cases hspec
  · rw [ha.spec] at hspec
    rcases ha.progress t with heq | ⟨-, hmay⟩
    · exact h.lost t spec (heq ▸ hl) hspec
    · rw [hl] at hmay; exact hmay spec hspec
  · rw [ha.binding] at hb
    rcases ha.progress t with heq | ⟨-, hmay⟩
    · exact h.oneOutput t j r outputs hb (heq ▸ hdone)
    · rw [hdone] at hmay; exact hmay j r hb
  · rw [ha.definition]
    exact ha.reduction j r active hactive

theorem setProgress_cases {p : Progress} (hspec : ∃ spec, L.spec t = some spec) (hmay : MayBecome L t p) (t' : TaskId) :
    (L.setProgress t p).progress t' = L.progress t' ∨
      ((∃ spec, L.spec t' = some spec) ∧ MayBecome L t' ((L.setProgress t p).progress t')) := by
  rw [setProgress_progress]
  by_cases ht : t' = t
  · subst ht
    rw [if_pos rfl]
    exact .inr ⟨hspec, hmay⟩
  · rw [if_neg ht]
    exact .inl rfl

theorem setRole_isSome {status : CooperativeRoleStatus} (h : (L.role j r).isSome = true) (j' : JobId) (r' : String) :
    ((L.setRole j r status).role j' r').isSome = (L.role j' r').isSome := by
  rw [setRole_role]
  split
  · rename_i heq
    rw [heq.1, heq.2, h]
    rfl
  · rfl

/-- After writing the status of a role, that role has to be checked, and the others as before. -/
theorem roleOk_setRole {status : CooperativeRoleStatus} (hok : RoleOk strict L j r (some status))
    (hothers : ∀ j' r', ¬(j' = j ∧ r' = r) → RoleOk strict L j' r' (L.role j' r')) (j' : JobId) (r' : String) :
    RoleOk strict (L.setRole j r status) j' r' ((L.setRole j r status).role j' r') := by
  have hsame : SameRole L (L.setRole j r status) j' r' := sameRole_of_eq rfl rfl rfl fun _ _ => rfl
  rw [setRole_role]
  split
  · rename_i heq
    obtain ⟨rfl, rfl⟩ := heq
    exact hok.frame hsame
  · rename_i hne
    exact (hothers j' r' hne).frame hsame

variable [F64 F]

theorem Sound.ready (h : Sound strict L) (hn : NotStarted (L.role j r)) : Sound strict (L.setRole j r .ready) := by
  have hsome : (L.role j r).isSome = true := by rcases hn with hn | hn <;> rw [hn] <;> rfl
  refine h.advance ⟨rfl, rfl, rfl, rfl, fun _ => .inl rfl, setRole_isSome hsome, h.reducible⟩ ?_
  exact roleOk_setRole (h.idle hn) fun j' r' _ => h.roleOk j' r'

theorem Sound.lose (h : Sound strict L) {spec : TaskSpec F} (hspec : L.spec t = some spec)
    (hretry : spec.effects.automaticallyRetryable = false) (hw : L.progress t = .working) :
    Sound strict ((L.setProgress t .uncertain).mark t) := by
  have hmay : MayBecome L t .uncertain := by
    intro spec' hspec'
    rw [hspec] at hspec'
    cases hspec'
    exact hretry
  refine h.advance ⟨rfl, rfl, rfl, rfl, setProgress_cases ⟨spec, hspec⟩ hmay, fun j r => ?_, h.reducible⟩ ?_
  · rw [mark_role]
    split <;> simp
  intro j r
  rw [mark_role]
  by_cases hb : L.Bound t j r
  · -- the task is alone for its role or a shard, so the role was submitted, sharded or uncertain
    rw [if_pos (show (L.setProgress t .uncertain).Bound t j r from hb)]
    have hreduction : L.reduction j r = none ∧ (∀ t, L.binding t ≠ some (.reduction j r)) ∧
        (L.role j r).isSome = true := by
      rcases h.exclusive hb hspec hretry with hbinding | hbinding
      · obtain ⟨hrole, hok⟩ := h.submitted (.inl hbinding) hw
        refine ⟨hok.reduction, fun u hu => ?_, by rw [hrole]; rfl⟩
        have := hok.only u ((bound_one hu rfl).mpr ⟨rfl, rfl⟩)
        rw [this, hbinding] at hu
        cases hu
      · rcases h.sharded hbinding hw with ⟨tasks, n, hrole, -, hok⟩ | ⟨hrole, hok⟩
        · refine ⟨hok.reduction, fun u hu => ?_, by rw [hrole]; rfl⟩
          obtain ⟨i, hi⟩ := List.mem_iff_getElem?.mp (hok.only u ((bound_one hu rfl).mpr ⟨rfl, rfl⟩))
          rw [(hok.shards i u hi).1] at hu
          cases hu
        · exact ⟨hok.reduction, hok.noReducer, by rw [hrole]; rfl⟩
    obtain ⟨hred, hnone, hsome⟩ := hreduction
    obtain ⟨status, hstatus⟩ := Option.isSome_iff_exists.mp hsome
    rw [setProgress_role, hstatus]
    refine ⟨hred, ⟨t, hb, ?_⟩, hnone⟩
    rw [mark_progress, setProgress_progress, if_pos rfl]
  · rw [if_neg (show ¬(L.setProgress t .uncertain).Bound t j r from hb)]
    refine (h.roleOk j r).frame (sameRole_of_eq rfl rfl rfl fun t' ht' => ?_)
    exact (sameRole_setProgress hb).progress t' ht'

theorem Sound.finish (h : Sound strict L) {spec : TaskSpec F} {outputs : List ObjectId} (hspec : L.spec t = some spec)
    (hw : L.progress t = .working) (hone : ∀ j r, L.binding t = some (.reduction j r) → outputs.length = 1)
    (hwhy : L.binding t = none ∨ (∃ j r, L.binding t = some (.shard j r) ∧ L.role j r = some .uncertain) ∨ ¬strict) :
    Sound strict (L.setProgress t (.completed outputs)) := by
  refine h.advance ⟨rfl, rfl, rfl, rfl, setProgress_cases ⟨spec, hspec⟩ hone, fun _ _ => rfl, h.reducible⟩ ?_
  intro j r
  by_cases hb : L.Bound t j r
  swap
  · exact (h.roleOk j r).frame (sameRole_setProgress hb)
  have keeps : ∀ u, L.progress u ≠ .working → (L.setProgress t (.completed outputs)).progress u = L.progress u := by
    intro u hu
    rw [setProgress_progress, if_neg]
    rintro rfl
    exact hu hw
  have notLost : ∀ u, L.progress u ≠ .uncertain →
      (L.setProgress t (.completed outputs)).progress u ≠ .uncertain := by
    intro u hu
    rw [setProgress_progress]
    split
    · nofun
    · exact hu
  have hok := h.roleOk j r
  rw [setProgress_role]
  generalize hstatus : L.role j r = status at hok
  have hlax : status ≠ some .uncertain → ¬strict := by
    intro hne
    rcases hwhy with hnone | ⟨j', r', hshard, hunc⟩ | hlax
    · obtain ⟨b, hb, -⟩ := hb
      rw [hnone] at hb
      cases hb
    · obtain ⟨rfl, rfl⟩ := (bound_one hshard rfl).mp hb
      exact absurd (hstatus.symm.trans hunc) hne
    · exact hlax
  match status, hok with
  | none, hok | some .waiting, hok | some .ready, hok => exact absurd hb (hok.unbound t)
  | some (.submitted t'), hok =>
    exact ⟨hok.reduction, hok.serves, notLost t' hok.notLost, fun hs => absurd hs (hlax nofun), hok.only⟩
  | some (.sharded tasks n), hok =>
    exact ⟨hok.reduction, hok.shards, fun u hu => notLost u (hok.notLost u hu), fun hs => absurd hs (hlax nofun),
      hok.only⟩
  | some (.reducing tasks n level), hok =>
    refine ⟨hok.reduction, hok.reducers, hok.none, fun hs => absurd hs (hlax nofun), fun u hu => ?_⟩
    rcases hok.others u hu with hmem | ⟨outputs, hdone⟩
    · exact .inl hmem
    · exact .inr ⟨outputs, (keeps u (by rw [hdone]; nofun)).trans hdone⟩
  | some (.completed _), hok =>
    obtain ⟨outputs, hdone⟩ := hok.done t hb
    rw [hw] at hdone
    cases hdone
  | some .uncertain, hok =>
    obtain ⟨u, hu, hlost⟩ := hok.lost
    exact ⟨hok.reduction, ⟨u, hu, (keeps u (by rw [hlost]; nofun)).trans hlost⟩, hok.noReducer⟩

/-! ## Completions -/

/-- The roles that a completed task does not work for. -/
theorem Sound.others (h : Sound strict L) {b : TaskRoleBinding} (hb : L.binding t = some b) (hone : b.roles = [r])
    {p : Progress} (j' : JobId) (r' : String) (hne : ¬(j' = b.job ∧ r' = r)) :
    RoleOk strict (L.setProgress t p) j' r' (L.role j' r') :=
  (h.roleOk j' r').frame (sameRole_setProgress fun hbound => hne ((bound_one hb hone).mp hbound))

section

omit [F64 F]

theorem roleOk_setReduction {reduction : Option ActiveReduction} {j' : JobId} {r' : String} (hne : ¬(j' = j ∧ r' = r))
    {status : Option CooperativeRoleStatus} (h : RoleOk strict L j' r' status) :
    RoleOk strict (L.setReduction j r reduction) j' r' status :=
  h.frame (sameRole_of_eq (if_neg hne) rfl rfl fun _ _ => rfl)

/-- All tasks of a list have outputs when there are as many outputs as tasks. -/
theorem done_of_length {tasks : List TaskId} (h : (L.doneOutputs tasks).length = tasks.length) (ht : t ∈ tasks) :
    ∃ outputs, L.progress t = .completed outputs := by
  have hsome := List.filterMap_length_eq_length.mp h t ht
  cases hp : L.progress t with
  | working => rw [hp] at hsome; cases hsome
  | uncertain => rw [hp] at hsome; cases hsome
  | completed outputs => exact ⟨outputs, rfl⟩

theorem mem_itemTasks {items : List ReductionItem} : t ∈ itemTasks items ↔ ReductionItem.task t ∈ items := by
  simp only [itemTasks, List.mem_filterMap]
  constructor
  · rintro ⟨item, hmem, hitem⟩
    cases item with
    | carry o => cases hitem
    | task t' => cases hitem; exact hmem
  · intro hmem
    exact ⟨_, hmem, rfl⟩

/-- All tasks of a level are complete when its results are. -/
theorem done_of_nextInputs {items : List ReductionItem} {inputs : List ObjectId} (h : L.nextInputs items = some inputs)
    (ht : t ∈ itemTasks items) : ∃ o, L.progress t = .completed [o] := by
  obtain ⟨o, -, ho⟩ := forall₂_mem_right (mapM_eq_some_iff.mp h).flip (mem_itemTasks.mp ht)
  simp only [Ledger.itemResult] at ho
  split at ho
  · exact ⟨_, by assumption⟩
  · cases ho

end

theorem Sound.conclude (h : Sound strict L) {front : List String} {last : String} {outputs : List ObjectId}
    (hb : L.binding t = some (.single j last) ∧ front = [] ∨ L.binding t = some (.fusedChain j (front ++ [last])))
    (hw : L.progress t = .working) :
    Sound strict ((L.setProgress t (.completed outputs)).setRoles j (front ++ [last]) fun r =>
      if r = last then .completed outputs else .completed []) := by
  have hbound : ∀ {j' : JobId} {r' : String}, L.Bound t j' r' ↔ j' = j ∧ r' ∈ front ++ [last] := by
    intro j' r'
    rcases hb with ⟨hb, rfl⟩ | hb <;> rw [bound_iff hb] <;> rfl
  have hserves : ∀ r' ∈ front ++ [last], L.Serves t j r' := by
    intro r' hr'
    rcases hb with ⟨hb, rfl⟩ | hb
    · rw [List.mem_singleton.mp hr']
      exact .inl hb
    · exact .inr ⟨_, hb, hr'⟩
  have hspec : ∃ spec, L.spec t = some spec := by
    rcases hb with ⟨hb, -⟩ | hb <;> exact h.known t _ hb
  have hmay : MayBecome L t (.completed outputs) := by
    intro j' r' hred
    rcases hb with ⟨hb, -⟩ | hb <;> rw [hb] at hred <;> cases hred
  refine h.advance ⟨rfl, rfl, rfl, rfl, setProgress_cases hspec hmay, fun j' r' => ?_, h.reducible⟩ ?_
  · rw [setRoles_role]
    split
    · rename_i hin
      obtain ⟨rfl, hin⟩ := hin
      rw [(h.submitted (hserves r' hin) hw).1]
      rfl
    · rfl
  · intro j' r'
    rw [setRoles_role]
    split
    · rename_i hin
      obtain ⟨rfl, hin⟩ := hin
      have hok := (h.submitted (hserves r' hin) hw).2
      have hcompleted : CompletedOk ((L.setProgress t (.completed outputs)).setRoles j' (front ++ [last]) fun r =>
          if r = last then .completed outputs else .completed []) j' r' := by
        refine ⟨hok.reduction, fun t' ht' => ⟨outputs, ?_⟩⟩
        rw [hok.only t' ht', setRoles_progress, setProgress_progress, if_pos rfl]
      split
      · exact hcompleted
      · exact hcompleted
    · rename_i hin
      refine (h.roleOk j' r').frame (sameRole_of_eq rfl rfl rfl fun t' ht' => ?_)
      exact (sameRole_setProgress fun hb => hin (hbound.mp hb)).progress t' ht'

section Shard

variable {tasks : List TaskId} {n : Nat} {outputs : List ObjectId} (h : Sound strict L)
  (hb : L.binding t = some (.shard j r)) (hrole : L.role j r = some (.sharded tasks n))

include h hrole

theorem Sound.shardedOk : ShardedOk strict L j r tasks n := by
  have hok := h.roleOk j r
  rwa [hrole] at hok

include hb

theorem Sound.advances_shard {status : CooperativeRoleStatus} :
    Advances L ((L.setProgress t (.completed outputs)).setRole j r status) := by
  have hmay : MayBecome L t (.completed outputs) := by
    intro j' r' hred
    rw [hb] at hred
    cases hred
  exact ⟨rfl, rfl, rfl, rfl, setProgress_cases (h.known t _ hb) hmay, setRole_isSome (by rw [setProgress_role, hrole]; rfl),
    h.reducible⟩

theorem Sound.shardWaits (hmore : ((L.setProgress t (.completed outputs)).doneOutputs tasks).length ≠ tasks.length) :
    Sound strict ((L.setProgress t (.completed outputs)).setRole j r
      (.sharded tasks ((L.setProgress t (.completed outputs)).doneOutputs tasks).length)) := by
  have hok := h.shardedOk hrole
  refine h.advance (h.advances_shard hb hrole) (roleOk_setRole ?_ (h.others hb rfl))
  refine ⟨hok.reduction, hok.shards, fun t' ht' => ?_, fun _ => ⟨rfl, ?_⟩, hok.only⟩
  · rw [setProgress_progress]
    split
    · nofun
    · exact hok.notLost t' ht'
  · exact Nat.lt_of_le_of_ne (List.length_filterMap_le _ _) hmore

theorem Sound.shardsComplete {result : List ObjectId}
    (hall : ((L.setProgress t (.completed outputs)).doneOutputs tasks).length = tasks.length) :
    Sound strict ((L.setProgress t (.completed outputs)).setRole j r (.completed result)) := by
  have hok := h.shardedOk hrole
  refine h.advance (h.advances_shard hb hrole) (roleOk_setRole ?_ (h.others hb rfl))
  exact ⟨hok.reduction, fun t' ht' => done_of_length hall (hok.only t' ht')⟩

theorem Sound.shardsReduce {inputs : List ObjectId} {definition : JobDefinition F}
    (hall : ((L.setProgress t (.completed outputs)).doneOutputs tasks).length = tasks.length)
    (hdefinition : L.definition j = some definition) (hreduces : (logicalRoleReduction definition r).isSome = true) :
    Sound strict (((L.setProgress t (.completed outputs)).setReduction j r (some ⟨0, inputs, []⟩)).setRole j r
      (.reducing [] 0 0)) := by
  have hok := h.shardedOk hrole
  have ha : Advances L ((L.setProgress t (.completed outputs)).setRole j r (.reducing [] 0 0)) :=
    h.advances_shard hb hrole
  refine h.advance ⟨rfl, rfl, rfl, rfl, ha.progress, ha.role, fun j' r' active hactive => ?_⟩ (roleOk_setRole ?_ ?_)
  · rw [setRole_reduction, setReduction_reduction] at hactive
    split at hactive
    · rename_i heq
      rw [heq.1, heq.2]
      exact ⟨definition, hdefinition, hreduces⟩
    · exact h.reducible j' r' active hactive
  · refine ⟨⟨_, if_pos ⟨rfl, rfl⟩, rfl, rfl⟩, fun _ hmem => (List.not_mem_nil hmem).elim, fun _ => rfl, fun _ => rfl,
      fun t' ht' => .inr ?_⟩
    exact done_of_length hall (hok.only t' ht')
  · intro j' r' hne
    exact roleOk_setReduction hne (h.others hb rfl j' r' hne)

end Shard

section Reducer

variable {active : ActiveReduction} {o : ObjectId} (h : Sound strict L) (hb : L.binding t = some (.reduction j r))
  (hactive : L.reduction j r = some active)

include h hb hactive

theorem Sound.advances_reducer {status : CooperativeRoleStatus} :
    Advances L ((L.setProgress t (.completed [o])).setRole j r status) := by
  obtain ⟨n, hrole, -⟩ := h.reducing_of_active hactive
  exact ⟨rfl, rfl, rfl, rfl, setProgress_cases (h.known t _ hb) fun _ _ _ => rfl,
    setRole_isSome (by rw [setProgress_role, hrole]; rfl), h.reducible⟩

omit hb in
/-- A task of the role other than the reducers of the level is still complete. -/
theorem Sound.reducer_others (t' : TaskId) (ht' : L.Bound t' j r) : t' ∈ itemTasks active.items ∨
    ∃ outputs, (L.setProgress t (.completed [o])).progress t' = .completed outputs := by
  obtain ⟨n, -, hok⟩ := h.reducing_of_active hactive
  rw [setProgress_progress]
  split
  · exact .inr ⟨_, rfl⟩
  · exact hok.others t' ht'

theorem Sound.reducerWaits : Sound strict ((L.setProgress t (.completed [o])).setRole j r
    (.reducing (itemTasks active.items)
      ((L.setProgress t (.completed [o])).doneOutputs (itemTasks active.items)).length active.level)) := by
  obtain ⟨n, -, hok⟩ := h.reducing_of_active hactive
  refine h.advance (h.advances_reducer hb hactive) (roleOk_setRole ?_ (h.others hb rfl))
  refine ⟨⟨active, hactive, rfl, rfl⟩, hok.reducers, fun hnone => ?_, fun _ => rfl, h.reducer_others hactive⟩
  rw [hnone]
  rfl

theorem Sound.levelComplete {inputs : List ObjectId} {level : UInt32}
    (hnext : (L.setProgress t (.completed [o])).nextInputs active.items = some inputs) :
    Sound strict (((L.setProgress t (.completed [o])).setReduction j r (some ⟨level, inputs, []⟩)).setRole j r
      (.reducing [] 0 level)) := by
  have ha : Advances L ((L.setProgress t (.completed [o])).setRole j r (.reducing [] 0 level)) :=
    h.advances_reducer hb hactive
  refine h.advance ⟨rfl, rfl, rfl, rfl, ha.progress, ha.role, fun j' r' active' hactive' => ?_⟩ (roleOk_setRole ?_ ?_)
  · rw [setRole_reduction, setReduction_reduction] at hactive'
    split at hactive'
    · rename_i heq
      rw [heq.1, heq.2]
      exact h.reducible j r active hactive
    · exact h.reducible j' r' active' hactive'
  · refine ⟨⟨_, if_pos ⟨rfl, rfl⟩, rfl, rfl⟩, fun _ hmem => (List.not_mem_nil hmem).elim, fun _ => rfl, fun _ => rfl,
      fun t' ht' => .inr ?_⟩
    rcases h.reducer_others (o := o) hactive t' ht' with hmem | hdone
    · obtain ⟨o', ho'⟩ := done_of_nextInputs hnext hmem
      exact ⟨[o'], ho'⟩
    · exact hdone
  · intro j' r' hne
    exact roleOk_setReduction hne (h.others hb rfl j' r' hne)

end Reducer

theorem Sound.reduced (h : Sound strict L) {active : ActiveReduction} (hactive : L.reduction j r = some active)
    (hitems : active.items = []) : Sound strict ((L.setReduction j r none).setRole j r (.completed active.inputs)) := by
  obtain ⟨n, hrole, hok⟩ := h.reducing_of_active hactive
  refine h.advance ⟨rfl, rfl, rfl, rfl, fun _ => .inl rfl, ?_, fun j' r' active' hactive' => ?_⟩ (roleOk_setRole ?_ ?_)
  · exact setRole_isSome (by rw [setReduction_role, hrole]; rfl)
  · rw [setRole_reduction, setReduction_reduction] at hactive'
    split at hactive'
    · cases hactive'
    · exact h.reducible j' r' active' hactive'
  · refine ⟨if_pos ⟨rfl, rfl⟩, fun t' ht' => ?_⟩
    rcases hok.others t' ht' with hmem | hdone
    · rw [hitems] at hmem
      cases hmem
    · exact hdone
  · intro j' r' hne
    exact roleOk_setReduction hne (h.roleOk j' r')

/-! ## New jobs and tasks -/

theorem Sound.submit (h : Sound strict L) {spec : TaskSpec F} (hnew : L.spec spec.id = none) :
    Sound strict (L.add spec) := by
  have hold : ∀ {t : TaskId} {known : TaskSpec F}, L.spec t = some known → t ≠ spec.id := by
    rintro t known hknown rfl
    rw [hnew] at hknown
    cases hknown
  have hkeeps : ∀ {t : TaskId} {b : TaskRoleBinding}, L.binding t = some b → (L.add spec).spec t = L.spec t := by
    intro t b hb
    obtain ⟨known, hknown⟩ := h.known t b hb
    exact if_neg (hold hknown)
  have hindex : ∀ {t : TaskId} {j : JobId} {r : String}, L.Works t j r → (L.add spec).shardIndex t = L.shardIndex t := by
    rintro t j r ⟨b, hb, -⟩
    rw [Ledger.shardIndex, hkeeps hb, Ledger.shardIndex]
  have hspec : ∀ {t : TaskId} {known : TaskSpec F}, L.spec t = some known → ∃ known, (L.add spec).spec t = some known :=
    fun hknown => ⟨_, (if_neg (hold hknown)).trans hknown⟩
  have hwellformed : Wellformed (L.add spec) := by
    refine ⟨h.accepted, fun t b hb => ?_, fun t t' j r hw hw' => ?_, fun t j names known hb hknown => ?_,
      fun t j r known hb hknown => ?_, h.chain, fun t ht => ?_⟩
    · obtain ⟨known, hknown⟩ := h.known t b hb
      exact hspec hknown
    · rw [hindex hw, hindex hw']
      exact h.unique t t' j r hw hw'
    · rw [hkeeps hb] at hknown
      exact h.fusedPure t j names known hb hknown
    · rw [hkeeps hb] at hknown
      exact h.reducerPure t j r known hb hknown
    · obtain ⟨known, hknown⟩ := h.planned t ht
      exact hspec hknown
  refine ⟨hwellformed, h.domain, fun j r => ?_, fun t ht => ?_, fun t known hl hknown => ?_, h.oneOutput, h.reducible⟩
  · refine (h.roleOk j r).frame ⟨rfl, fun _ _ => rfl, fun t ht => ?_, fun _ _ => rfl⟩
    obtain ⟨b, hb, -⟩ := ht
    exact hkeeps hb
  · rw [add_spec] at ht
    split at ht
    · cases ht
    · exact h.absent t ht
  · rw [add_spec] at hknown
    split at hknown
    · rename_i heq
      have hw : L.progress t = .working := h.absent t (heq ▸ hnew)
      rw [add_progress, hw] at hl
      cases hl
    · exact h.lost t known hl hknown

theorem Sound.accept (h : Sound strict L) {definition : JobDefinition F} (hnew : L.definition j = none)
    (haccepted : definition.Accepted) : Sound strict (L.accept j definition) := by
  have hnone : ∀ r, L.role j r = none := by
    intro r
    rw [← Option.not_isSome_iff_eq_none, h.domain]
    rintro ⟨d, hd, -⟩
    rw [hnew] at hd
    cases hd
  have hkeeps : ∀ {j' : JobId} {d : JobDefinition F}, L.definition j' = some d →
      (L.accept j definition).definition j' = some d := by
    rintro j' d hd
    rw [accept_definition, if_neg]
    · exact hd
    · rintro rfl
      rw [hnew] at hd
      cases hd
  have hwellformed : Wellformed (L.accept j definition) := by
    refine ⟨fun j' d hd => ?_, h.known, h.unique, h.fusedPure, h.reducerPure, fun t j' names hb => ?_, h.planned⟩
    · rw [accept_definition] at hd
      split at hd
      · cases hd
        exact haccepted
      · exact h.accepted j' d hd
    · obtain ⟨htwo, hnodup, d, hd, hchain⟩ := h.chain t j' names hb
      exact ⟨htwo, hnodup, d, hkeeps hd, hchain⟩
  refine ⟨hwellformed, fun j' r => ?_, fun j' r => ?_, h.absent, h.lost, h.oneOutput, fun j' r active hactive => ?_⟩
  · rw [accept_role, accept_definition]
    by_cases hj : j' = j
    · subst hj
      rw [if_pos rfl]
      by_cases hr : r ∈ (jobRoles definition).map Prod.fst
      · rw [if_pos ⟨rfl, hr⟩]
        exact ⟨fun _ => ⟨definition, rfl, hr⟩, fun _ => rfl⟩
      · rw [if_neg fun hand => hr hand.2, hnone r]
        refine ⟨fun hsome => (Bool.false_ne_true hsome).elim, ?_⟩
        rintro ⟨d, hd, hin⟩
        cases hd
        exact absurd hin hr
    · rw [if_neg hj, if_neg fun hand => hj hand.1]
      exact h.domain j' r
  · have hsame : SameRole L (L.accept j definition) j' r := sameRole_of_eq rfl rfl rfl fun _ _ => rfl
    have hok := (h.roleOk j' r).frame hsame
    rw [accept_role]
    split
    · rename_i hin
      rw [hin.1, hnone r] at hok
      rw [hin.1]
      exact hok
    · exact hok
  · obtain ⟨d, hd, hreduces⟩ := h.reducible j' r active hactive
    exact ⟨d, hkeeps hd, hreduces⟩

section Launch

variable {specs : List (TaskSpec F)} {b : TaskRoleBinding} {planned : TaskId → Prop}

/-- A step that adds tasks. -/
structure AddsTasks (L L' : Ledger F) (specs : List (TaskSpec F)) (b : TaskRoleBinding) : Prop where
  spec : L'.spec = (L.addAll specs b).spec
  binding : L'.binding = (L.addAll specs b).binding
  definition : L'.definition = L.definition
  progress : L'.progress = L.progress
  planned : ∀ t, L'.planned t → L.planned t ∨ t ∈ specs.map (·.id)
  role : ∀ j r, (L'.role j r).isSome = (L.role j r).isSome
  reduction : ∀ j r active, L'.reduction j r = some active →
    ∃ definition, L.definition j = some definition ∧ (logicalRoleReduction definition r).isSome = true

theorem Sound.grow (h : Sound strict L) (hnew : NewTasks L specs b) (hg : AddsTasks L L' specs b)
    (hok : ∀ j r, RoleOk strict L' j r (L'.role j r)) : Sound strict L' := by
  have hwellformed : Wellformed L' :=
    (hnew.wellformed h.toWellformed hg.planned).congr hg.spec hg.binding hg.definition rfl
  refine ⟨hwellformed, fun j r => ?_, hok, fun t ht => ?_, fun t spec hl hspec => ?_, fun t j r outputs hb hdone => ?_,
    fun j r active hactive => ?_⟩
  · rw [hg.role, hg.definition]
    exact h.domain j r
  · rw [hg.spec, addAll_spec, Option.or_eq_none_iff] at ht
    rw [hg.progress]
    exact h.absent t ht.2
  · rw [hg.progress] at hl
    rw [hg.spec] at hspec
    rcases addAll_cases hnew.nodup hspec with ⟨hmem, rfl, -⟩ | ⟨hspec, -⟩
    · rw [h.absent _ (hnew.new spec hmem)] at hl
      cases hl
    · exact h.lost t spec hl hspec
  · rw [hg.progress] at hdone
    rw [hg.binding, addAll_binding] at hb
    split at hb
    · rename_i hmem
      obtain ⟨spec, hspec, rfl⟩ := List.mem_map.mp hmem
      rw [h.absent _ (hnew.new spec hspec)] at hdone
      cases hdone
    · exact h.oneOutput t j r outputs hb hdone
  · rw [hg.definition]
    exact hg.reduction j r active hactive

omit [F64 F] in
/-- The tasks of a role that had none are the new ones. -/
theorem mem_of_bound_addAll (hidle : ∀ t, ¬L.Bound t j r) (h : (L.addAll specs b).Bound t j r) :
    t ∈ specs.map (·.id) := by
  by_contra hmem
  obtain ⟨own, hown, hrest⟩ := h
  rw [addAll_binding, if_neg hmem] at hown
  exact hidle t ⟨own, hown, hrest⟩

theorem Sound.newTasks (h : Sound strict L) {definition : JobDefinition F} {first : String} {rest : List String}
    (hl : Launch L j definition first rest specs) (hjob : b.job = j) (hroles : b.roles = first :: rest)
    (hfused : ∀ j names, b = .fusedChain j names → (∀ spec ∈ specs, spec.effects = .pure) ∧ 2 ≤ names.length ∧
      names.Nodup ∧ ∃ definition, L.definition j = some definition ∧ ChainIn definition names)
    (hreducers : b.isReduction = false)
    (hseveral : specs.length ≤ 1 ∨ ∃ j r, b = .shard j r ∧
      ∀ (i : Nat) (spec : TaskSpec F), specs[i]? = some spec → IsShard spec i specs.length) :
    NewTasks L specs b := by
  refine ⟨hl.new, hl.nodup, fun _ r hr t => ?_, hfused, ?_, fun _ => hseveral⟩
  · rw [hjob]
    exact (h.idle (hl.notStarted r (hroles ▸ hr))).unbound t
  · rintro j' r' rfl
    cases hreducers

theorem NotStarted.isSome {status : Option CooperativeRoleStatus} (h : NotStarted status) : status.isSome = true := by
  rcases h with h | h <;> rw [h] <;> rfl

theorem Sound.single (h : Sound strict L) {definition : JobDefinition F} {spec : TaskSpec F}
    (hl : Launch L j definition r [] [spec]) (hplanned : ∀ t, planned t → L.planned t) :
    Sound strict (((L.addAll [spec] (.single j r)).setRole j r (.submitted spec.id)).setPlanned planned) := by
  have hstart := hl.notStarted r (List.mem_singleton_self r)
  have hidle := h.idle hstart
  have hworking : L.progress spec.id = .working := h.absent _ (hl.new spec (List.mem_singleton_self spec))
  have hnew : NewTasks L [spec] (.single j r) := h.newTasks hl rfl rfl nofun rfl (.inl (Nat.le_refl 1))
  refine h.grow hnew ⟨rfl, rfl, rfl, rfl, fun t ht => .inl (hplanned t ht), setRole_isSome hstart.isSome, h.reducible⟩
    fun j' r' => ?_
  refine (roleOk_setRole (L := L.addAll [spec] (.single j r)) ?_ (fun j' r' hne => ?_) j' r').frame
    (sameRole_of_eq rfl rfl rfl fun _ _ => rfl)
  · refine ⟨hidle.reduction, .inl (if_pos (by simp)), ?_, fun _ => hworking, fun t' ht' => ?_⟩
    · rw [addAll_progress, hworking]
      nofun
    · simpa using mem_of_bound_addAll hidle.unbound ht'
  · refine (h.roleOk j' r').frame (sameRole_addAll h.toWellformed hl.new fun hin => hne ?_)
    exact ⟨hin.1, List.mem_singleton.mp hin.2⟩

theorem Sound.fused (h : Sound strict L) {definition : JobDefinition F} {first : String} {rest : List String}
    {spec : TaskSpec F} (hl : Launch L j definition first rest [spec]) (hrest : rest ≠ [])
    (hchain : ChainIn definition (first :: rest)) (hnodup : (first :: rest).Nodup) (hpure : spec.effects = .pure)
    (hplanned : ∀ t, planned t → L.planned t) :
    Sound strict (((L.addAll [spec] (.fusedChain j (first :: rest))).setRoles j (first :: rest) fun _ =>
      .submitted spec.id).setPlanned planned) := by
  have hworking : L.progress spec.id = .working := h.absent _ (hl.new spec (List.mem_singleton_self spec))
  have hnew : NewTasks L [spec] (.fusedChain j (first :: rest)) := by
    refine h.newTasks hl rfl rfl ?_ rfl (.inl (Nat.le_refl 1))
    intro j' names heq
    cases heq
    refine ⟨fun spec' hspec' => ?_, ?_, hnodup, definition, hl.job, hchain⟩
    · rw [List.mem_singleton.mp hspec']
      exact hpure
    · have := List.length_pos_iff.mpr hrest
      rw [List.length_cons]
      omega
  refine h.grow hnew ⟨rfl, rfl, rfl, rfl, fun t ht => .inl (hplanned t ht), fun j' r' => ?_, h.reducible⟩
    fun j' r' => ?_
  · rw [setPlanned_role, setRoles_role]
    split
    · rename_i hin
      rw [hin.1, (hl.notStarted r' hin.2).isSome]
      rfl
    · rfl
  · rw [setPlanned_role, setRoles_role]
    split
    · rename_i hin
      obtain ⟨rfl, hin⟩ := hin
      have hidle := h.idle (hl.notStarted r' hin)
      refine ⟨hidle.reduction, .inr ⟨_, if_pos (by simp), hin⟩, ?_, fun _ => hworking, fun t' ht' => ?_⟩
      · rw [setPlanned_progress, setRoles_progress, addAll_progress, hworking]
        nofun
      · have hmem : t' ∈ [spec].map (·.id) := mem_of_bound_addAll (b := .fusedChain j' (first :: rest)) hidle.unbound ht'
        simpa using hmem
    · rename_i hne
      have hsame : SameRole L (L.addAll [spec] (.fusedChain j (first :: rest))) j' r' :=
        sameRole_addAll h.toWellformed hl.new hne
      exact (h.roleOk j' r').frame ⟨hsame.reduction, hsame.binding, hsame.spec, hsame.progress⟩

theorem Sound.shards (h : Sound strict L) {definition : JobDefinition F} (hl : Launch L j definition r [] specs)
    (hsome : specs ≠ [])
    (hshards : ∀ (i : Nat) (spec : TaskSpec F), specs[i]? = some spec → IsShard spec i specs.length)
    (hplanned : ∀ t, planned t → L.planned t ∨ t ∈ specs.map (·.id)) :
    Sound strict (((L.addAll specs (.shard j r)).setRole j r (.sharded (specs.map (·.id)) 0)).setPlanned planned) := by
  have hstart := hl.notStarted r (List.mem_singleton_self r)
  have hidle := h.idle hstart
  have hworking : ∀ t ∈ specs.map (·.id), L.progress t = .working := by
    intro t ht
    obtain ⟨spec, hspec, rfl⟩ := List.mem_map.mp ht
    exact h.absent _ (hl.new spec hspec)
  have hnew : NewTasks L specs (.shard j r) := h.newTasks hl rfl rfl nofun rfl (.inr ⟨j, r, rfl, hshards⟩)
  refine h.grow hnew ⟨rfl, rfl, rfl, rfl, hplanned, setRole_isSome hstart.isSome, h.reducible⟩ fun j' r' => ?_
  refine (roleOk_setRole (L := L.addAll specs (.shard j r)) ?_ (fun j' r' hne => ?_) j' r').frame
    (sameRole_of_eq rfl rfl rfl fun _ _ => rfl)
  · refine ⟨hidle.reduction, fun i t hi => ?_, fun t ht => ?_, fun _ => ⟨?_, ?_⟩, fun t' ht' => ?_⟩
    · rw [List.getElem?_map] at hi
      obtain ⟨spec, hspec, rfl⟩ := Option.map_eq_some_iff.mp hi
      have hmem := List.mem_of_getElem? hspec
      refine ⟨if_pos (List.mem_map.mpr ⟨spec, hmem, rfl⟩), spec, addAll_spec_of_mem hl.nodup hmem, ?_⟩
      rw [List.length_map]
      exact hshards i spec hspec
    · rw [addAll_progress, hworking t ht]
      nofun
    · symm
      rw [List.length_eq_zero_iff, Ledger.doneOutputs, List.filterMap_eq_nil_iff]
      intro t ht
      rw [addAll_progress, hworking t ht]
      rfl
    · rw [List.length_map]
      exact List.length_pos_iff.mpr hsome
    · exact mem_of_bound_addAll hidle.unbound ht'
  · refine (h.roleOk j' r').frame (sameRole_addAll h.toWellformed hl.new fun hin => hne ?_)
    exact ⟨hin.1, List.mem_singleton.mp hin.2⟩

theorem Sound.level (h : Sound strict L) {active : ActiveReduction} {items : List ReductionItem}
    (hactive : L.reduction j r = some active) (hitems : active.items = [])
    (hnew : ∀ spec ∈ specs, L.spec spec.id = none) (hnodup : (specs.map (·.id)).Nodup)
    (hpure : ∀ spec ∈ specs, spec.effects = .pure) (htasks : itemTasks items = specs.map (·.id)) :
    Sound strict (((L.addAll specs (.reduction j r)).setReduction j r (some { active with items := items })).setRole j r
      (.reducing (specs.map (·.id)) 0 active.level)) := by
  obtain ⟨n, hrole, hok⟩ := h.reducing_of_active hactive
  have hworking : ∀ t ∈ specs.map (·.id), L.progress t = .working := by
    intro t ht
    obtain ⟨spec, hspec, rfl⟩ := List.mem_map.mp ht
    exact h.absent _ (hnew spec hspec)
  have hnewTasks : NewTasks L specs (.reduction j r) :=
    ⟨hnew, hnodup, nofun, nofun, fun _ _ _ => hpure, nofun⟩
  refine h.grow hnewTasks ⟨rfl, rfl, rfl, rfl, fun t ht => .inl ht, ?_, fun j' r' active' hactive' => ?_⟩
    (roleOk_setRole ?_ fun j' r' hne => roleOk_setReduction hne ?_)
  · exact setRole_isSome (by rw [setReduction_role, addAll_role, hrole]; rfl)
  · rw [setRole_reduction, setReduction_reduction] at hactive'
    split at hactive'
    · rename_i heq
      rw [heq.1, heq.2]
      exact h.reducible j r active hactive
    · exact h.reducible j' r' active' hactive'
  · refine ⟨⟨_, if_pos ⟨rfl, rfl⟩, rfl, htasks.symm⟩, fun t ht => if_pos ht, fun _ => rfl, fun _ => ?_, fun t ht => ?_⟩
    · symm
      rw [List.length_eq_zero_iff, Ledger.doneOutputs, List.filterMap_eq_nil_iff]
      intro t ht
      rw [setReduction_progress, addAll_progress, hworking t ht]
      rfl
    · by_cases hmem : t ∈ specs.map (·.id)
      · exact .inl hmem
      · obtain ⟨own, hown, hrest⟩ := ht
        rw [setReduction_binding, addAll_binding, if_neg hmem] at hown
        rcases hok.others t ⟨own, hown, hrest⟩ with hmem | hdone
        · rw [hitems] at hmem
          cases hmem
        · exact .inr hdone
  · refine (h.roleOk j' r').frame (sameRole_addAll h.toWellformed hnew fun hin => hne ?_)
    exact ⟨hin.1, List.mem_singleton.mp hin.2⟩

end Launch

/-! ## Steps and runs -/

/-- **Every step keeps the ledger sound.** -/
theorem Step.sound (hstep : Step strict L L') (h : Sound strict L) : Sound strict L' := by
  cases hstep with
  | submit spec hnew => exact h.submit hnew
  | lose hspec hretry hw => exact h.lose hspec hretry hw
  | accept hnew haccepted => exact h.accept hnew haccepted
  | ready hn => exact h.ready hn
  | single hl hplanned => exact h.single hl hplanned
  | fused hl hrest hchain hnodup hpure hplanned => exact h.fused hl hrest hchain hnodup hpure hplanned
  | sharded hl hsome hshards hplanned => exact h.shards hl hsome hshards hplanned
  | level hactive hitems hnew hnodup hpure htasks _ _ _ => exact h.level hactive hitems hnew hnodup hpure htasks
  | reduced hactive hitems _ => exact h.reduced hactive hitems
  | finish hspec hw hone hwhy => exact h.finish hspec hw hone hwhy
  | conclude hb hw => exact h.conclude hb hw
  | shardWaits hb _ hrole hL' hmore => subst hL'; exact h.shardWaits hb hrole hmore
  | shardsComplete hb _ hrole hL' hall _ _ => subst hL'; exact h.shardsComplete hb hrole hall
  | shardsReduce hb _ hrole hL' hall hdefinition hreduces _ =>
    subst hL'
    exact h.shardsReduce hb hrole hall hdefinition hreduces
  | reducerWaits hb _ hactive hL' _ => subst hL'; exact h.reducerWaits hb hactive
  | levelComplete hb _ hactive hL' hnext => subst hL'; exact h.levelComplete hb hactive hnext

theorem Steps.sound (hsteps : Steps strict L L') (h : Sound strict L) : Sound strict L' := by
  induction hsteps with
  | refl => exact h
  | tail _ hstep ih => exact hstep.sound ih

end Plurifold
