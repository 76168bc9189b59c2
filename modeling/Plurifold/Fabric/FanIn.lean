import Plurifold.Fabric.Consistent
import Plurifold.Fabric.Stable

/-!
# Ordered fan-in

The outputs of the shards of a role, in the order of the shard indexes, reach the end of the role without loss or
duplication. `Yields` says what a list of objects of the role was made from: a shard output yields itself, the output
of a reducer what its inputs yield, in input order. At every level of a reduction the inputs of the level yield all
outputs of the shards in order (`FanIn.active`), since a level cuts its inputs into consecutive groups and replaces each
group by one object (`yields_next`). If no two tasks have an output in common, the yield of an object is unique
(`Yields.unique`).
-/

namespace Plurifold

open Lib Fabric Ledger

variable {F : Type} {strict : Prop} {L L' : Ledger F} {j : JobId} {r : String} {t : TaskId}

/-! ## Yields -/

/-- What objects of a role were made from, one after the other: the outputs of its shards from themselves, the output of
a reducer from the reducer's inputs. -/
inductive Yields (L : Ledger F) (j : JobId) (r : String) : List ObjectId → List ObjectId → Prop
  | nil : Yields L j r [] []
  | shard {t : TaskId} {outputs rest ys : List ObjectId} {o : ObjectId} : L.binding t = some (.shard j r) →
      L.progress t = .completed outputs → o ∈ outputs → Yields L j r rest ys → Yields L j r (o :: rest) (o :: ys)
  | reducer {t : TaskId} {spec : TaskSpec F} {o : ObjectId} {rest xs ys : List ObjectId} :
      L.binding t = some (.reduction j r) → L.progress t = .completed [o] → L.spec t = some spec →
      Yields L j r spec.inputs xs → Yields L j r rest ys → Yields L j r (o :: rest) (xs ++ ys)

/-- Yields are kept. -/
theorem Yields.mono (hkeeps : Keeps L L') {os ys : List ObjectId} (h : Yields L j r os ys) : Yields L' j r os ys := by
  have hdone : ∀ {t : TaskId} {outputs : List ObjectId}, L.progress t = .completed outputs →
      L'.progress t = .completed outputs := by
    intro t outputs hp
    rw [hkeeps.progress t (by rw [hp]; nofun), hp]
  induction h with
  | nil => exact .nil
  | shard hb hp ho _ ih => exact .shard (hkeeps.binding _ _ hb) (hdone hp) ho ih
  | reducer hb hp hspec _ _ ih ih' => exact .reducer (hkeeps.binding _ _ hb) (hdone hp) (hkeeps.spec _ _ hspec) ih ih'

theorem Yields.append {os os' ys ys' : List ObjectId} (h : Yields L j r os ys) (h' : Yields L j r os' ys') :
    Yields L j r (os ++ os') (ys ++ ys') := by
  induction h with
  | nil => exact h'
  | shard hb hp ho _ ih => exact .shard hb hp ho ih
  | reducer hb hp hspec hinputs _ _ ih' =>
    rw [List.append_assoc]
    exact .reducer hb hp hspec hinputs ih'

/-- What a concatenation yields is the yields of its parts. -/
theorem yields_append_split : ∀ {os os' ys : List ObjectId}, Yields L j r (os ++ os') ys →
    ∃ xs zs, ys = xs ++ zs ∧ Yields L j r os xs ∧ Yields L j r os' zs
  | [], _, ys, h => ⟨[], ys, rfl, .nil, h⟩
  | o :: os, _, _, h => by
    cases h with
    | shard hb hp ho hrest =>
      obtain ⟨xs, zs, rfl, hxs, hzs⟩ := yields_append_split hrest
      exact ⟨o :: xs, zs, rfl, .shard hb hp ho hxs, hzs⟩
    | @reducer t spec _ _ own _ hb hp hspec hinputs hrest =>
      obtain ⟨xs, zs, rfl, hxs, hzs⟩ := yields_append_split hrest
      exact ⟨own ++ xs, zs, (List.append_assoc ..).symm, .reducer hb hp hspec hinputs hxs, hzs⟩

/-- The outputs of shards yield themselves. -/
theorem yields_shards {outputs : List ObjectId} (h : ∀ o ∈ outputs, ∃ t done, L.binding t = some (.shard j r) ∧
    L.progress t = .completed done ∧ o ∈ done) : Yields L j r outputs outputs := by
  induction outputs with
  | nil => exact .nil
  | cons o outputs ih =>
    obtain ⟨t, done, hb, hp, ho⟩ := h o (List.mem_cons_self ..)
    exact .shard hb hp ho (ih fun o ho => h o (List.mem_cons_of_mem _ ho))

/-- Completed tasks have no output in common. -/
def Ledger.OutputsApart (L : Ledger F) : Prop :=
  ∀ t t' outputs outputs' o, L.progress t = .completed outputs → L.progress t' = .completed outputs' → o ∈ outputs →
    o ∈ outputs' → t = t'

/-- **The yield of an object is unique** if completed tasks have no output in common. -/
theorem Yields.unique (hapart : L.OutputsApart) {os ys ys' : List ObjectId} (h : Yields L j r os ys)
    (h' : Yields L j r os ys') : ys = ys' := by
  induction h generalizing ys' with
  | nil =>
    cases h'
    rfl
  | @shard t outputs rest ys o hb hp ho _ ih =>
    cases h' with
    | shard _ _ _ hrest' => rw [ih hrest']
    | @reducer t' _ _ _ _ _ hb' hp' _ _ _ =>
      -- a shard is no reducer
      obtain rfl := hapart t t' _ _ o hp hp' ho (List.mem_singleton_self o)
      rw [hb] at hb'
      cases hb'
  | @reducer t spec o rest xs ys hb hp hspec _ _ ih ih' =>
    cases h' with
    | @shard t' _ _ _ _ hb' hp' ho' _ =>
      obtain rfl := hapart t t' _ _ o hp hp' (List.mem_singleton_self o) ho'
      rw [hb] at hb'
      cases hb'
    | @reducer t' spec' _ _ _ _ hb' hp' hspec' hinputs' hrest' =>
      obtain rfl := hapart t t' _ _ o hp hp' (List.mem_singleton_self o) (List.mem_singleton_self o)
      rw [hspec] at hspec'
      cases hspec'
      rw [ih hinputs', ih' hrest']

/-! ## Levels -/

/-- An item of a level stands for a group of its inputs. -/
def ItemFrom (L : Ledger F) (j : JobId) (r : String) (group : List ObjectId) : ReductionItem → Prop
  | .carry o => group = [o]
  | .task t => L.binding t = some (.reduction j r) ∧ ∃ spec, L.spec t = some spec ∧ spec.inputs = group

theorem ItemFrom.mono (hkeeps : Keeps L L') {group : List ObjectId} {item : ReductionItem}
    (h : ItemFrom L j r group item) : ItemFrom L' j r group item := by
  cases item with
  | carry o => exact h
  | task t =>
    obtain ⟨hb, spec, hspec, hinputs⟩ := h
    exact ⟨hkeeps.binding _ _ hb, spec, hkeeps.spec _ _ hspec, hinputs⟩

/-- An item that has come to a result yields what its group yields. -/
theorem yields_item {group ys : List ObjectId} {item : ReductionItem} {o : ObjectId} (hitem : ItemFrom L j r group item)
    (hresult : L.itemResult item = some o) (h : Yields L j r group ys) : Yields L j r [o] ys := by
  cases item with
  | carry o' =>
    cases hitem
    cases hresult
    exact h
  | task t =>
    obtain ⟨hb, spec, hspec, rfl⟩ := hitem
    simp only [Ledger.itemResult] at hresult
    split at hresult
    · rename_i o' hp
      cases hresult
      have hyields := Yields.reducer hb hp hspec h .nil
      rwa [List.append_nil] at hyields
    · cases hresult

/-- **A level keeps the yield**: what its groups yield together, its results yield. -/
theorem yields_next {groups : List (List ObjectId)} {items : List ReductionItem} :
    List.Forall₂ (ItemFrom L j r) groups items → ∀ {inputs ys : List ObjectId}, L.nextInputs items = some inputs →
    Yields L j r groups.flatten ys → Yields L j r inputs ys := by
  intro hitems
  induction hitems with
  | nil =>
    intro inputs ys hnext h
    cases hnext
    exact h
  | @cons group item groups items hitem _ ih =>
    intro inputs ys hnext h
    cases mapM_eq_some_iff.mp hnext with
    | cons hresult hrest =>
      obtain ⟨xs, zs, rfl, hxs, hzs⟩ := yields_append_split h
      exact (yields_item hitem hresult hxs).append (ih (mapM_eq_some_iff.mpr hrest) hzs)

/-! ## The shards of a role -/

/-- All shards of the role, in the order of their indexes. -/
structure ShardList (L : Ledger F) (j : JobId) (r : String) (tasks : List TaskId) : Prop where
  shards : L.Shards j r tasks
  all : ∀ t, L.binding t = some (.shard j r) → t ∈ tasks

/-- A shard stands at its index in the list of all shards, which is as long as the shard says. -/
theorem ShardList.place {tasks : List TaskId} (h : ShardList L j r tasks) (hb : L.binding t = some (.shard j r))
    {spec : TaskSpec F} (hspec : L.spec t = some spec) {shard : TaskShard} (hshard : spec.shard = some shard) :
    tasks[shard.index.toNat]? = some t ∧ shard.count.toNat = tasks.length := by
  obtain ⟨i, hi⟩ := List.mem_iff_getElem?.mp (h.all t hb)
  obtain ⟨-, spec', hspec', shard', hshard', hindex, hcount⟩ := h.shards i t hi
  obtain rfl := Option.some.inj (hspec.symm.trans hspec')
  obtain rfl := Option.some.inj (hshard.symm.trans hshard')
  rw [hindex]
  exact ⟨hi, hcount⟩

theorem ShardList.getElem? {tasks tasks' : List TaskId} (h : ShardList L j r tasks) (h' : ShardList L j r tasks') {i : Nat}
    (hi : tasks[i]? = some t) : tasks'[i]? = some t := by
  obtain ⟨hb, spec, hspec, shard, hshard, hindex, -⟩ := h.shards i t hi
  have hplace := (h'.place hb hspec hshard).1
  rwa [hindex] at hplace

/-- There is one list of all shards of a role. -/
theorem ShardList.unique {tasks tasks' : List TaskId} (h : ShardList L j r tasks) (h' : ShardList L j r tasks') :
    tasks = tasks' := by
  apply List.ext_getElem?
  intro i
  cases hi : tasks[i]? with
  | some t => rw [h.getElem? h' hi]
  | none =>
    cases hi' : tasks'[i]? with
    | none => rfl
    | some t =>
      rw [h'.getElem? h hi'] at hi
      cases hi

/-- A step that binds no shard of the role keeps the list of its shards. -/
theorem ShardList.mono {tasks : List TaskId} (h : ShardList L j r tasks) (hkeeps : Keeps L L')
    (hnew : ∀ t, L'.binding t = some (.shard j r) → L.binding t = some (.shard j r)) : ShardList L' j r tasks := by
  refine ⟨fun i t hi => ?_, fun t hb => h.all t (hnew t hb)⟩
  obtain ⟨hb, spec, hspec, hshard⟩ := h.shards i t hi
  exact ⟨hkeeps.binding _ _ hb, spec, hkeeps.spec _ _ hspec, hshard⟩

/-- All shards of the role are complete. -/
structure ShardsDone (L : Ledger F) (j : JobId) (r : String) (tasks : List TaskId) : Prop extends
    ShardList L j r tasks where
  done : ∀ t ∈ tasks, ∃ outputs, L.progress t = .completed outputs

theorem ShardsDone.doneOutputs_eq {tasks : List TaskId} (h : ShardsDone L j r tasks) (hkeeps : Keeps L L') :
    L'.doneOutputs tasks = L.doneOutputs tasks := by
  apply doneOutputs_congr
  intro t ht
  obtain ⟨outputs, hp⟩ := h.done t ht
  exact hkeeps.progress t (by rw [hp]; nofun)

theorem ShardsDone.mono {tasks : List TaskId} (h : ShardsDone L j r tasks) (hkeeps : Keeps L L')
    (hnew : ∀ t, L'.binding t = some (.shard j r) → L.binding t = some (.shard j r)) : ShardsDone L' j r tasks := by
  refine ⟨h.toShardList.mono hkeeps hnew, fun t ht => ?_⟩
  obtain ⟨outputs, hp⟩ := h.done t ht
  exact ⟨outputs, by rw [hkeeps.progress t (by rw [hp]; nofun), hp]⟩

/-- The outputs of all shards yield themselves. -/
theorem ShardsDone.yields {tasks : List TaskId} (h : ShardsDone L j r tasks) :
    Yields L j r (L.doneOutputs tasks).flatten (L.doneOutputs tasks).flatten := by
  apply yields_shards
  intro o ho
  obtain ⟨done, hdone, ho⟩ := List.mem_flatten.mp ho
  obtain ⟨t, ht, hp⟩ := List.mem_filterMap.mp hdone
  obtain ⟨i, hi⟩ := List.mem_iff_getElem?.mp ht
  obtain ⟨outputs, hp'⟩ := h.done t ht
  rw [hp'] at hp
  cases hp
  exact ⟨t, done, (h.shards i t hi).1, hp', ho⟩

/-! ## The invariant -/

/-- What a reduction has of the shards: its inputs yield all their outputs in order, and the items of a level that has
been placed stand for consecutive groups of the inputs. -/
structure ActiveOk (L : Ledger F) (j : JobId) (r : String) (active : ActiveReduction) (tasks : List TaskId) : Prop where
  done : ShardsDone L j r tasks
  several : 1 < (L.doneOutputs tasks).flatten.length
  yields : Yields L j r active.inputs (L.doneOutputs tasks).flatten
  groups : active.items ≠ [] → ∃ groups, groups.flatten = active.inputs ∧
    List.Forall₂ (ItemFrom L j r) groups active.items

/-- What a completed role has of its shards: their outputs in order if nothing reduces them, else one object that yields
them all. -/
structure CompletesOk (L : Ledger F) (j : JobId) (r : String) (outputs : List ObjectId) (tasks : List TaskId) : Prop where
  done : ShardsDone L j r tasks
  plain : ∀ definition, L.definition j = some definition →
    logicalRoleReduction definition r = none ∨ (L.doneOutputs tasks).flatten.length ≤ 1 →
    outputs = (L.doneOutputs tasks).flatten
  reduced : ∀ definition, L.definition j = some definition → (logicalRoleReduction definition r).isSome = true →
    1 < (L.doneOutputs tasks).flatten.length → ∃ o, outputs = [o] ∧ Yields L j r [o] (L.doneOutputs tasks).flatten

structure FanIn (L : Ledger F) : Prop where
  listed : ∀ t j r, L.binding t = some (.shard j r) → ∃ tasks, ShardList L j r tasks
  active : ∀ j r active, L.reduction j r = some active → ∃ tasks, ActiveOk L j r active tasks
  completed : ∀ t j r outputs, L.binding t = some (.shard j r) → L.role j r = some (.completed outputs) →
    ∃ tasks, CompletesOk L j r outputs tasks

section Mono

variable (hkeeps : Keeps L L') (hnew : ∀ t, L'.binding t = some (.shard j r) → L.binding t = some (.shard j r))

include hkeeps hnew

theorem ActiveOk.mono {active : ActiveReduction} {tasks : List TaskId} (h : ActiveOk L j r active tasks) :
    ActiveOk L' j r active tasks := by
  have hsame := h.done.doneOutputs_eq hkeeps
  refine ⟨h.done.mono hkeeps hnew, hsame ▸ h.several, hsame ▸ h.yields.mono hkeeps, fun hitems => ?_⟩
  obtain ⟨groups, hflatten, hgroups⟩ := h.groups hitems
  exact ⟨groups, hflatten, hgroups.imp fun _ _ hitem => hitem.mono hkeeps⟩

theorem CompletesOk.mono (hdefinition : L'.definition j = L.definition j) {outputs : List ObjectId} {tasks : List TaskId}
    (h : CompletesOk L j r outputs tasks) : CompletesOk L' j r outputs tasks := by
  have hsame := h.done.doneOutputs_eq hkeeps
  refine ⟨h.done.mono hkeeps hnew, fun definition hd hplain => ?_, fun definition hd hsome hlt => ?_⟩
  · rw [hsame] at hplain ⊢
    exact h.plain definition (hdefinition ▸ hd) hplain
  · rw [hsame] at hlt ⊢
    obtain ⟨o, ho, hyields⟩ := h.reduced definition (hdefinition ▸ hd) hsome hlt
    exact ⟨o, ho, hyields.mono hkeeps⟩

end Mono

/-! ## What a step changes -/

theorem binding_addAll {specs : List (TaskSpec F)} {b b' : TaskRoleBinding}
    (h : (L.addAll specs b).binding t = some b') : b' = b ∨ L.binding t = some b' := by
  rw [addAll_binding] at h
  split at h
  · exact .inl (Option.some.inj h).symm
  · exact .inr h

variable [F64 F]

/-- The shards of a role are placed together, when it starts. -/
theorem Step.binds_shard (hstep : Step strict L L') (hb : L'.binding t = some (.shard j r)) :
    L.binding t = some (.shard j r) ∨
      (NotStarted (L.role j r) ∧ ∃ tasks n, L'.role j r = some (.sharded tasks n)) := by
  cases hstep with
  | single =>
    rcases binding_addAll hb with hb | hb
    · cases hb
    · exact .inl hb
  | fused =>
    rcases binding_addAll hb with hb | hb
    · cases hb
    · exact .inl hb
  | @sharded j' definition r' specs planned hl =>
    rcases binding_addAll hb with hb | hb
    · cases hb
      refine .inr ⟨hl.notStarted r (List.mem_cons_self ..), specs.map (·.id), 0, ?_⟩
      rw [setPlanned_role, setRole_role, if_pos ⟨rfl, rfl⟩]
    · exact .inl hb
  | level =>
    rcases binding_addAll hb with hb | hb
    · cases hb
    · exact .inl hb
  | shardWaits _ _ _ hL' => subst hL'; exact .inl hb
  | shardsComplete _ _ _ hL' => subst hL'; exact .inl hb
  | shardsReduce _ _ _ hL' => subst hL'; exact .inl hb
  | reducerWaits _ _ _ hL' => subst hL'; exact .inl hb
  | levelComplete _ _ _ hL' => subst hL'; exact .inl hb
  | _ => exact .inl hb

/-- A role that has been started gets no new shards. -/
theorem Step.old_shards (hstep : Step strict L L') (hstarted : ¬NotStarted (L.role j r)) (t : TaskId)
    (hb : L'.binding t = some (.shard j r)) : L.binding t = some (.shard j r) :=
  (hstep.binds_shard hb).resolve_right fun hnew => hstarted hnew.1

/-- The last shard of a role completes: what the role has then. -/
structure LastShard (L L' : Ledger F) (j : JobId) (r : String) (tasks : List TaskId) : Prop where
  sharded : ∃ n, L.role j r = some (.sharded tasks n)
  all : (L'.doneOutputs tasks).length = tasks.length

/-- How a reduction comes about. -/
theorem Step.reduces (hstep : Step strict L L') (hsound : Sound strict L) {active' : ActiveReduction}
    (h : L'.reduction j r = some active') :
    L.reduction j r = some active' ∨
    (∃ active groups, L.reduction j r = some active ∧ active'.inputs = active.inputs ∧ groups.flatten = active.inputs ∧
      List.Forall₂ (ItemFrom L' j r) groups active'.items) ∨
    (∃ tasks, LastShard L L' j r tasks ∧ 1 < (L'.doneOutputs tasks).flatten.length ∧
      active' = ⟨0, (L'.doneOutputs tasks).flatten, []⟩) ∨
    (∃ active inputs, L.reduction j r = some active ∧ active.items ≠ [] ∧ L'.nextInputs active.items = some inputs ∧
      active' = ⟨active.level + 1, inputs, []⟩) := by
  cases hstep with
  | @level j' r' active specs items groups hactive _ hnew hnodup _ _ hflatten hitems _ =>
    rw [setRole_reduction, setReduction_reduction] at h
    split at h
    · rename_i heq
      obtain ⟨rfl, rfl⟩ := heq
      cases h
      refine .inr (.inl ⟨active, groups, hactive, rfl, hflatten, hitems.imp fun group item hitem => ?_⟩)
      cases item with
      | carry o => exact hitem
      | task t =>
        obtain ⟨spec, hspec, rfl, hinputs⟩ := hitem
        exact ⟨if_pos (List.mem_map.mpr ⟨spec, hspec, rfl⟩), spec,
          addAll_spec_of_mem (b := .reduction j r) hnodup hspec, hinputs⟩
    · exact .inl h
  | reduced =>
    rw [setRole_reduction, setReduction_reduction] at h
    split at h
    · cases h
    · exact .inl h
  | @shardsReduce _ t j' r' tasks n outputs definition hb hw hrole hL' hall _ _ hlt =>
    subst hL'
    rw [setRole_reduction, setReduction_reduction] at h
    split at h
    · rename_i heq
      obtain ⟨rfl, rfl⟩ := heq
      cases h
      exact .inr (.inr (.inl ⟨tasks, ⟨⟨n, hrole⟩, hall⟩, hlt, rfl⟩))
    · exact .inl h
  | @levelComplete _ t j' r' active o inputs hb hw hactive hL' hnext =>
    subst hL'
    rw [setRole_reduction, setReduction_reduction] at h
    split at h
    · rename_i heq
      obtain ⟨rfl, rfl⟩ := heq
      cases h
      refine .inr (.inr (.inr ⟨active, inputs, hactive, fun hnil => ?_, hnext, rfl⟩))
      -- the reducer that completes belongs to the level
      obtain ⟨active₁, n, hactive₁, -, hmem, -⟩ := hsound.reducing hb hw
      obtain rfl := Option.some.inj (hactive.symm.trans hactive₁)
      rw [hnil] at hmem
      cases hmem
    · exact .inl h
  | shardWaits _ _ _ hL' => subst hL'; exact .inl h
  | shardsComplete _ _ _ hL' => subst hL'; exact .inl h
  | reducerWaits _ _ _ hL' => subst hL'; exact .inl h
  | _ => exact .inl h

omit [F64 F] in
/-- A role set to another status was completed before, if it is completed after. -/
theorem completed_of_setRole {status : CooperativeRoleStatus} {j' : JobId} {r' : String} {outputs : List ObjectId}
    (h : (L.setRole j' r' status).role j r = some (.completed outputs)) (hne : status ≠ .completed outputs) :
    L.role j r = some (.completed outputs) := by
  rw [setRole_role] at h
  split at h
  · exact absurd (Option.some.inj h) hne
  · exact h

/-- The task does all the work of the role, and its outputs are those of the role; inside a chain the role has none. -/
inductive Ledger.Delivers (L : Ledger F) (t : TaskId) (j : JobId) (r : String) (outputs : List ObjectId) : Prop
  | whole : L.binding t = some (.single j r) → L.progress t = .completed outputs → L.Delivers t j r outputs
  | last {front : List String} : L.binding t = some (.fusedChain j (front ++ [r])) → L.progress t = .completed outputs →
      L.Delivers t j r outputs
  | inside {names : List String} : L.binding t = some (.fusedChain j names) → r ∈ names.dropLast → L.Delivers t j r outputs

omit [F64 F] in
theorem delivers_of_conclude {front : List String} {last : String} {done : List ObjectId}
    (hb : L.binding t = some (.single j last) ∧ front = [] ∨ L.binding t = some (.fusedChain j (front ++ [last])))
    (hp : L.progress t = .completed done) (hr : r ∈ front ++ [last]) {outputs : List ObjectId}
    (h : (if r = last then CooperativeRoleStatus.completed done else .completed []) = .completed outputs) :
    L.Delivers t j r outputs := by
  split at h
  · rename_i hlast
    subst hlast
    cases h
    rcases hb with ⟨hb, -⟩ | hb
    · exact .whole hb hp
    · exact .last hb hp
  · rename_i hne
    have hfront : r ∈ front := (List.mem_append.mp hr).resolve_right fun h => hne (List.mem_singleton.mp h)
    rcases hb with ⟨-, rfl⟩ | hb
    · exact (List.not_mem_nil hfront).elim
    · exact .inside hb (by rwa [List.dropLast_concat])

/-- How a role is completed. -/
theorem Step.completes (hstep : Step strict L L') {outputs : List ObjectId}
    (h : L'.role j r = some (.completed outputs)) :
    L.role j r = some (.completed outputs) ∨
    (∃ t, L.Serves t j r ∧ L.progress t = .working ∧ L'.Delivers t j r outputs) ∨
    (∃ active, L.reduction j r = some active ∧ active.inputs.length ≤ 1 ∧ outputs = active.inputs) ∨
    (∃ t tasks definition, L.binding t = some (.shard j r) ∧ LastShard L L' j r tasks ∧ L.definition j = some definition ∧
      (logicalRoleReduction definition r = none ∨ (L'.doneOutputs tasks).flatten.length ≤ 1) ∧
      outputs = (L'.doneOutputs tasks).flatten) := by
  cases hstep with
  | submit => exact .inl h
  | finish => exact .inl h
  | lose =>
    rw [mark_role] at h
    split at h
    · obtain ⟨status, -, hstatus⟩ := Option.map_eq_some_iff.mp h
      cases hstatus
    · exact .inl h
  | accept =>
    rw [accept_role] at h
    split at h
    · cases h
    · exact .inl h
  | fused =>
    rw [setPlanned_role, setRoles_role] at h
    split at h
    · cases h
    · exact .inl h
  | @conclude t j' front last outputs' hb hw =>
    rw [setRoles_role] at h
    split at h
    · rename_i heq
      obtain ⟨rfl, hr⟩ := heq
      refine .inr (.inl ⟨t, serves_of_conclude hb hr, hw, delivers_of_conclude ?_ (if_pos rfl) hr (Option.some.inj h)⟩)
      exact hb
    · exact .inl h
  | @reduced j' r' active hactive hitems hlength =>
    rw [setRole_role] at h
    split at h
    · rename_i heq
      obtain ⟨rfl, rfl⟩ := heq
      cases h
      exact .inr (.inr (.inl ⟨active, hactive, hlength, rfl⟩))
    · exact .inl h
  | @shardsComplete _ t j' r' tasks n outputs' definition hb hw hrole hL' hall hd hplain =>
    subst hL'
    rw [setRole_role] at h
    split at h
    · rename_i heq
      obtain ⟨rfl, rfl⟩ := heq
      cases h
      exact .inr (.inr (.inr ⟨t, tasks, definition, hb, ⟨⟨n, hrole⟩, hall⟩, hd, hplain, rfl⟩))
    · exact .inl h
  | ready => exact .inl (completed_of_setRole h nofun)
  | single =>
    rw [setPlanned_role] at h
    exact .inl (completed_of_setRole h nofun)
  | sharded =>
    rw [setPlanned_role] at h
    exact .inl (completed_of_setRole h nofun)
  | level => exact .inl (completed_of_setRole h nofun)
  | shardWaits _ _ _ hL' _ => subst hL'; exact .inl (completed_of_setRole h nofun)
  | shardsReduce _ _ _ hL' _ _ _ _ => subst hL'; exact .inl (completed_of_setRole h nofun)
  | reducerWaits _ _ _ hL' _ => subst hL'; exact .inl (completed_of_setRole h nofun)
  | levelComplete _ _ _ hL' _ => subst hL'; exact .inl (completed_of_setRole h nofun)

/-! ## Steps -/

/-- A sharded role names all its shards. -/
theorem Sound.shardList (h : Sound strict L) {tasks : List TaskId} {n : Nat} (hrole : L.role j r = some (.sharded tasks n)) :
    ShardList L j r tasks := by
  have hok := h.roleOk j r
  rw [hrole] at hok
  exact ⟨hok.shards, fun t hb => hok.only t (works_of_shard hb).bound⟩

/-- A role with a shard has been started. -/
theorem Sound.started_of_shard (h : Sound strict L) (hb : L.binding t = some (.shard j r)) : ¬NotStarted (L.role j r) :=
  fun hn => (h.idle hn).unbound t (works_of_shard hb).bound

/-- A role with a reduction has been started. -/
theorem Sound.started_of_active (h : Sound strict L) {active : ActiveReduction} (hactive : L.reduction j r = some active) :
    ¬NotStarted (L.role j r) := by
  obtain ⟨n, hrole, -⟩ := h.reducing_of_active hactive
  rw [hrole]
  rintro (hn | hn) <;> cases hn

section Steps

variable (hstep : Step strict L L') (hsound : Sound strict L)

include hstep hsound

theorem Step.listed (h : FanIn L) (hb : L'.binding t = some (.shard j r)) : ∃ tasks, ShardList L' j r tasks := by
  rcases hstep.binds_shard hb with hold | ⟨-, tasks, n, hrole⟩
  · obtain ⟨tasks, hlist⟩ := h.listed t j r hold
    exact ⟨tasks, hlist.mono (hstep.keeps hsound) (hstep.old_shards (hsound.started_of_shard hold))⟩
  · exact ⟨tasks, (hstep.sound hsound).shardList hrole⟩

theorem Step.shardsDone_of_last {tasks : List TaskId} (h : LastShard L L' j r tasks) : ShardsDone L' j r tasks := by
  obtain ⟨n, hrole⟩ := h.sharded
  have hstarted : ¬NotStarted (L.role j r) := by
    rw [hrole]
    rintro (hn | hn) <;> cases hn
  exact ⟨(hsound.shardList hrole).mono (hstep.keeps hsound) (hstep.old_shards hstarted),
    fun t ht => done_of_length h.all ht⟩

/-- The reduction of a role after a step: the one before it, a level more of it, or the first. -/
theorem Step.activeOk (h : FanIn L) {active' : ActiveReduction} (hactive' : L'.reduction j r = some active') :
    ∃ tasks, ActiveOk L' j r active' tasks := by
  have hold : ∀ {active}, L.reduction j r = some active → ∃ tasks, ActiveOk L' j r active tasks := by
    intro active hactive
    obtain ⟨tasks, hok⟩ := h.active j r active hactive
    exact ⟨tasks, hok.mono (hstep.keeps hsound) (hstep.old_shards (hsound.started_of_active hactive))⟩
  rcases hstep.reduces hsound hactive' with hactive | ⟨active, groups, hactive, hinputs, hflatten, hitems⟩ |
    ⟨tasks, hlast, hlt, rfl⟩ | ⟨active, inputs, hactive, hitems, hnext, rfl⟩
  · exact hold hactive
  · obtain ⟨tasks, hok⟩ := hold hactive
    exact ⟨tasks, hok.done, hok.several, hinputs ▸ hok.yields, fun _ => ⟨groups, hinputs ▸ hflatten, hitems⟩⟩
  · have hdone := hstep.shardsDone_of_last hsound hlast
    exact ⟨tasks, hdone, hlt, hdone.yields, fun hitems => absurd rfl hitems⟩
  · obtain ⟨tasks, hok⟩ := hold hactive
    obtain ⟨groups, hflatten, hgroups⟩ := hok.groups hitems
    refine ⟨tasks, hok.done, hok.several, ?_, fun hitems => absurd rfl hitems⟩
    exact yields_next hgroups hnext (hflatten ▸ hok.yields)

/-- A reduction that is down to one object at most ends with exactly one, which yields all shard outputs. -/
theorem ActiveOk.completes {active : ActiveReduction} {tasks : List TaskId} (h : ActiveOk L' j r active tasks)
    (hactive : L.reduction j r = some active) (hlength : active.inputs.length ≤ 1) :
    CompletesOk L' j r active.inputs tasks := by
  have hkeeps := hstep.keeps hsound
  obtain ⟨definition, hd, hreduces⟩ := hsound.reducible j r active hactive
  refine ⟨h.done, fun definition' hd' hplain => ?_, fun definition' hd' _ hlt => ?_⟩
  · rw [hkeeps.definition j definition hd] at hd'
    cases hd'
    rcases hplain with hnone | hle
    · rw [hnone] at hreduces
      cases hreduces
    · have hseveral := h.several
      omega
  · have hyields := h.yields
    match hinputs : active.inputs, hlength with
    | [], _ =>
      rw [hinputs] at hyields
      generalize (L'.doneOutputs tasks).flatten = ys at hyields hlt
      cases hyields
      cases hlt
    | [o], _ => exact ⟨o, rfl, hinputs ▸ hyields⟩

/-- A completed role after a step. -/
theorem Step.completesOk (h : FanIn L) {outputs : List ObjectId} (hb : L'.binding t = some (.shard j r))
    (hrole : L'.role j r = some (.completed outputs)) : ∃ tasks, CompletesOk L' j r outputs tasks := by
  have hkeeps := hstep.keeps hsound
  rcases hstep.completes hrole with hold | ⟨t', hserves, hw, -⟩ | ⟨active, hactive, hlength, rfl⟩ |
    ⟨-, tasks, definition, -, hlast, hd, hplain, rfl⟩
  · have hstarted : ¬NotStarted (L.role j r) := by
      rw [hold]
      rintro (hn | hn) <;> cases hn
    obtain ⟨definition, hd, -⟩ := (hsound.domain j r).mp (by rw [hold]; rfl)
    obtain ⟨tasks, hok⟩ := h.completed t j r outputs (hstep.old_shards hstarted t hb) hold
    exact ⟨tasks, hok.mono hkeeps (hstep.old_shards hstarted) (by rw [hkeeps.definition j _ hd, hd])⟩
  · -- a task that does all the work of the role leaves no room for shards
    obtain ⟨hsubmitted, hok⟩ := hsound.submitted hserves hw
    have hstarted : ¬NotStarted (L.role j r) := by
      rw [hsubmitted]
      rintro (hn | hn) <;> cases hn
    have hold := hstep.old_shards hstarted t hb
    obtain rfl := hok.only t (works_of_shard hold).bound
    rcases hserves with hs | ⟨names, hs, -⟩ <;> rw [hold] at hs <;> cases hs
  · obtain ⟨tasks, hok⟩ := h.active j r active hactive
    have hok' := hok.mono hkeeps (hstep.old_shards (hsound.started_of_active hactive))
    exact ⟨tasks, ActiveOk.completes hstep hsound hok' hactive hlength⟩
  · refine ⟨tasks, hstep.shardsDone_of_last hsound hlast, fun _ _ _ => rfl, fun definition' hd' hsome hlt => ?_⟩
    rw [hkeeps.definition j definition hd] at hd'
    cases hd'
    rcases hplain with hnone | hle
    · rw [hnone] at hsome
      cases hsome
    · omega

/-- **Every step keeps the order of the fan-in.** -/
theorem Step.fanIn (h : FanIn L) : FanIn L' where
  listed _ _ _ hb := hstep.listed hsound h hb
  active _ _ _ hactive := hstep.activeOk hsound h hactive
  completed _ _ _ _ hb hrole := hstep.completesOk hsound h hb hrole

end Steps

theorem Steps.fanIn (hsteps : Steps strict L L') (hsound : Sound strict L) (h : FanIn L) : FanIn L' := by
  induction hsteps with
  | refl => exact h
  | tail hsteps hstep ih => exact hstep.fanIn (Steps.sound hsteps hsound) ih

omit [F64 F] in
theorem fanIn_empty : FanIn (Ledger.empty : Ledger F) :=
  ⟨fun _ _ _ hb => absurd hb empty_binding, fun _ _ _ h => (nomatch h), fun _ _ _ _ hb => absurd hb empty_binding⟩

/-! ## Fresh outputs -/

/-- A completion that has an effect carries only objects that no completed task has put out. -/
def Event.FreshOutputs (ev : Event F) : Prop :=
  ∀ lease outputs, ev.op = .completeExecution lease outputs → ev.after ≠ ev.before →
    ∀ o ∈ outputs, ∀ t done, ev.before.taskStatus t = some (.completed done) → o.id ∉ done

/-- A task is completed by its own completion. -/
theorem event_completed {e : Env} {s : Fabric F} {op : Op F} {done : List ObjectId}
    (h : (Event.of e s op).after.taskStatus t = some (.completed done)) :
    s.taskStatus t = some (.completed done) ∨ ∃ lease outputs, op = .completeExecution lease outputs ∧
      lease.taskId = t ∧ done = outputs.map (·.id) ∧ (Event.of e s op).after ≠ s := by
  have hmoves := event_moves e s op t
  obtain ⟨⟨spec, status⟩, hafter, hstatus⟩ := Option.map_eq_some_iff.mp h
  cases hstatus
  rw [hafter] at hmoves
  generalize hbefore : s.tasks.lookup t = before at hmoves
  cases hmoves with
  | stays => exact .inl (by rw [Fabric.taskStatus, hbefore]; rfl)
  | commits _ lease current outputs hop hid =>
    refine .inr ⟨lease, outputs, hop, hid, rfl, fun hsame => ?_⟩
    rw [hsame, hbefore] at hafter
    cases hafter

theorem event_outputsApart {e : Env} {s : Fabric F} {op : Op F} (h : s.ledger.OutputsApart)
    (hfresh : (Event.of e s op).FreshOutputs) : (Event.of e s op).after.ledger.OutputsApart := by
  -- the outputs of a completion are apart from those before it
  have hnew : ∀ {t t' : TaskId} {done done' : List ObjectId} {o : ObjectId},
      s.taskStatus t' = some (.completed done') → o ∈ done → o ∈ done' →
      (∃ lease outputs, op = .completeExecution lease outputs ∧ lease.taskId = t ∧ done = outputs.map (·.id) ∧
        (Event.of e s op).after ≠ s) → False := by
    rintro t t' done done' o hold ho ho' ⟨lease, outputs, hop, -, rfl, hne⟩
    obtain ⟨object, hobject, rfl⟩ := List.mem_map.mp ho
    exact hfresh lease outputs hop hne object hobject t' done' hold ho'
  intro t t' done done' o hp hp' ho ho'
  rcases event_completed (taskStatus_completed.mpr hp) with hold | hcompletion
  · rcases event_completed (taskStatus_completed.mpr hp') with hold' | hcompletion'
    · exact h t t' done done' o (taskStatus_completed.mp hold) (taskStatus_completed.mp hold') ho ho'
    · exact (hnew hold ho' ho hcompletion').elim
  · rcases event_completed (taskStatus_completed.mpr hp') with hold' | ⟨lease', outputs', hop', hid', -⟩
    · exact (hnew hold' ho ho' hcompletion).elim
    · obtain ⟨lease, outputs, hop, hid, -⟩ := hcompletion
      rw [hop] at hop'
      cases hop'
      rw [← hid, ← hid']

/-! ## Runs -/

/-- Every completion of the run that has an effect carries fresh objects. -/
def FreshOutputs (e : Env) (s : Fabric F) (ops : List (Op F)) : Prop := ∀ ev ∈ trace e s ops, ev.FreshOutputs

theorem FreshOutputs.apart {e : Env} {m x : UInt64} {ops : List (Op F)} (h : FreshOutputs e (Fabric.new m x) ops) :
    (final e (Fabric.new m x) ops).ledger.OutputsApart := by
  have hnew : (Fabric.new m x : Fabric F).ledger.OutputsApart := by
    intro t t' outputs outputs' o hp
    rw [ledger_new] at hp
    cases hp
  obtain ⟨_, hapart⟩ := final_rule (I := fun _ _ s => s.ledger.OutputsApart) (C := Event.FreshOutputs)
    (fun e _ s op hs hfresh => event_outputsApart hs hfresh) ops e [] _ hnew h
  exact hapart

/-- **Ordered fan-in.** In every state of a run with fresh task and output identifiers, a sharded role has one list of
shards in the order of their indexes, and the yield of an object is unique. While the role reduces, the inputs of the
current level yield all outputs of the shards in order. When the role is completed, so are all shards; without a reducer
its result is the concatenation of their outputs in order; with one it is, for more than one output, exactly one object,
which yields them all in order. -/
theorem ordered_fan_in (e : Env) (m x : UInt64) (ops : List (Op F)) (hfresh : FreshTasks e ops)
    (houtputs : FreshOutputs e (Fabric.new m x) ops) :
    let s := final e (Fabric.new m x) ops
    ∀ j job r t, s.jobs.lookup j = some job → s.taskRoles.lookup t = some (.shard j r) →
      ∃ tasks, ShardList s.ledger j r tasks ∧
        (∀ os ys ys', Yields s.ledger j r os ys → Yields s.ledger j r os ys' → ys = ys') ∧
        (∀ active, job.reductions.lookup r = some active →
          (∀ t ∈ tasks, ∃ done, s.taskStatus t = some (.completed done)) ∧
          Yields s.ledger j r active.inputs (s.completedOutputs tasks).flatten) ∧
        ∀ result, job.roles.lookup r = some (.completed result) →
          (∀ t ∈ tasks, ∃ done, s.taskStatus t = some (.completed done)) ∧
          (logicalRoleReduction job.definition r = none → result = (s.completedOutputs tasks).flatten) ∧
          ((logicalRoleReduction job.definition r).isSome = true →
            ((s.completedOutputs tasks).flatten.length ≤ 1 → result = (s.completedOutputs tasks).flatten) ∧
            (1 < (s.completedOutputs tasks).flatten.length →
              ∃ o, result = [o] ∧ Yields s.ledger j r [o] (s.completedOutputs tasks).flatten)) := by
  intro s j job r t hj hb
  obtain ⟨e', hreached⟩ := final_reached (m := m) (x := x) hfresh fun h : False => h.elim
  have hfan : FanIn s.ledger := hreached.steps.fanIn sound_empty fanIn_empty
  obtain ⟨tasks, hlist⟩ := hfan.listed t j r hb
  refine ⟨tasks, hlist, fun os ys ys' h h' => h.unique houtputs.apart h', fun active hactive => ?_, fun result hresult => ?_⟩
  · rw [← reduction_of_lookup hj] at hactive
    obtain ⟨tasks', hok⟩ := hfan.active j r active hactive
    obtain rfl := hlist.unique hok.done.toShardList
    rw [doneOutputs_eq]
    refine ⟨fun t ht => ?_, hok.yields⟩
    obtain ⟨done, hp⟩ := hok.done.done t ht
    exact ⟨done, taskStatus_completed.mpr hp⟩
  · rw [← role_of_lookup hj] at hresult
    obtain ⟨tasks', hok⟩ := hfan.completed t j r result hb hresult
    obtain rfl := hlist.unique hok.done.toShardList
    have hd := definition_of_lookup hj
    rw [doneOutputs_eq]
    refine ⟨fun t ht => ?_, fun hnone => hok.plain _ hd (.inl hnone), fun hsome => ⟨fun hle => ?_, fun hlt => ?_⟩⟩
    · obtain ⟨done, hp⟩ := hok.done.done t ht
      exact ⟨done, taskStatus_completed.mpr hp⟩
    · exact hok.plain _ hd (.inr hle)
    · exact hok.reduced _ hd hsome hlt

/-! ## Two shards and a reducer -/

/-- The completed tasks before a completion have put out none of its objects. -/
def Event.carriesFresh (ev : Event F) : Bool :=
  match ev.op with
  | .completeExecution _ outputs => outputs.all fun o => ev.before.tasks.values.all fun record =>
      match record.status with
      | .completed done => !done.contains o.id
      | _ => true
  | _ => true

omit [F64 F] in
theorem freshOutputs_of_carriesFresh {ev : Event F} (h : ev.carriesFresh = true) : ev.FreshOutputs := by
  intro lease outputs hop _ o ho t done ht hmem
  obtain ⟨⟨spec, status⟩, hlookup, hstatus⟩ := Option.map_eq_some_iff.mp ht
  cases hstatus
  rw [Event.carriesFresh, hop] at h
  have hrecord := List.all_eq_true.mp (List.all_eq_true.mp h o ho) _ (Map.mem_values.mpr ⟨t, hlookup⟩)
  simp [hmem] at hrecord

namespace Sample

/-- A role of two shards, whose outputs a reducer takes together. -/
def foldRole : LogicalRoleSpec ℚ where
  name := "fold"
  implementations := [⟨"echo", { template with artifact := "builtin:shard-echo" }⟩]
  dependsOn := []
  shards := .fixed 2
  reduction := some ⟨"concat", { template with artifact := "builtin:concat" }, 2, 0⟩

def foldJob : LogicalJobSpec ℚ where
  id := ⟨1⟩
  roles := [foldRole]
  outputs := ["fold"]

/-- The lease of a task of the run, by the number of its execution. -/
def foldLease (task execution : Nat) : ExecutionLease := ⟨⟨task⟩, ⟨execution⟩, ⟨1⟩, 1, 0⟩

def foldOutput (n : Nat) : List ObjectMetadata := [⟨⟨n⟩, 0, none, none, [⟨1⟩], none⟩]

/-- The second shard completes before the first one, then the reducer. -/
def foldRun : List (Op ℚ) :=
  [.registerResource (resource 1), .submitLogical foldJob,
    .beginExecution ⟨3436⟩ ⟨1⟩, .completeExecution (foldLease 3436 52) (foldOutput 21),
    .beginExecution ⟨1900⟩ ⟨1⟩, .completeExecution (foldLease 1900 852) (foldOutput 11),
    .beginExecution ⟨56660⟩ ⟨1⟩, .completeExecution (foldLease 56660 13652) (foldOutput 31)]

theorem freshTasks_foldRun : FreshTasks (Env.numbered clock) foldRun :=
  freshTasks_numbered fun task h => by
    simp only [foldRun, List.mem_cons, List.not_mem_nil, reduceCtorEq, or_false] at h

theorem freshOutputs_foldRun : FreshOutputs (Env.numbered clock) (Fabric.new 100 100) foldRun := by
  have hall : ∀ ev ∈ trace (Env.numbered clock) (Fabric.new 100 100) foldRun, ev.carriesFresh = true := by
    decide +kernel
  exact fun ev hev => freshOutputs_of_carriesFresh (hall ev hev)

/-- The state after the run. -/
def folded : Fabric ℚ := final (Env.numbered clock) (Fabric.new 100 100) foldRun

theorem folded_shards {tasks : List TaskId} (h : ShardList folded.ledger ⟨1⟩ "fold" tasks) : tasks = [⟨1900⟩, ⟨3436⟩] := by
  have hfirst : (folded.ledger.spec ⟨1900⟩).bind (·.shard) = some ⟨0, 2, none⟩ ∧
      folded.ledger.binding ⟨1900⟩ = some (.shard ⟨1⟩ "fold") := by decide +kernel
  have hsecond : (folded.ledger.spec ⟨3436⟩).bind (·.shard) = some ⟨1, 2, none⟩ ∧
      folded.ledger.binding ⟨3436⟩ = some (.shard ⟨1⟩ "fold") := by decide +kernel
  obtain ⟨first, hspec, hshard⟩ := Option.bind_eq_some_iff.mp hfirst.1
  obtain ⟨second, hspec', hshard'⟩ := Option.bind_eq_some_iff.mp hsecond.1
  obtain ⟨hzero, hlength⟩ := h.place hfirst.2 hspec hshard
  obtain ⟨hone, -⟩ := h.place hsecond.2 hspec' hshard'
  obtain ⟨t, t', rfl⟩ := List.length_eq_two.mp hlength.symm
  cases hzero
  cases hone
  rfl

end Sample

/-- The role ends with the output of the reducer, which yields what the shards put out, in order. -/
theorem ordered_fan_in_fold : ShardList Sample.folded.ledger ⟨1⟩ "fold" [⟨1900⟩, ⟨3436⟩] ∧
    (Sample.folded.completedOutputs [⟨1900⟩, ⟨3436⟩]).flatten = [⟨11⟩, ⟨21⟩] ∧
    Yields Sample.folded.ledger ⟨1⟩ "fold" [⟨31⟩] [⟨11⟩, ⟨21⟩] := by
  have hrole : (Sample.folded.jobs.lookup ⟨1⟩).bind (·.roles.lookup "fold") = some (.completed [⟨31⟩]) := by
    decide +kernel
  have hreduces : (Sample.folded.jobs.lookup ⟨1⟩).map (fun job => (logicalRoleReduction job.definition "fold").isSome) =
      some true := by decide +kernel
  have hshard : Sample.folded.taskRoles.lookup ⟨1900⟩ = some (.shard ⟨1⟩ "fold") := by decide +kernel
  have houtputs : (Sample.folded.completedOutputs [⟨1900⟩, ⟨3436⟩]).flatten = [⟨11⟩, ⟨21⟩] := by decide +kernel
  obtain ⟨job, hj, hcompleted⟩ := Option.bind_eq_some_iff.mp hrole
  have hfan := ordered_fan_in (Env.numbered Sample.clock) 100 100 Sample.foldRun
    Sample.freshTasks_foldRun Sample.freshOutputs_foldRun ⟨1⟩ job "fold" ⟨1900⟩ hj hshard
  rw [← Sample.folded] at hfan
  obtain ⟨tasks, hlist, -, -, hresult⟩ := hfan
  obtain rfl := Sample.folded_shards hlist
  refine ⟨hlist, houtputs, ?_⟩
  rw [hj, Option.map_some, Option.some.injEq] at hreduces
  obtain ⟨-, -, hreduced⟩ := hresult _ hcompleted
  rw [houtputs] at hreduced
  obtain ⟨o, ho, hyields⟩ := (hreduced hreduces).2 (by decide)
  cases ho
  exact hyields

end Plurifold
