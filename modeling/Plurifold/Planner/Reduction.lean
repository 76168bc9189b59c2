import Plurifold.Planner.Shards
import Plurifold.Lib.List
import Plurifold.Lib.Runs

/-!
# One level of an ordered reduction (`planner.rs`)

The inputs of a level are cut into consecutive groups: runs of pairwise local objects where there are any, chunks of
`max_fan_in` otherwise. A group of one object is carried to the next level, a larger one becomes a reducer task. Some
group is larger (`Grouping.progress`), so a level leaves fewer objects than it gets.
-/

namespace Plurifold

open Lib

variable {F : Type} [F64 F]

structure ReadyReductionSelection (F : Type) where
  inputCount : Nat
  task : TaskSpec F
  resourceId : ResourceId
  startMs : F
  cost : PlacementBreakdown F

inductive ReadyReductionItem (F : Type)
  | carry (object : ObjectId)
  | reduce (selection : ReadyReductionSelection F)

def reductionInputsAreLocal (left right : ObjectId) (localityRttMs : F) (objects : Objects)
    (topology : TopologySnapshot F) : Bool :=
  match objects.lookup left, objects.lookup right with
  | some left, some right =>
    left.locations.any fun leftResource =>
      right.locations.any fun rightResource =>
        decide (leftResource = rightResource) ||
          (match topology.link leftResource rightResource with
            | some link => F64.le link.rttMs localityRttMs
            | none => false)
  | _, _ => false

/-- The scan of `reduction_groups`, with the group that is being filled. -/
def localGroups (isLocal : ObjectId → ObjectId → Bool) (maxFanIn : Nat) :
    List ObjectId → List ObjectId → List (List ObjectId)
  | [], current => if current.isEmpty then [] else [current]
  | input :: rest, current =>
    let extend := !current.isEmpty && decide (current.length < maxFanIn) && current.all fun existing =>
      isLocal existing input
    if !current.isEmpty && !extend then current :: localGroups isLocal maxFanIn rest [input]
    else localGroups isLocal maxFanIn rest (current ++ [input])

/-- `slice::chunks`, with the chunk that is being filled. -/
def chunks {α : Type} (size : Nat) : List α → List α → List (List α)
  | [], current => if current.isEmpty then [] else [current]
  | a :: rest, current =>
    if current.length < size then chunks size rest (current ++ [a]) else current :: chunks size rest [a]

def reductionGroups (inputs : List ObjectId) (maxFanIn : Nat) (localityRttMs : F) (objects : Objects)
    (topology : TopologySnapshot F) : List (List ObjectId) :=
  let groups := localGroups (fun left right => reductionInputsAreLocal left right localityRttMs objects topology)
    maxFanIn inputs []
  if groups.any fun group => decide (1 < group.length) then groups else chunks maxFanIn inputs []

/-- The loop of `select_reduction_level` over the resources, for one group. -/
def bestReduction (task : TaskSpec F) (inputCount : Nat) (dependencyReadyMs : F) (resourceAvailableMs : Availability F)
    (context : ShardPlanningContext F) : Option (ReadyReductionSelection F) :=
  context.resources.foldl (fun best resource =>
    match placementCost context.scheduler task resource context.objects context.topology with
    | none => best
    | some cost =>
      let startMs := startMs dependencyReadyMs resourceAvailableMs resource.id
      let replace := match best with
        | some current => finishesBefore startMs cost.totalMs current.startMs current.cost.totalMs
        | none => true
      if replace then some { inputCount, task, resourceId := resource.id, startMs, cost } else best) none

/-- The loop of `select_reduction_level` over the groups. -/
def reduceGroups (e : Env) (reduction : RoleReductionSpec F) (dependencyReadyMs : F)
    (context : ShardPlanningContext F) :
    Nat → List (List ObjectId) → Availability F → Option (List (ReadyReductionItem F)) × Availability F
  | _, [], available => (some [], available)
  | i, group :: rest, available =>
    match group with
    | [object] =>
      match reduceGroups e reduction dependencyReadyMs context (i + 1) rest available with
      | (some items, available) => (some (.carry object :: items), available)
      | (none, available) => (none, available)
    | _ =>
      let task := reduction.task.instantiate (e.sub i) group
      match bestReduction task group.length dependencyReadyMs available context with
      | none => (none, available)
      | some selected =>
        let available := available.insert selected.resourceId (selected.startMs + selected.cost.totalMs)
        match reduceGroups e reduction dependencyReadyMs context (i + 1) rest available with
        | (some items, available) => (some (.reduce selected :: items), available)
        | (none, available) => (none, available)

def selectReductionLevel (e : Env) (reduction : RoleReductionSpec F) (inputs : List ObjectId) (dependencyReadyMs : F)
    (resourceAvailableMs : Availability F) (context : ShardPlanningContext F) :
    Option (List (ReadyReductionItem F)) × Availability F :=
  if inputs.length ≤ 1 then (some (inputs.map .carry), resourceAvailableMs)
  else if decide (reduction.maxFanIn < 2) || !F64.isFinite reduction.localityRttMs ||
      F64.lt reduction.localityRttMs (F64.ofNat 0) then (none, resourceAvailableMs)
  else
    reduceGroups e reduction dependencyReadyMs context 0
      (reductionGroups inputs reduction.maxFanIn.toNat reduction.localityRttMs context.objects context.topology)
      resourceAvailableMs

/-! ## The groups of a level -/

/-- An input joins the group before it if there is room and it is local to every member. -/
def joinsGroup (isLocal : ObjectId → ObjectId → Bool) (maxFanIn : Nat) (current : List ObjectId) (input : ObjectId) :
    Bool :=
  decide (current.length < maxFanIn) && current.all fun existing => isLocal existing input

theorem localGroups_eq_runs (isLocal : ObjectId → ObjectId → Bool) (maxFanIn : Nat) (inputs current : List ObjectId) :
    localGroups isLocal maxFanIn inputs current = runs (joinsGroup isLocal maxFanIn) inputs current := by
  induction inputs generalizing current with
  | nil => rfl
  | cons input rest ih =>
    rw [localGroups, runs, ih, ih, Bool.and_assoc]
    cases current.isEmpty <;> cases h : joinsGroup isLocal maxFanIn current input <;> unfold joinsGroup at h <;> simp [h]

theorem chunks_eq_runs {α : Type} {size : Nat} (hsize : 0 < size) (l current : List α) :
    chunks size l current = runs (fun run _ => decide (run.length < size)) l current := by
  induction l generalizing current with
  | nil => rfl
  | cons a rest ih =>
    rw [chunks, runs, ih, ih]
    cases current with
    | nil => simp [hsize]
    | cons b current => simp

/-- The inputs of a level cut into groups. -/
structure Grouping (inputs : List ObjectId) (groups : List (List ObjectId)) : Prop where
  flatten : groups.flatten = inputs
  nonempty : ∀ group ∈ groups, group ≠ []
  progress : ∃ group ∈ groups, 2 ≤ group.length

/-- Two inputs that follow each other are local. -/
def LocalNeighbours (isLocal : ObjectId → ObjectId → Bool) (inputs : List ObjectId) : Prop :=
  ∃ before a b after, inputs = before ++ a :: b :: after ∧ isLocal a b = true

/-- The scan finds a group of two exactly when there are local neighbours. -/
theorem localGroups_two {isLocal : ObjectId → ObjectId → Bool} {maxFanIn : Nat} (h2 : 2 ≤ maxFanIn)
    {inputs : List ObjectId} :
    ((localGroups isLocal maxFanIn inputs []).any fun group => decide (1 < group.length)) = true ↔
      LocalNeighbours isLocal inputs := by
  have hjoins : ∀ a b, joinsGroup isLocal maxFanIn [a] b = isLocal a b := by
    intro a b
    have hroom : 1 < maxFanIn := by omega
    simp [joinsGroup, hroom]
  rw [localGroups_eq_runs, List.any_eq_true]
  simp only [decide_eq_true_eq, runs_two, hjoins]
  rfl

/-- The groups are the runs of the scan where there are local neighbours, and consecutive chunks elsewhere. -/
theorem reductionGroups_eq (inputs : List ObjectId) {maxFanIn : Nat} (h2 : 2 ≤ maxFanIn) (localityRttMs : F)
    (objects : Objects) (topology : TopologySnapshot F) :
    let isLocal := fun left right => reductionInputsAreLocal left right localityRttMs objects topology
    (LocalNeighbours isLocal inputs →
      reductionGroups inputs maxFanIn localityRttMs objects topology = runs (joinsGroup isLocal maxFanIn) inputs []) ∧
    (¬LocalNeighbours isLocal inputs →
      reductionGroups inputs maxFanIn localityRttMs objects topology =
        runs (fun run _ => decide (run.length < maxFanIn)) inputs []) := by
  intro isLocal
  constructor
  · intro hlocal
    rw [reductionGroups, if_pos ((localGroups_two h2).mpr hlocal), localGroups_eq_runs]
  · intro hfar
    rw [reductionGroups, if_neg fun hany => hfar ((localGroups_two h2).mp hany), chunks_eq_runs (by omega)]

theorem reductionGroups_spec {inputs : List ObjectId} (h : 2 ≤ inputs.length) {maxFanIn : Nat} (h2 : 2 ≤ maxFanIn)
    (localityRttMs : F) (objects : Objects) (topology : TopologySnapshot F) :
    Grouping inputs (reductionGroups inputs maxFanIn localityRttMs objects topology) := by
  obtain ⟨hnear, hfar⟩ := reductionGroups_eq inputs h2 localityRttMs objects topology
  by_cases hlocal : LocalNeighbours (fun left right => reductionInputsAreLocal left right localityRttMs objects topology)
      inputs
  · rw [hnear hlocal]
    obtain ⟨group, hgroup, htwo⟩ := List.any_eq_true.mp ((localGroups_two h2).mpr hlocal)
    rw [localGroups_eq_runs] at hgroup
    exact ⟨runs_flatten _ _ _, fun group hmem => (runs_grown (.inl rfl) group hmem).ne_nil, group, hgroup,
      of_decide_eq_true htwo⟩
  · rw [hfar hlocal]
    refine ⟨runs_flatten _ _ _, fun group hmem => (runs_grown (.inl rfl) group hmem).ne_nil, ?_⟩
    cases inputs with
    | nil => simp at h
    | cons a rest =>
      rw [runs_chunk_cons (by omega)]
      refine ⟨_, List.mem_cons_self .., ?_⟩
      rw [List.length_take]
      omega

/-- There are fewer groups than inputs. -/
theorem Grouping.length_lt {inputs : List ObjectId} {groups : List (List ObjectId)} (h : Grouping inputs groups) :
    groups.length < inputs.length := by
  obtain ⟨group, hmem, htwo⟩ := h.progress
  have hle : ∀ groups : List (List ObjectId), (∀ group ∈ groups, group ≠ []) → groups.length ≤ groups.flatten.length := by
    intro groups hall
    induction groups with
    | nil => simp
    | cons group groups ih =>
      obtain ⟨hgroup, hall⟩ := List.forall_mem_cons.mp hall
      have hpos := List.length_pos_iff.mpr hgroup
      have := ih hall
      rw [List.flatten_cons, List.length_append, List.length_cons]
      omega
  obtain ⟨before, after, rfl⟩ := List.append_of_mem hmem
  have hbefore := hle before fun group hgroup => h.nonempty group (List.mem_append_left _ hgroup)
  have hafter := hle after fun group hgroup => h.nonempty group (List.mem_append_right _ (List.mem_cons_of_mem _ hgroup))
  rw [← h.flatten]
  simp only [List.length_append, List.length_cons, List.flatten_append, List.flatten_cons]
  omega

/-- Being local does not depend on the order, for a link has no direction. -/
theorem reductionInputsAreLocal_comm (left right : ObjectId) (localityRttMs : F) (objects : Objects)
    (topology : TopologySnapshot F) :
    reductionInputsAreLocal left right localityRttMs objects topology =
      reductionInputsAreLocal right left localityRttMs objects topology := by
  have hlink : ∀ a b, topology.link a b = topology.link b a := by
    intro a b
    unfold TopologySnapshot.link
    congr 1
    funext link
    exact Bool.or_comm ..
  unfold reductionInputsAreLocal
  cases objects.lookup left with
  | none => cases objects.lookup right <;> rfl
  | some left =>
    cases objects.lookup right with
    | none => rfl
    | some right =>
      rw [Bool.eq_iff_iff]
      simp only [List.any_eq_true]
      constructor <;>
      · rintro ⟨a, ha, b, hb, h⟩
        refine ⟨b, hb, a, ha, ?_⟩
        rw [hlink]
        rw [Bool.or_eq_true, decide_eq_true_eq] at h ⊢
        exact h.imp_left Eq.symm

/-- A level keeps the order of its inputs and has fewer groups than inputs, none of them empty or over `max_fan_in`.
Where two neighbours are local, the members of a group are pairwise local and a group ends only when it is full or the
next input is not local to a member; elsewhere the groups are consecutive chunks. -/
theorem reduction_groups_by_locality {inputs : List ObjectId} (h : 2 ≤ inputs.length) {maxFanIn : Nat}
    (h2 : 2 ≤ maxFanIn) (localityRttMs : F) (objects : Objects) (topology : TopologySnapshot F) :
    let isLocal := fun left right => reductionInputsAreLocal left right localityRttMs objects topology
    let groups := reductionGroups inputs maxFanIn localityRttMs objects topology
    groups.flatten = inputs ∧
    (∀ group ∈ groups, 1 ≤ group.length ∧ group.length ≤ maxFanIn) ∧
    groups.length < inputs.length ∧
    (LocalNeighbours isLocal inputs →
      (∀ group ∈ groups, group.Pairwise fun a b => isLocal a b = true ∧ isLocal b a = true) ∧
      groups.IsChain fun group following => ∃ next, following.head? = some next ∧
        (group.length = maxFanIn ∨ ∃ member ∈ group, isLocal member next = false)) ∧
    (¬LocalNeighbours isLocal inputs →
      ∀ i, groups[i]? =
        if i * maxFanIn < inputs.length then some ((inputs.drop (i * maxFanIn)).take maxFanIn) else none) := by
  intro isLocal groups
  have hspec : Grouping inputs groups := reductionGroups_spec h h2 localityRttMs objects topology
  obtain ⟨hnear, hfar⟩ := reductionGroups_eq inputs h2 localityRttMs objects topology
  have hroom : ∀ (run : List ObjectId) x, joinsGroup isLocal maxFanIn run x = true → run.length < maxFanIn := by
    intro run x hjoin
    rw [joinsGroup, Bool.and_eq_true] at hjoin
    exact of_decide_eq_true hjoin.1
  refine ⟨hspec.flatten, fun group hgroup => ⟨List.length_pos_iff.mpr (hspec.nonempty group hgroup), ?_⟩,
    hspec.length_lt, ?_, ?_⟩
  · by_cases hlocal : LocalNeighbours isLocal inputs
    · rw [show groups = _ from hnear hlocal] at hgroup
      exact (runs_grown (.inl rfl) group hgroup).length_le (by omega) hroom
    · rw [show groups = _ from hfar hlocal] at hgroup
      exact (runs_grown (.inl rfl) group hgroup).length_le (by omega) fun run x hjoin => of_decide_eq_true hjoin
  · intro hlocal
    rw [show groups = _ from hnear hlocal]
    constructor
    · intro group hgroup
      refine (runs_grown (.inl rfl) group hgroup).pairwise ?_
      intro run x hjoin y hy
      rw [joinsGroup, Bool.and_eq_true, List.all_eq_true] at hjoin
      refine ⟨hjoin.2 y hy, ?_⟩
      rw [show isLocal x y = isLocal y x from reductionInputsAreLocal_comm ..]
      exact hjoin.2 y hy
    · refine (List.IsChain.imp_of_mem_imp ?_ (runs_closed _ inputs []))
      rintro run following hrun _ ⟨next, hnext, hclosed⟩
      refine ⟨next, hnext, ?_⟩
      have hle := (runs_grown (.inl rfl) run hrun).length_le (by omega) hroom
      rw [joinsGroup, Bool.and_eq_false_iff, decide_eq_false_iff_not, List.all_eq_false] at hclosed
      rcases hclosed with hfull | ⟨member, hmember, hnot⟩
      · exact .inl (by omega)
      · exact .inr ⟨member, hmember, by simpa using hnot⟩
  · intro hnone i
    rw [show groups = _ from hfar hnone]
    exact runs_chunk (by omega) inputs i

/-- Two objects on one resource and one on another. -/
def threePartials : Objects :=
  Map.collect ([(1, 1), (2, 1), (3, 2)].map fun place : Nat × Nat =>
    ((⟨place.1⟩ : ObjectId), ⟨⟨place.1⟩, 8, none, none, [⟨place.2⟩], none⟩))

theorem reduction_groups_by_locality_three :
    reductionGroups (F := ℚ) [⟨1⟩, ⟨2⟩, ⟨3⟩] 2 5 threePartials ⟨[]⟩ = [[⟨1⟩, ⟨2⟩], [⟨3⟩]] ∧
      (reductionGroups (F := ℚ) [⟨1⟩, ⟨2⟩, ⟨3⟩] 2 5 threePartials ⟨[]⟩).flatten = [⟨1⟩, ⟨2⟩, ⟨3⟩] := by
  refine ⟨by decide +kernel, ?_⟩
  exact (reduction_groups_by_locality (F := ℚ) (by decide) (by decide) 5 threePartials ⟨[]⟩).1

/-! ## The items of a level -/

theorem bestReduction_spec {task : TaskSpec F} {inputCount : Nat} {readyMs : F} {available : Availability F}
    {context : ShardPlanningContext F} {selected : ReadyReductionSelection F}
    (h : bestReduction task inputCount readyMs available context = some selected) :
    selected.task = task ∧ selected.inputCount = inputCount ∧
      selected.startMs = startMs readyMs available selected.resourceId := by
  suffices hall : ∀ selected, bestReduction task inputCount readyMs available context = some selected →
      selected.task = task ∧ selected.inputCount = inputCount ∧
        selected.startMs = startMs readyMs available selected.resourceId from hall selected h
  unfold bestReduction
  refine List.foldlRecOn (motive := fun now => ∀ selected : ReadyReductionSelection F, now = some selected →
    selected.task = task ∧ selected.inputCount = inputCount ∧
      selected.startMs = startMs readyMs available selected.resourceId) _ _ (fun _ h => by cases h) ?_
  intro now ih resource _ selected h
  split at h
  · exact ih selected h
  · rcases replaced_or_kept h with rfl | h
    · exact ⟨rfl, rfl, rfl⟩
    · exact ih selected h

/-- The first group is one object that is carried on, or it is reduced and the others are placed around it. -/
theorem reduceGroups_cons {e : Env} {reduction : RoleReductionSpec F} {readyMs : F} {context : ShardPlanningContext F}
    {group : List ObjectId} {groups : List (List ObjectId)} {i : Nat} {available available' : Availability F}
    {items : List (ReadyReductionItem F)}
    (h : reduceGroups e reduction readyMs context i (group :: groups) available = (some items, available')) :
    (∃ object rest, group = [object] ∧
      reduceGroups e reduction readyMs context (i + 1) groups available = (some rest, available') ∧
      items = .carry object :: rest) ∨
    ∃ selected rest, group.length ≠ 1 ∧
      bestReduction (reduction.task.instantiate (e.sub i) group) group.length readyMs available context = some selected ∧
      reduceGroups e reduction readyMs context (i + 1) groups
        (available.insert selected.resourceId (selected.startMs + selected.cost.totalMs)) = (some rest, available') ∧
      items = .reduce selected :: rest := by
  rw [reduceGroups.eq_def] at h
  dsimp only at h
  split at h
  · rename_i object
    split at h
    · rename_i rest available'' hrest
      cases h
      exact .inl ⟨object, rest, rfl, hrest, rfl⟩
    · cases h
  · rename_i hmany
    split at h
    · cases h
    · rename_i selected hselected
      split at h
      · rename_i rest available'' hrest
        cases h
        refine .inr ⟨selected, rest, fun hone => ?_, hselected, hrest, rfl⟩
        obtain ⟨object, rfl⟩ := List.length_eq_one_iff.mp hone
        exact hmany object rfl
      · cases h

/-- A level of at least two inputs works on groups of them. -/
theorem selectReductionLevel_groups {e : Env} {reduction : RoleReductionSpec F} {inputs : List ObjectId}
    (h2 : 2 ≤ inputs.length) {readyMs : F} {available available' : Availability F} {context : ShardPlanningContext F}
    {items : List (ReadyReductionItem F)}
    (h : selectReductionLevel e reduction inputs readyMs available context = (some items, available')) :
    ∃ groups, Grouping inputs groups ∧
      reduceGroups e reduction readyMs context 0 groups available = (some items, available') := by
  unfold selectReductionLevel at h
  rw [if_neg (by omega)] at h
  split at h
  · cases h
  · rename_i hok
    simp only [Bool.or_eq_true, decide_eq_true_eq, not_or, UInt32.not_lt] at hok
    have hfan : 2 ≤ reduction.maxFanIn.toNat := UInt32.le_iff_toNat_le.mp hok.1.1
    exact ⟨_, reductionGroups_spec h2 hfan reduction.localityRttMs context.objects context.topology, h⟩

end Plurifold
