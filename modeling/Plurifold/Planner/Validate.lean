import Plurifold.Planner.Fusion

/-!
# Which jobs are accepted (`planner.rs`)

`validateRoleGraph` checks names, dependencies, outputs and acyclicity of a role graph; `validateLogicalJob` checks it
and then every role; `validateLogicalJobObjects` checks declared record offsets against the published objects. A valid
role graph has distinct roles and no cycle (`GraphValid`), a valid role at least one shard and a reducer that is Pure and
has no inputs of its own (`RoleValid`).
-/

namespace Plurifold

open Lib

variable {F : Type}

variable [F64 F]

inductive PlanError
  | invalidLogicalJob (message : String)
  | noFeasibleImplementation (role : String)
  deriving DecidableEq

def maxAutoShardsLimit : UInt32 := 256

def maxReductionFanIn : UInt32 := 64

/-- `str::trim` leaves nothing. -/
def isBlank (s : String) : Bool := s.toList.all isWhitespace

/-! ## Role graphs -/

/-- The loop that collects the role names. -/
def checkNames : List (String × List String) → List String → Except String (List String)
  | [], names => .ok names
  | (name, _) :: rest, names =>
    if isBlank name then .error "role names cannot be empty"
    else if name ∈ names then .error s!"duplicate role {name}"
    else checkNames rest (names ++ [name])

/-- The loop over the dependencies of one role. -/
def checkDependencies (names : List String) (name : String) : List String → List String → Except String Unit
  | [], _ => .ok ()
  | dependency :: rest, seen =>
    if dependency ∉ names then .error s!"role {name} depends on unknown role {dependency}"
    else if dependency ∈ seen then .error s!"role {name} lists dependency {dependency} more than once"
    else checkDependencies names name rest (seen ++ [dependency])

/-- The loop over the outputs. -/
def checkOutputs (names : List String) : List String → List String → Except String Unit
  | [], _ => .ok ()
  | output :: rest, seen =>
    if output ∉ names then .error s!"unknown output role {output}"
    else if output ∈ seen then .error s!"output role {output} is listed more than once"
    else checkOutputs names rest (seen ++ [output])

/-- One pass of the cycle check: every role whose dependencies are resolved is resolved, also by this pass. -/
def resolvePass (roles : List (String × List String)) (resolved : List String) : List String :=
  roles.foldl (fun resolved (name, dependencies) =>
    if name ∈ resolved then resolved
    else if dependencies.all fun dependency => dependency ∈ resolved then resolved ++ [name]
    else resolved) resolved

/-- Passes until all roles are resolved or a pass resolves nothing. A pass that goes on resolves a role, so there are
at most as many passes as roles. -/
def resolveLoop (roles : List (String × List String)) : Nat → List String → Except String Unit
  | 0, _ => .error "role dependency graph contains a cycle"
  | passes + 1, resolved =>
    let next := resolvePass roles resolved
    if next.length = roles.length then .ok ()
    else if next.length = resolved.length then .error "role dependency graph contains a cycle"
    else resolveLoop roles passes next

def validateRoleGraph (roles : List (String × List String)) (outputs : List String) : Except String Unit := do
  if roles.isEmpty then .error "at least one role is required"
  else if outputs.isEmpty then .error "at least one output role is required"
  else
    let names ← checkNames roles []
    roles.forM fun (name, dependencies) => checkDependencies names name dependencies []
    checkOutputs names outputs []
    resolveLoop roles (roles.length + 1) []

/-! ## Logical jobs -/

/-- A check of one role: the message if it fails. -/
def ensure (ok : Bool) (message : String) : Except PlanError Unit :=
  if ok then .ok () else .error (.invalidLogicalJob message)

def validateShardPolicy (role : LogicalRoleSpec F) : Except PlanError Unit :=
  match role.shards with
  | .fixed count => ensure (count ≠ 0) s!"role {role.name} must request at least one shard"
  | .policy (.auto policy) => do
    ensure (policy.maxShards ≠ 0 && decide (policy.maxShards ≤ maxAutoShardsLimit))
      s!"role {role.name} auto max_shards must be between 1 and 256"
    ensure (F64.isFinite policy.perShardOverheadMs && !F64.lt policy.perShardOverheadMs (F64.ofNat 0))
      s!"role {role.name} auto per_shard_overhead_ms must be finite and non-negative"
    ensure (F64.isFinite policy.minGainRatio && !F64.lt policy.minGainRatio (F64.ofNat 0) &&
        !F64.le (F64.ofNat 1) policy.minGainRatio)
      s!"role {role.name} auto min_gain_ratio must be in [0, 1)"

def validateReduction (role : LogicalRoleSpec F) : Except PlanError Unit :=
  match role.reduction with
  | none => .ok ()
  | some reduction => do
    ensure (role.shards.fixedCount ≠ some 1) s!"role {role.name} cannot reduce an unsharded fixed role"
    ensure (!isBlank reduction.name) s!"role {role.name} reduction name cannot be empty"
    ensure (decide (2 ≤ reduction.maxFanIn) && decide (reduction.maxFanIn ≤ maxReductionFanIn))
      s!"role {role.name} reduction max_fan_in must be between 2 and 64"
    ensure (F64.isFinite reduction.localityRttMs && !F64.lt reduction.localityRttMs (F64.ofNat 0))
      s!"role {role.name} reduction locality_rtt_ms must be finite and non-negative"
    ensure reduction.task.inputs.isEmpty s!"role {role.name} reduction task cannot declare static inputs"
    ensure (reduction.task.effects = .pure) s!"role {role.name} reduction task must be Pure"

def validateAutoPartition (role : LogicalRoleSpec F) : Except PlanError Unit :=
  match role.shards.auto with
  | none => .ok ()
  | some policy => do
    let inputIndex := policy.partition.input
    match policy.partition with
    | .byteRange _ => pure ()
    | .records _ offsets =>
      ensure (decide (2 ≤ offsets.length) && decide (offsets.head? = some 0) &&
          (windows2 offsets).all fun pair => decide (pair.1 < pair.2))
        s!"role {role.name} record offsets must start at 0 and be strictly increasing"
    match (role.implementations.head?.bind fun implementation => implementation.task.inputs[inputIndex]?) with
    | none => .error (.invalidLogicalJob
        s!"role {role.name} auto partition input {inputIndex} is not an explicit TaskTemplate input")
    | some expectedInput =>
      ensure (role.implementations.all fun implementation =>
          implementation.task.inputs[inputIndex]? = some expectedInput)
        s!"role {role.name} auto partition input {inputIndex} must reference the same Object across implementations"

/-- The loop over the implementation names. -/
def checkImplementationNames (role : String) : List (RoleImplementation F) → List String → Except PlanError Unit
  | [], _ => .ok ()
  | implementation :: rest, seen =>
    if isBlank implementation.name then .error (.invalidLogicalJob s!"role {role} has an implementation with an empty name")
    else if implementation.name ∈ seen then
      .error (.invalidLogicalJob s!"role {role} has duplicate implementation {implementation.name}")
    else checkImplementationNames role rest (seen ++ [implementation.name])

def validateLogicalRole (role : LogicalRoleSpec F) : Except PlanError Unit := do
  validateShardPolicy role
  validateReduction role
  ensure (!role.implementations.isEmpty) s!"role {role.name} has no implementations"
  validateAutoPartition role
  checkImplementationNames role.name role.implementations []

def validateLogicalJob (spec : LogicalJobSpec F) : Except PlanError Unit := do
  match validateRoleGraph (spec.roles.map fun role => (role.name, role.dependsOn)) spec.outputs with
  | .error message => .error (.invalidLogicalJob message)
  | .ok () => spec.roles.forM validateLogicalRole

/-- The record offsets of one role fit the published object. -/
def validateRoleObjects (objects : Objects) (role : LogicalRoleSpec F) : Except PlanError Unit :=
  match role.shards.auto with
  | none => .ok ()
  | some policy =>
    match policy.partition with
    | .byteRange _ => .ok ()
    | .records input offsets =>
      match (role.implementations.head?.bind fun implementation => implementation.task.inputs[input]?) with
      | none => .error (.invalidLogicalJob s!"role {role.name} record partition input {input} is missing")
      | some objectId =>
        match objects.lookup objectId with
        | none => .error (.invalidLogicalJob
            s!"role {role.name} record partition requires published object {objectId}")
        | some object => ensure (validRecordOffsets offsets object.sizeBytes)
            s!"role {role.name} record offsets must end at object size {object.sizeBytes}"

def validateLogicalJobObjects (spec : LogicalJobSpec F) (objects : Objects) : Except PlanError Unit :=
  spec.roles.forM (validateRoleObjects objects)

/-! ## What validation guarantees -/

theorem nodup_snoc {α : Type} {l : List α} (hl : l.Nodup) {a : α} (ha : a ∉ l) : (l ++ [a]).Nodup := by
  rw [List.nodup_append_comm]
  exact List.nodup_cons.mpr ⟨ha, hl⟩

theorem checkNames_ok : ∀ {roles : List (String × List String)} {seen names : List String},
    checkNames roles seen = .ok names → seen.Nodup → names = seen ++ roles.map Prod.fst ∧ names.Nodup
  | [], seen, names, h, hseen => by
    cases h
    exact ⟨by simp, hseen⟩
  | (name, dependencies) :: rest, seen, names, h, hseen => by
    rw [checkNames] at h
    split at h
    · cases h
    split at h
    · cases h
    rename_i hnew
    obtain ⟨hnames, hnodup⟩ := checkNames_ok h (nodup_snoc hseen hnew)
    exact ⟨by simpa using hnames, hnodup⟩

theorem checkNames_ok_iff {roles : List (String × List String)} {seen : List String} (hseen : seen.Nodup) :
    (∃ names, checkNames roles seen = .ok names) ↔
      (∀ name ∈ roles.map Prod.fst, isBlank name = false) ∧ (seen ++ roles.map Prod.fst).Nodup := by
  induction roles generalizing seen with
  | nil => simp [checkNames, hseen]
  | cons role rest ih =>
    obtain ⟨name, dependencies⟩ := role
    rw [checkNames]
    cases hblank : isBlank name with
    | true => simp [hblank]
    | false =>
      by_cases hmem : name ∈ seen
      · simp only [Bool.false_eq_true, if_false, if_pos hmem, List.map_cons]
        refine iff_of_false (by simp) fun h => ?_
        exact List.disjoint_of_nodup_append h.2 hmem (List.mem_cons_self ..)
      · have hnext := nodup_snoc hseen hmem
        simp only [Bool.false_eq_true, if_false, if_neg hmem, ih hnext, List.map_cons, List.forall_mem_cons, hblank,
          true_and, List.append_assoc, List.singleton_append]

theorem ensure_ok {ok : Bool} {message : String} (h : ensure ok message = .ok ()) : ok = true := by
  unfold ensure at h
  split at h
  · assumption
  · cases h

/-- The first of two checks in a row passed, and the second did. -/
theorem bind_ok_unit {ε : Type} {a b : Except ε Unit} (h : (a >>= fun _ => b) = .ok ()) : a = .ok () ∧ b = .ok () := by
  cases a with
  | error e => cases h
  | ok u => exact ⟨rfl, h⟩

/-- The loops over dependencies and over outputs: every name is a known one and stands once. -/
def checkListed (unknown twice : String → String) (names : List String) :
    List String → List String → Except String Unit
  | [], _ => .ok ()
  | listed :: rest, seen =>
    if listed ∉ names then .error (unknown listed)
    else if listed ∈ seen then .error (twice listed)
    else checkListed unknown twice names rest (seen ++ [listed])

theorem checkDependencies_eq (names : List String) (name : String) (dependencies seen : List String) :
    checkDependencies names name dependencies seen =
      checkListed (fun dependency => s!"role {name} depends on unknown role {dependency}")
        (fun dependency => s!"role {name} lists dependency {dependency} more than once") names dependencies seen := by
  induction dependencies generalizing seen with
  | nil => rfl
  | cons dependency rest ih => rw [checkDependencies, checkListed, ih]

theorem checkOutputs_eq (names outputs seen : List String) :
    checkOutputs names outputs seen =
      checkListed (fun output => s!"unknown output role {output}")
        (fun output => s!"output role {output} is listed more than once") names outputs seen := by
  induction outputs generalizing seen with
  | nil => rfl
  | cons output rest ih => rw [checkOutputs, checkListed, ih]

theorem checkListed_ok_iff {unknown twice : String → String} {names l seen : List String} (hseen : seen.Nodup) :
    checkListed unknown twice names l seen = .ok () ↔ (∀ listed ∈ l, listed ∈ names) ∧ (seen ++ l).Nodup := by
  induction l generalizing seen with
  | nil => simp [checkListed, hseen]
  | cons listed rest ih =>
    rw [checkListed]
    by_cases hknown : listed ∈ names
    · rw [if_neg (not_not.mpr hknown)]
      by_cases hmem : listed ∈ seen
      · rw [if_pos hmem]
        refine iff_of_false (fun h => by cases h) fun h => ?_
        exact List.disjoint_of_nodup_append h.2 hmem (List.mem_cons_self ..)
      · rw [if_neg hmem, ih (nodup_snoc hseen hmem), List.append_assoc, List.singleton_append, List.forall_mem_cons]
        simp only [hknown, true_and]
    · rw [if_pos hknown]
      exact iff_of_false (fun h => by cases h) fun h => hknown (h.1 _ (List.mem_cons_self ..))

/-- Names, dependencies and outputs are in order. -/
structure Listed (roles : List (String × List String)) (outputs : List String) : Prop where
  roles_ne : roles ≠ []
  outputs_ne : outputs ≠ []
  names : ∀ name ∈ roles.map Prod.fst, isBlank name = false
  names_nodup : (roles.map Prod.fst).Nodup
  depends : ∀ role ∈ roles, (∀ d ∈ role.2, d ∈ roles.map Prod.fst) ∧ role.2.Nodup
  outputs : (∀ output ∈ outputs, output ∈ roles.map Prod.fst) ∧ outputs.Nodup

/-- The checks before the cycle check pass exactly when names, dependencies and outputs are in order. -/
theorem validateRoleGraph_ok_iff {roles : List (String × List String)} {outputs : List String} :
    validateRoleGraph roles outputs = .ok () ↔
      Listed roles outputs ∧ resolveLoop roles (roles.length + 1) [] = .ok () := by
  constructor
  · intro h
    obtain ⟨hroles, houtputs, names, hnames, h⟩ : roles ≠ [] ∧ outputs ≠ [] ∧ ∃ names, checkNames roles [] = .ok names ∧
        (roles.forM (fun (name, dependencies) => checkDependencies names name dependencies []) >>= fun _ =>
          checkOutputs names outputs [] >>= fun _ => resolveLoop roles (roles.length + 1) []) = .ok () := by
      unfold validateRoleGraph at h
      split at h
      · cases h
      rename_i hroles
      split at h
      · cases h
      rename_i houtputs
      rw [List.isEmpty_iff] at hroles houtputs
      cases hnames : checkNames roles [] with
      | error message => rw [hnames] at h; cases h
      | ok names => rw [hnames] at h; exact ⟨hroles, houtputs, names, rfl, h⟩
    obtain ⟨hblank, hnodup⟩ := (checkNames_ok_iff List.nodup_nil).mp ⟨names, hnames⟩
    obtain ⟨rfl, -⟩ := checkNames_ok hnames List.nodup_nil
    obtain ⟨hdepends, h⟩ := bind_ok_unit h
    obtain ⟨hlisted, hloop⟩ := bind_ok_unit h
    rw [checkOutputs_eq, checkListed_ok_iff List.nodup_nil] at hlisted
    refine ⟨⟨hroles, houtputs, hblank, hnodup, ?_, hlisted⟩, hloop⟩
    rintro ⟨name, dependencies⟩ hrole
    replace hrole := forM_ok_iff.mp hdepends _ hrole
    dsimp only at hrole
    rwa [checkDependencies_eq, checkListed_ok_iff List.nodup_nil] at hrole
  · rintro ⟨hlisted, hloop⟩
    obtain ⟨names, hnames⟩ := (checkNames_ok_iff List.nodup_nil).mpr ⟨hlisted.names, hlisted.names_nodup⟩
    obtain ⟨rfl, -⟩ := checkNames_ok hnames List.nodup_nil
    rw [List.nil_append] at hnames
    have hdepends : (roles.forM fun (name, dependencies) =>
        checkDependencies (roles.map Prod.fst) name dependencies []) = .ok () := by
      rw [forM_ok_iff]
      rintro ⟨name, dependencies⟩ hrole
      dsimp only
      rw [checkDependencies_eq, checkListed_ok_iff List.nodup_nil]
      exact hlisted.depends _ hrole
    have houtputs : checkOutputs (roles.map Prod.fst) outputs [] = .ok () := by
      rw [checkOutputs_eq, checkListed_ok_iff List.nodup_nil]
      exact hlisted.outputs
    rw [validateRoleGraph, if_neg (by simpa using hlisted.roles_ne), if_neg (by simpa using hlisted.outputs_ne), hnames]
    change (roles.forM _ >>= fun _ => checkOutputs _ outputs [] >>= fun _ => _) = _
    rw [hdepends]
    change (checkOutputs _ outputs [] >>= fun _ => _) = _
    rw [houtputs]
    exact hloop

/-- A role all of whose dependencies are resolvable: the roles of a graph without cycles. -/
inductive Resolvable (roles : List (String × List String)) : String → Prop
  | intro {name : String} {dependencies : List String} : (name, dependencies) ∈ roles →
      (∀ d ∈ dependencies, Resolvable roles d) → Resolvable roles name

/-- What the cycle check has resolved so far. -/
structure ResolvedSoFar (roles : List (String × List String)) (resolved : List String) : Prop where
  nodup : resolved.Nodup
  sound : ∀ name ∈ resolved, Resolvable roles name

theorem Resolvable.mem {roles : List (String × List String)} {name : String} (h : Resolvable roles name) :
    name ∈ roles.map Prod.fst := by
  cases h with
  | intro hmem _ => exact List.mem_map.mpr ⟨_, hmem, rfl⟩

theorem resolvePass_keeps {roles : List (String × List String)} {resolved : List String}
    (h : ResolvedSoFar roles resolved) : ResolvedSoFar roles (resolvePass roles resolved) := by
  unfold resolvePass
  refine List.foldlRecOn (motive := ResolvedSoFar roles) roles _ h ?_
  rintro resolved h ⟨name, dependencies⟩ hmem
  dsimp only
  split
  · exact h
  rename_i hnew
  split
  · rename_i hall
    have hname : Resolvable roles name := .intro hmem fun d hd => by
      exact h.sound d (of_decide_eq_true (List.all_eq_true.mp hall d hd))
    refine ⟨nodup_snoc h.nodup hnew, fun other hother => ?_⟩
    rcases List.mem_append.mp hother with hother | hother
    · exact h.sound other hother
    · rw [List.mem_singleton.mp hother]
      exact hname
  · exact h

/-- As many resolved roles as there are roles are all of them. -/
theorem ResolvedSoFar.all {roles : List (String × List String)} {resolved : List String}
    (h : ResolvedSoFar roles resolved) (hlength : resolved.length = roles.length) :
    ∀ role ∈ roles, Resolvable roles role.1 := by
  intro role hrole
  have hsub : resolved.Subperm (roles.map Prod.fst) := h.nodup.subperm fun name hname => (h.sound name hname).mem
  have hperm := hsub.perm_of_length_le (by rw [List.length_map, hlength])
  exact h.sound role.1 (hperm.mem_iff.mpr (List.mem_map.mpr ⟨role, hrole, rfl⟩))

theorem resolveLoop_ok {roles : List (String × List String)} : ∀ {passes : Nat} {resolved : List String},
    ResolvedSoFar roles resolved → resolveLoop roles passes resolved = .ok () →
    ∀ role ∈ roles, Resolvable roles role.1
  | 0, _, _, hloop => by cases hloop
  | passes + 1, resolved, h, hloop => by
    have hnext := resolvePass_keeps h
    rw [resolveLoop] at hloop
    split at hloop
    · rename_i hlength
      exact hnext.all hlength
    split at hloop
    · cases hloop
    · exact resolveLoop_ok hnext hloop

theorem resolvePass_length (roles : List (String × List String)) (resolved : List String) :
    resolved.length ≤ (resolvePass roles resolved).length := by
  unfold resolvePass
  refine List.foldlRecOn (motive := fun now : List String => resolved.length ≤ now.length) roles _ (le_refl _) ?_
  rintro now h ⟨name, dependencies⟩ _
  dsimp only
  split
  · exact h
  split
  · rw [List.length_append]
    omega
  · exact h

theorem ResolvedSoFar.length_le {roles : List (String × List String)} {resolved : List String}
    (h : ResolvedSoFar roles resolved) : resolved.length ≤ roles.length := by
  have hle := (h.nodup.subperm fun name hname => (h.sound name hname).mem).length_le
  rwa [List.length_map] at hle

/-- The cycle check ends: more passes than there are roles left to resolve make no difference. -/
theorem resolveLoop_passes {roles : List (String × List String)} : ∀ {passes passes' : Nat} {resolved : List String},
    ResolvedSoFar roles resolved → roles.length < resolved.length + passes → roles.length < resolved.length + passes' →
    resolveLoop roles passes resolved = resolveLoop roles passes' resolved
  | 0, _, _, h, hpasses, _ => absurd h.length_le (by omega)
  | _ + 1, 0, _, h, _, hpasses => absurd h.length_le (by omega)
  | passes + 1, passes' + 1, resolved, h, hpasses, hpasses' => by
    have hgrows := resolvePass_length roles resolved
    rw [resolveLoop, resolveLoop]
    split
    · rfl
    split
    · rfl
    · exact resolveLoop_passes (resolvePass_keeps h) (by omega) (by omega)

/-- What validation checks of a role graph. -/
structure GraphValid (roles : List (String × List String)) (outputs : List String) : Prop where
  names : (roles.map Prod.fst).Nodup
  known : ∀ role ∈ roles, ∀ d ∈ role.2, d ∈ roles.map Prod.fst
  outputs : ∀ output ∈ outputs, output ∈ roles.map Prod.fst
  acyclic : ∀ role ∈ roles, Resolvable roles role.1

theorem validateRoleGraph_ok {roles : List (String × List String)} {outputs : List String}
    (h : validateRoleGraph roles outputs = .ok ()) : GraphValid roles outputs := by
  obtain ⟨hlisted, hloop⟩ := validateRoleGraph_ok_iff.mp h
  refine ⟨hlisted.names_nodup, fun role hrole => (hlisted.depends role hrole).1, hlisted.outputs.1,
    resolveLoop_ok ⟨List.nodup_nil, ?_⟩ hloop⟩
  exact fun name hname => (List.not_mem_nil hname).elim

theorem validateRoleGraph_outputs {roles : List (String × List String)} {outputs : List String}
    (h : validateRoleGraph roles outputs = .ok ()) : outputs ≠ [] :=
  (validateRoleGraph_ok_iff.mp h).1.outputs_ne

/-- What validation checks of a reduction. -/
structure ReductionValid (reduction : RoleReductionSpec F) : Prop where
  inputs : reduction.task.inputs = []
  effects : reduction.task.effects = .pure

/-- What validation checks of a role. -/
structure RoleValid (role : LogicalRoleSpec F) : Prop where
  shards : role.shards.fixedCount ≠ some 0
  reduction : ∀ reduction, role.reduction = some reduction → ReductionValid reduction ∧ role.shards.fixedCount ≠ some 1

theorem validateShardPolicy_ok {role : LogicalRoleSpec F} (h : validateShardPolicy role = .ok ()) :
    role.shards.fixedCount ≠ some 0 := by
  unfold validateShardPolicy at h
  split at h
  · rename_i count hcount
    rw [hcount]
    intro h0
    have := ensure_ok h
    simp [ShardPolicy.fixedCount] at h0 this
    exact this h0
  · rename_i policy hpolicy
    rw [hpolicy]
    nofun

theorem validateReduction_ok {role : LogicalRoleSpec F} (h : validateReduction role = .ok ())
    {reduction : RoleReductionSpec F} (hr : role.reduction = some reduction) :
    ReductionValid reduction ∧ role.shards.fixedCount ≠ some 1 := by
  unfold validateReduction at h
  rw [hr] at h
  obtain ⟨hcount, h⟩ := bind_ok_unit h
  obtain ⟨-, h⟩ := bind_ok_unit h
  obtain ⟨-, h⟩ := bind_ok_unit h
  obtain ⟨-, h⟩ := bind_ok_unit h
  obtain ⟨hinputs, heffects⟩ := bind_ok_unit h
  exact ⟨⟨List.isEmpty_iff.mp (ensure_ok hinputs), of_decide_eq_true (ensure_ok heffects)⟩,
    of_decide_eq_true (ensure_ok hcount)⟩

theorem validateLogicalRole_ok {role : LogicalRoleSpec F} (h : validateLogicalRole role = .ok ()) : RoleValid role := by
  obtain ⟨hshards, h⟩ := bind_ok_unit h
  obtain ⟨hreduction, -⟩ := bind_ok_unit h
  exact ⟨validateShardPolicy_ok hshards, fun _ hr => validateReduction_ok hreduction hr⟩

/-- The implementations of a role with an automatic policy read the partitioned input from one object. -/
theorem partitionInput_of_valid {role : LogicalRoleSpec F} (h : validateLogicalRole role = .ok ())
    {policy : AutoShardPolicy F} (hauto : role.shards.auto = some policy) :
    ∃ o, role.implementations.head?.bind (·.task.inputs[policy.partition.input]?) = some o ∧
      ∀ implementation ∈ role.implementations, implementation.task.inputs[policy.partition.input]? = some o := by
  obtain ⟨-, h⟩ := bind_ok_unit h
  obtain ⟨-, h⟩ := bind_ok_unit h
  obtain ⟨-, h⟩ := bind_ok_unit h
  obtain ⟨h, -⟩ := bind_ok_unit h
  simp only [validateAutoPartition, hauto] at h
  cases ho : role.implementations.head?.bind (·.task.inputs[policy.partition.input]?) with
  | none =>
    rw [ho] at h
    split at h
    · cases h
    · obtain ⟨-, h⟩ := bind_ok_unit h
      cases h
  | some o =>
    rw [ho] at h
    have hsame : (role.implementations.all fun implementation =>
        implementation.task.inputs[policy.partition.input]? = some o) = true := by
      split at h
      · exact ensure_ok h
      · exact ensure_ok (bind_ok_unit h).2
    exact ⟨o, rfl, fun implementation hmem => of_decide_eq_true (List.all_eq_true.mp hsame implementation hmem)⟩

theorem maxShards_of_valid {role : LogicalRoleSpec F} (h : validateLogicalRole role = .ok ()) {policy : AutoShardPolicy F}
    (hauto : role.shards.auto = some policy) : 0 < policy.maxShards.toNat := by
  obtain ⟨h, -⟩ := bind_ok_unit h
  unfold validateShardPolicy at h
  split at h
  · rename_i count hcount
    rw [hcount] at hauto
    cases hauto
  · rename_i policy' hpolicy
    rw [hpolicy] at hauto
    cases hauto
    have hcheck := ensure_ok (bind_ok_unit h).1
    simp only [Bool.and_eq_true, decide_eq_true_eq] at hcheck
    exact Nat.pos_iff_ne_zero.mpr fun h0 => hcheck.1 (UInt32.toNat_inj.mp h0)

theorem validateLogicalJob_role {spec : LogicalJobSpec F} (h : validateLogicalJob spec = .ok ()) {role : LogicalRoleSpec F}
    (hrole : role ∈ spec.roles) : validateLogicalRole role = .ok () := by
  unfold validateLogicalJob at h
  split at h
  · cases h
  · exact forM_ok_iff.mp h role hrole

theorem validateLogicalJob_graph {spec : LogicalJobSpec F} (h : validateLogicalJob spec = .ok ()) :
    GraphValid (spec.roles.map fun role => (role.name, role.dependsOn)) spec.outputs := by
  unfold validateLogicalJob at h
  split at h
  · cases h
  · exact validateRoleGraph_ok ‹_›

theorem validateLogicalJob_outputs {spec : LogicalJobSpec F} (h : validateLogicalJob spec = .ok ()) :
    spec.outputs ≠ [] := by
  unfold validateLogicalJob at h
  split at h
  · cases h
  · exact validateRoleGraph_outputs ‹_›

theorem validateLogicalJob_ok {spec : LogicalJobSpec F} (h : validateLogicalJob spec = .ok ()) :
    (spec.roles.map (·.name)).Nodup ∧ ∀ role ∈ spec.roles, RoleValid role := by
  refine ⟨by simpa [Function.comp_def] using (validateLogicalJob_graph h).names, fun role hrole => ?_⟩
  exact validateLogicalRole_ok (validateLogicalJob_role h hrole)

omit [F64 F] in
theorem eq_of_name {spec : LogicalJobSpec F} (hnodup : (spec.roles.map (·.name)).Nodup) {a b : LogicalRoleSpec F}
    (ha : a ∈ spec.roles) (hb : b ∈ spec.roles) (h : a.name = b.name) : a = b :=
  List.inj_on_of_nodup_map hnodup ha hb h

end Plurifold
