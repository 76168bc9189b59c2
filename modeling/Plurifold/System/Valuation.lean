import Plurifold.System.Results

/-!
# Completed jobs have a valuation

In a completed job every role has one value that all its consumers have read (`exists_valuation`): what its outputs contain,
or, inside a fused chain, what its stage gave to the next. Each is made of the values of the dependencies.
-/

namespace Plurifold

open Lib Fabric

variable {F : Type} {s : Fabric F} {contents : ObjectId → Bytes → Prop} {executors : Set Executor} {j : JobId}
  {r : String} {t : TaskId} {definition : JobDefinition F} {names : List String} {value : String → List Bytes}

/-- What makes the outputs of a role is how the definition describes the role. -/
theorem Makes.mem_jobRoles {dependencies : List String} {inputs : List (List Bytes)} {values : List Bytes}
    (h : Makes contents executors definition r dependencies inputs values) : (r, dependencies) ∈ jobRoles definition := by
  cases h with
  | cooperative hjob hrole => subst hjob; exact List.mem_map.mpr ⟨_, hrole, rfl⟩
  | whole hjob hrole => subst hjob; exact List.mem_map.mpr ⟨_, hrole, rfl⟩
  | shards hjob hrole => subst hjob; exact List.mem_map.mpr ⟨_, hrole, rfl⟩

variable [F64 F]

/-- A valuation of all roles gives them what they mean. -/
theorem means_of_valuation (haccepted : definition.Accepted)
    (h : Valuation (Makes contents executors definition) {r | r ∈ (jobRoles definition).map Prod.fst} value)
    (hr : r ∈ (jobRoles definition).map Prod.fst) : Means contents executors definition r (value r) := by
  obtain ⟨role, hrole, rfl⟩ := List.mem_map.mp hr
  exact h.flow (fun _ deps _ _ hmakes _ hd => ⟨deps, hmakes.mem_jobRoles, hd⟩)
    ((haccepted.graph.acyclic role hrole).acc haccepted.nodup) hr

section Completed

variable (htrue : TrueTo contents executors s) (haccounted : Accounted s) (hd : s.ledger.definition j = some definition)

include haccounted hd

/-! ## Outputs -/

section

include htrue

/-- The outputs of completed roles have contents. -/
theorem exists_contents (hacc : Acc (DependsOn (jobRoles definition)) r) : ∃ values, HoldsOf contents s j r values := by
  induction hacc with
  | intro r _ ih =>
    choose! value hvalue using ih
    by_cases hdone : ∃ outputs, s.ledger.role j r = some (.completed outputs) ∧ ¬s.ledger.Interior j r
    · obtain ⟨outputs, hdone, houter⟩ := hdone
      have hcontents : ∃ values, List.Forall₂ contents outputs values := by
        rcases delivered_comesTo htrue haccounted hd hvalue hdone houter with ⟨_, _, -, values, -, hvalues⟩ | ⟨t, _, -, hp⟩
        · exact ⟨values, hvalues⟩
        · obtain ⟨_, o, output, _, _, -, rfl, hcontents, -⟩ := htrue.right (taskStatus_completed.mpr hp)
          exact ⟨[output], .cons hcontents .nil⟩
      obtain ⟨values, hvalues⟩ := hcontents
      refine ⟨values, fun outputs' hdone' _ => ?_⟩
      cases hdone.symm.trans hdone'
      exact hvalues
    · exact ⟨[], fun outputs hrole houter => absurd ⟨outputs, hrole, houter⟩ hdone⟩

theorem exists_holding : ∃ value : String → List Bytes, ∀ r, HoldsOf contents s j r (value r) := by
  have haccepted := haccounted.accepted j _ hd
  have hfor : ∀ r, ∃ values, HoldsOf contents s j r values := fun r => by
    by_cases hr : r ∈ (jobRoles definition).map Prod.fst
    · obtain ⟨role, hrole, rfl⟩ := List.mem_map.mp hr
      exact exists_contents htrue haccounted hd ((haccepted.graph.acyclic role hrole).acc haccepted.nodup)
    · refine ⟨[], fun outputs hdone => absurd ?_ hr⟩
      obtain ⟨definition', hd', hmem⟩ := (haccounted.sound.domain j r).mp (Option.isSome_iff_exists.mpr ⟨_, hdone⟩)
      obtain rfl := Option.some.inj (hd.symm.trans hd')
      exact hmem
  choose value hvalue using hfor
  exact ⟨value, hvalue⟩

end

/-! ## Chains -/

omit hd in
/-- The task of a chain is the only one that works for its roles. -/
theorem chain_only {t' : TaskId} (hb : s.ledger.binding t = some (.fusedChain j names)) (hr : r ∈ names)
    (hworks : s.ledger.Works t' j r) : t' = t := by
  rcases haccounted.sound.unique t' t j r hworks ⟨_, hb, rfl, hr, rfl⟩ with rfl | ⟨-, hb', -⟩
  · rfl
  · cases hb.symm.trans hb'

omit hd in
/-- The last role of a chain has the outputs of its task. -/
theorem progress_of_last {front : List String} {outputs : List ObjectId}
    (hb : s.ledger.binding t = some (.fusedChain j (front ++ [r]))) (hdone : s.ledger.role j r = some (.completed outputs))
    (houter : ¬s.ledger.Interior j r) : s.ledger.progress t = .completed outputs := by
  have only : ∀ {t'}, s.ledger.Works t' j r → t' = t := chain_only haccounted hb List.mem_concat_self
  rcases haccounted.delivered j r outputs hdone with ⟨t', hdelivers⟩ | ⟨t', hb'⟩
  · cases hdelivers with
    | whole hb' =>
      obtain rfl := only ⟨_, hb', rfl, List.mem_singleton_self r, rfl⟩
      cases hb.symm.trans hb'
    | last hb' hp =>
      obtain rfl := only ⟨_, hb', rfl, List.mem_concat_self, rfl⟩
      exact hp
    | inside hb' hr => exact absurd ⟨t', _, hb', hr⟩ houter
  · obtain rfl := only (works_of_shard hb')
    cases hb.symm.trans hb'

/-- What the roles of a chain have come to: the first made its stage of what its dependencies had come to. -/
structure RanChain (contents : ObjectId → Bytes → Prop) (executors : Set Executor) (s : Fabric F) (j : JobId)
    (definition : JobDefinition F) (value : String → List Bytes) (t : TaskId) (names : List String)
    (stages : List (String × Bytes)) : Prop where
  names : stages.map Prod.fst = names
  first : ∀ r b, stages.head? = some (r, b) → ∃ dependencies templates,
    Fed contents s j definition r dependencies templates value ∧
      Makes contents executors definition r dependencies (dependencies.map value) [b]
  makes : stages.IsChain fun before after => Makes contents executors definition after.1 [before.1] [[before.2]] [after.2]
  last : ∀ r b outputs, stages.getLast? = some (r, b) → s.ledger.progress t = .completed outputs →
    List.Forall₂ contents outputs [b]

omit [F64 F] haccounted hd in
/-- Values that are kept outside chains are kept for the dependencies of roles that have been started. -/
theorem Fed.map_eq {value' : String → List Bytes} {dependencies : List String} {templates : List (TaskTemplate F)}
    (hfed : Fed contents s j definition r dependencies templates value)
    (houter : ∀ r, ¬s.ledger.Interior j r → value' r = value r) : dependencies.map value = dependencies.map value' :=
  List.map_congr_left fun d hd => by
    obtain ⟨_, -, hd, -⟩ := hfed.finished d hd
    exact (houter d hd).symm

omit [F64 F] haccounted hd in
/-- With the values of its stages, every role of a chain makes its own of those of its dependencies. -/
theorem RanChain.makes_role {value' : String → List Bytes} {stages : List (String × Bytes)}
    (h : RanChain contents executors s j definition value t names stages)
    (houter : ∀ r, ¬s.ledger.Interior j r → value' r = value r) (hstages : ∀ r b, (r, b) ∈ stages → value' r = [b])
    (hr : r ∈ names) :
    ∃ dependencies, Makes contents executors definition r dependencies (dependencies.map value') (value' r) := by
  rw [← h.names] at hr
  obtain ⟨⟨_, b⟩, hstage, rfl⟩ := List.mem_map.mp hr
  rw [hstages _ b hstage]
  rcases head_or_follows h.makes _ hstage with hhead | ⟨⟨r', b'⟩, hstage', hmakes⟩
  · obtain ⟨dependencies, templates, hfed, hmakes⟩ := h.first _ _ hhead
    exact ⟨dependencies, hfed.map_eq houter ▸ hmakes⟩
  · refine ⟨[r'], ?_⟩
    rw [List.map_singleton, hstages r' b' hstage']
    exact hmakes

include htrue in
theorem exists_ranChain (hvalue : ∀ r, HoldsOf contents s j r (value r))
    (hb : s.ledger.binding t = some (.fusedChain j names)) {done : List ObjectId}
    (hp : s.ledger.progress t = .completed done) :
    ∃ stages, RanChain contents executors s j definition value t names stages := by
  obtain ⟨htwo, -, -⟩ := haccounted.sound.chain t j names hb
  cases names with
  | nil => exact absurd htwo (by simp)
  | cons r rest =>
    obtain ⟨dependencies, templates, hfed⟩ := fed_of_starts haccounted hd (fun d _ => hvalue d) (.inr (.inr ⟨rest, hb⟩))
    obtain ⟨previous, output, stages, hmakes, hstaged, houtput⟩ :=
      staged_of_fusedChain htrue haccounted hd hfed hb (taskStatus_completed.mpr hp)
    refine ⟨stages, hstaged.names, fun r' b hhead => ?_, hstaged.makes, fun r' b outputs hlast hp' => ?_⟩
    · have hfirst := hstaged.first
      have hnames := congrArg List.head? hstaged.names
      rw [List.head?_map, hhead] at hnames
      rw [hhead] at hfirst
      cases hfirst
      cases hnames
      exact ⟨dependencies, templates, hfed, hmakes⟩
    · have hend := hstaged.last
      rw [hlast] at hend
      cases hend
      cases hp.symm.trans hp'
      exact houtput

/-! ## Values -/

variable (hall : ∀ r status, s.ledger.role j r = some status → ∃ outputs, status = .completed outputs)

include hall

omit hd in
/-- The tasks of a completed job are completed, and so are their roles. -/
theorem bound_completed (hbound : s.ledger.Bound t j r) :
    (∃ outputs, s.ledger.role j r = some (.completed outputs)) ∧ ∃ outputs, s.ledger.progress t = .completed outputs := by
  have hok := haccounted.sound.roleOk j r
  cases hrole : s.ledger.role j r with
  | none =>
    rw [hrole] at hok
    exact absurd hbound (IdleOk.unbound hok t)
  | some status =>
    obtain ⟨outputs, rfl⟩ := hall r status hrole
    rw [hrole] at hok
    exact ⟨⟨outputs, rfl⟩, CompletedOk.done hok t hbound⟩

include htrue

omit hd in
/-- The value of a role: that of its stage, if it is in a chain, and that of its outputs, if it is not inside one. -/
theorem exists_value (hvalue : ∀ r, HoldsOf contents s j r (value r))
    {stages : TaskId → List String → List (String × Bytes)}
    (hran : ∀ t names, s.ledger.binding t = some (.fusedChain j names) →
      RanChain contents executors s j definition value t names (stages t names)) (r : String) :
    ∃ values, (¬s.ledger.Interior j r → values = value r) ∧ ∀ t names, s.ledger.binding t = some (.fusedChain j names) →
      ∀ b, (r, b) ∈ stages t names → values = [b] := by
  by_cases hin : s.ledger.Interior j r
  · obtain ⟨t, names, hb, hr⟩ := hin
    have hnames := (hran t names hb).names
    have hmem := List.mem_of_mem_dropLast hr
    rw [← hnames] at hmem
    obtain ⟨⟨_, b⟩, hstage, rfl⟩ := List.mem_map.mp hmem
    refine ⟨[b], fun houter => absurd ⟨t, names, hb, hr⟩ houter, fun t' names' hb' b' hstage' => ?_⟩
    have hr' := List.mem_map_of_mem (f := Prod.fst) hstage'
    rw [(hran t' names' hb').names] at hr'
    -- there is one chain for the role, and one stage of the role in it
    obtain rfl := chain_only haccounted hb (List.mem_of_mem_dropLast hr) ⟨_, hb', rfl, hr', rfl⟩
    obtain ⟨-, rfl⟩ := TaskRoleBinding.fusedChain.inj (Option.some.inj (hb.symm.trans hb'))
    obtain ⟨-, hnodup, -⟩ := haccounted.sound.chain _ _ _ hb
    rw [← hnames] at hnodup
    cases List.inj_on_of_nodup_map hnodup hstage hstage' rfl
    rfl
  · refine ⟨value r, fun _ => rfl, fun t names hb b hstage => ?_⟩
    obtain ⟨before, after, hsplit⟩ := List.append_of_mem hstage
    have hnames := (hran t names hb).names
    rw [hsplit, List.map_append, List.map_cons] at hnames
    cases after with
    | cons next after =>
      refine absurd ⟨t, names, hb, ?_⟩ hin
      rw [← hnames, List.map_cons, List.dropLast_append_cons, List.dropLast_cons_cons]
      exact List.mem_append_right _ (List.mem_cons_self ..)
    | nil =>
      have hlast : s.ledger.binding t = some (.fusedChain j (before.map Prod.fst ++ [r])) := hb.trans (by rw [← hnames]; rfl)
      obtain ⟨⟨outputs, hdone⟩, -⟩ := bound_completed haccounted hall ⟨_, hlast, rfl, List.mem_concat_self⟩
      have hp := progress_of_last haccounted hlast hdone hin
      have hb := (hran t names hb).last r b outputs (by rw [hsplit, List.getLast?_concat]) hp
      exact htrue.all_unique (hvalue r outputs hdone hin) hb

/-- **The roles of a completed job have values**: one each, made of those of its dependencies, and the contents of its
outputs where it is not inside a fused chain. -/
theorem exists_valuation : ∃ value : String → List Bytes,
    Valuation (Makes contents executors definition) {r | r ∈ (jobRoles definition).map Prod.fst} value ∧
      ∀ r, HoldsOf contents s j r (value r) := by
  have haccepted := haccounted.accepted j _ hd
  obtain ⟨before, hbefore⟩ := exists_holding htrue haccounted hd
  have hstages : ∀ t names, s.ledger.binding t = some (.fusedChain j names) →
      ∃ stages, RanChain contents executors s j definition before t names stages := fun t names hb => by
    obtain ⟨htwo, -, -⟩ := haccounted.sound.chain t j names hb
    obtain ⟨r, hr⟩ := List.exists_mem_of_length_pos (Nat.lt_of_lt_of_le Nat.zero_lt_two htwo)
    obtain ⟨-, done, hp⟩ := bound_completed haccounted hall ⟨_, hb, rfl, hr⟩
    exact exists_ranChain htrue haccounted hd hbefore hb hp
  choose! stages hran using hstages
  choose value houter hinner using exists_value htrue haccounted hall hbefore hran
  have hholds : ∀ r, HoldsOf contents s j r (value r) := fun r outputs hdone hr => by
    rw [houter r hr]
    exact hbefore r outputs hdone hr
  have hmade : ∀ r ∈ (jobRoles definition).map Prod.fst, ∃ dependencies,
      Makes contents executors definition r dependencies (dependencies.map value) (value r) := by
    intro r hr
    by_cases hchain : ∃ t names, s.ledger.binding t = some (.fusedChain j names) ∧ r ∈ names
    · obtain ⟨t, names, hb, hr⟩ := hchain
      exact (hran t names hb).makes_role houter (fun r => hinner r t names hb) hr
    · obtain ⟨status, hstatus⟩ := Option.isSome_iff_exists.mp ((haccounted.sound.domain j r).mpr ⟨_, hd, hr⟩)
      obtain ⟨outputs, rfl⟩ := hall r status hstatus
      have hr : ¬s.ledger.Interior j r := by
        rintro ⟨t, names, hb, hin⟩
        exact hchain ⟨t, names, hb, List.mem_of_mem_dropLast hin⟩
      rcases delivered_comesTo htrue haccounted hd (fun d _ => hbefore d) hstatus hr with
        ⟨dependencies, templates, hfed, values, hmakes, hvalues⟩ | ⟨t, front, hb, -⟩
      · obtain rfl := htrue.all_unique hvalues (hholds r outputs hstatus hr)
        exact ⟨dependencies, hfed.map_eq houter ▸ hmakes⟩
      · exact absurd ⟨t, _, hb, List.mem_concat_self⟩ hchain
  refine ⟨value, fun r hr => ?_, hholds⟩
  obtain ⟨dependencies, hmakes⟩ := hmade r hr
  exact ⟨dependencies, haccepted.graph.known _ hmakes.mem_jobRoles, hmakes⟩

end Completed

end Plurifold
