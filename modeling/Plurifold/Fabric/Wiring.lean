import Plurifold.Fabric.Consistent
import Plurifold.Fabric.Stable

/-!
# Dependency wiring

Every task that starts a role reads the inputs of its template followed by the outputs of the role's dependencies, in
the order in which these are declared (`Wired`). This is fixed when the task is made, and stays true because completed
roles keep their outputs. The interior roles of a fused chain are completed without outputs; nothing reads them: their
only consumer is in the same chain (`Sound.dependency_not_interior`), and the job does not return them
(`Sound.output_not_interior`).
-/

namespace Plurifold

open Lib Fabric

variable {F : Type} {strict : Prop} {L L' : Ledger F} {j : JobId} {r : String} {t : TaskId}

/-! ## Reading dependencies -/

/-- The outputs of all dependencies, in order. -/
theorem gather_eq {statuses : String → Option CooperativeRoleStatus} : ∀ {dependencies : List String}
    {outputs : List ObjectId}, gather statuses dependencies = some outputs →
    outputs = dependencies.flatMap fun d => recorded (statuses d)
  | [], _, h => by
    cases h
    rfl
  | dependency :: rest, outputs, h => by
    rw [gather] at h
    split at h
    · rename_i own hown
      obtain ⟨others, hothers, rfl⟩ := Option.map_eq_some_iff.mp h
      rw [List.flatMap_cons, ← gather_eq hothers, hown]
      rfl
    · cases h

/-- The task does the work of the role from its start: all of it, a shard, or a chain that begins with the role. -/
def Ledger.Starts (L : Ledger F) (t : TaskId) (j : JobId) (r : String) : Prop :=
  L.binding t = some (.single j r) ∨ L.binding t = some (.shard j r) ∨
    ∃ rest, L.binding t = some (.fusedChain j (r :: rest))

/-- The task was made from a template of the role and reads the outputs of the role's dependencies. -/
structure Reads (L : Ledger F) (t : TaskId) (j : JobId) (r : String) : Prop where
  intro ::
  reads : ∃ definition dependencies templates template inputs spec, L.definition j = some definition ∧
    RoleOf definition r dependencies templates ∧ gather (L.role j) dependencies = some inputs ∧
    L.spec t = some spec ∧ template ∈ templates ∧ RunsFirst spec template inputs

def Wired (L : Ledger F) : Prop := ∀ t j r, L.Starts t j r → Reads L t j r

theorem Reads.mono (h : Reads L t j r) (hkeeps : Keeps L L') : Reads L' t j r := by
  obtain ⟨definition, dependencies, templates, template, inputs, spec, hd, hrole, hgather, hspec, htemplate, hfirst⟩ :=
    h.reads
  refine ⟨definition, dependencies, templates, template, inputs, spec, hkeeps.definition j _ hd, hrole, ?_,
    hkeeps.spec t spec hspec, htemplate, hfirst⟩
  exact gather_of_stable (fun d _ outputs hdone => hkeeps.role j d _ rfl hdone) hgather

/-- New tasks read what they were launched with. -/
theorem Launch.reads_of_mem {definition : JobDefinition F} {first : String} {rest : List String}
    {specs : List (TaskSpec F)} (hl : Launch L j definition first rest specs) {spec : TaskSpec F} (hmem : spec ∈ specs)
    (hkeeps : Keeps L L') (hspec : L'.spec spec.id = some spec) : Reads L' spec.id j first := by
  obtain ⟨dependencies, templates, inputs, hrole, hgather, hfirst⟩ := hl.reads
  obtain ⟨template, htemplate, hruns⟩ := hfirst spec hmem
  refine ⟨definition, dependencies, templates, template, inputs, spec, hkeeps.definition j _ hl.job, hrole, ?_, hspec,
    htemplate, hruns⟩
  exact gather_of_stable (fun d _ outputs hdone => hkeeps.role j d _ rfl hdone) hgather

/-! ## Steps -/

/-- A step that binds no task keeps the wiring. -/
theorem Wired.of_binding (h : Wired L) (hkeeps : Keeps L L') (hbinding : L'.binding = L.binding) : Wired L' := by
  intro t j r hstarts
  rw [Ledger.Starts, hbinding] at hstarts
  exact (h t j r hstarts).mono hkeeps

/-- A step that binds new tasks keeps the wiring if these are wired. -/
theorem Wired.of_addAll (h : Wired L) (hkeeps : Keeps L L') {specs : List (TaskSpec F)} {b : TaskRoleBinding}
    (hbinding : L'.binding = (L.addAll specs b).binding)
    (hnew : ∀ spec ∈ specs, ∀ j r, L'.Starts spec.id j r → Reads L' spec.id j r) : Wired L' := by
  intro t j r hstarts
  by_cases hmem : t ∈ specs.map (·.id)
  · obtain ⟨spec, hspec, rfl⟩ := List.mem_map.mp hmem
    exact hnew spec hspec j r hstarts
  · have hsame : L'.binding t = L.binding t := by rw [hbinding, Ledger.addAll_binding, if_neg hmem]
    rw [Ledger.Starts, hsame] at hstarts
    exact (h t j r hstarts).mono hkeeps

/-- The binding of a new task. -/
theorem starts_addAll {specs : List (TaskSpec F)} {b : TaskRoleBinding} {spec : TaskSpec F} (hmem : spec ∈ specs)
    (hbinding : L'.binding = (L.addAll specs b).binding) (h : L'.Starts spec.id j r) :
    b = .single j r ∨ b = .shard j r ∨ ∃ rest, b = .fusedChain j (r :: rest) := by
  have hb : L'.binding spec.id = some b := by
    rw [hbinding, Ledger.addAll_binding, if_pos (List.mem_map.mpr ⟨spec, hmem, rfl⟩)]
  rw [Ledger.Starts, hb] at h
  simpa only [Option.some.injEq] using h

/-- **Every step keeps the wiring.** -/
theorem Step.wired [F64 F] (hstep : Step strict L L') (hsound : Sound strict L) (h : Wired L) : Wired L' := by
  have hkeeps := hstep.keeps hsound
  cases hstep with
  | @single j definition r spec planned hl _ =>
    refine h.of_addAll hkeeps rfl fun spec' hmem j' r' hstarts => ?_
    have hspec := addAll_spec_of_mem (L := L) (b := .single j r) hl.nodup hmem
    rcases starts_addAll hmem rfl hstarts with hb | hb | ⟨rest, hb⟩
    · cases hb
      exact hl.reads_of_mem hmem hkeeps hspec
    · cases hb
    · cases hb
  | @fused j definition first rest spec planned hl _ _ _ _ _ =>
    refine h.of_addAll hkeeps rfl fun spec' hmem j' r' hstarts => ?_
    have hspec := addAll_spec_of_mem (L := L) (b := .fusedChain j (first :: rest)) hl.nodup hmem
    rcases starts_addAll hmem rfl hstarts with hb | hb | ⟨rest, hb⟩
    · cases hb
    · cases hb
    · cases hb
      exact hl.reads_of_mem hmem hkeeps hspec
  | @sharded j definition r specs planned hl _ _ _ =>
    refine h.of_addAll hkeeps rfl fun spec' hmem j' r' hstarts => ?_
    have hspec := addAll_spec_of_mem (L := L) (b := .shard j r) hl.nodup hmem
    rcases starts_addAll hmem rfl hstarts with hb | hb | ⟨rest, hb⟩
    · cases hb
    · cases hb
      exact hl.reads_of_mem hmem hkeeps hspec
    · cases hb
  | level =>
    -- reducers start no role
    refine h.of_addAll hkeeps rfl fun spec' hmem j' r' hstarts => ?_
    rcases starts_addAll hmem rfl hstarts with hb | hb | ⟨rest, hb⟩ <;> cases hb
  | shardWaits _ _ _ hL' _ => subst hL'; exact h.of_binding hkeeps rfl
  | shardsComplete _ _ _ hL' _ _ _ => subst hL'; exact h.of_binding hkeeps rfl
  | shardsReduce _ _ _ hL' _ _ _ _ => subst hL'; exact h.of_binding hkeeps rfl
  | reducerWaits _ _ _ hL' _ => subst hL'; exact h.of_binding hkeeps rfl
  | levelComplete _ _ _ hL' _ => subst hL'; exact h.of_binding hkeeps rfl
  | _ => exact h.of_binding hkeeps rfl

theorem Steps.wired [F64 F] (hsteps : Steps strict L L') (hsound : Sound strict L) (h : Wired L) : Wired L' := by
  induction hsteps with
  | refl => exact h
  | tail hsteps hstep ih => exact hstep.wired (Steps.sound hsteps hsound) ih

theorem wired_empty : Wired (Ledger.empty : Ledger F) := by
  rintro t j r (h | h | ⟨rest, h⟩) <;> exact absurd h empty_binding

/-! ## Interior roles -/

/-- The role is inside a fused chain, before its last role. -/
def Ledger.Interior (L : Ledger F) (j : JobId) (r : String) : Prop :=
  ∃ t names, L.binding t = some (.fusedChain j names) ∧ r ∈ names.dropLast

/-- An interior role of a chain has a successor in it. -/
theorem interior_follows {spec : LogicalJobSpec F} : ∀ {chain : List (LogicalRoleSpec F)}, chain.IsChain (Follows spec) →
    r ∈ (chain.map (·.name)).dropLast →
    ∃ before first second after, chain = before ++ first :: second :: after ∧ first.name = r ∧ Follows spec first second
  | [], _, hr => (List.not_mem_nil hr).elim
  | [role], _, hr => (List.not_mem_nil hr).elim
  | first :: second :: rest, hchain, hr => by
    obtain ⟨hfollows, hrest⟩ := List.isChain_cons_cons.mp hchain
    rw [List.map_cons, List.map_cons, List.dropLast_cons_cons, List.mem_cons] at hr
    rcases hr with rfl | hr
    · exact ⟨[], first, second, rest, rfl, rfl, hfollows⟩
    · obtain ⟨before, a, b, after, heq, hname, hab⟩ := interior_follows hrest hr
      exact ⟨first :: before, a, b, after, by rw [heq, List.cons_append], hname, hab⟩

variable [F64 F]

/-- What is known of an interior role: the next role of its chain is its only consumer, and the job does not return
it. -/
theorem Sound.interior (h : Sound strict L) (hin : L.Interior j r) :
    ∃ t names spec first second, L.binding t = some (.fusedChain j names) ∧ names.Nodup ∧
      L.definition j = some (.logical spec) ∧ first.name = r ∧ Follows spec first second ∧
      ∃ front rest, names = front ++ r :: second.name :: rest := by
  obtain ⟨t, names, hb, hr⟩ := hin
  obtain ⟨-, hnodup, definition, hd, spec, chain, rfl, rfl, hchain, -⟩ := h.chain t j names hb
  obtain ⟨before, first, second, after, rfl, rfl, hfollows⟩ := interior_follows hchain hr
  refine ⟨t, _, spec, first, second, hb, hnodup, hd, rfl, hfollows, before.map (·.name), after.map (·.name), ?_⟩
  rw [List.map_append, List.map_cons, List.map_cons]

theorem Sound.output_not_interior (h : Sound strict L) {definition : JobDefinition F}
    (hd : L.definition j = some definition) (hr : r ∈ jobOutputs definition) : ¬L.Interior j r := by
  intro hin
  obtain ⟨t, names, spec, first, second, -, -, hd', rfl, hfollows, -⟩ := h.interior hin
  rw [hd] at hd'
  cases hd'
  exact hfollows.hidden hr

omit [F64 F] in
theorem Ledger.Starts.works (h : L.Starts t j r) : L.Works t j r := by
  rcases h with h | h | ⟨rest, h⟩
  · exact ⟨_, h, rfl, List.mem_singleton_self r, rfl⟩
  · exact works_of_shard h
  · exact ⟨_, h, rfl, List.mem_cons_self .., rfl⟩

/-- A dependency of a role that has been started is not inside a chain: its only consumer would be further on in the
same chain, and that chain would then be the role's task. -/
theorem Sound.dependency_not_interior (h : Sound strict L) {definition : JobDefinition F} {dependencies : List String}
    {templates : List (TaskTemplate F)} (hd : L.definition j = some definition)
    (hrole : RoleOf definition r dependencies templates) (hstarts : L.Starts t j r) {d : String}
    (hmem : d ∈ dependencies) : ¬L.Interior j d := by
  intro hin
  obtain ⟨t', names, spec, first, second, hb, hnodup, hd', rfl, hfollows, front, rest, rfl⟩ := h.interior hin
  rw [hd] at hd'
  cases hd'
  cases hrole with
  | @logical _ role hrole =>
    obtain rfl := hfollows.consumer hrole hmem
    have hin : role.name ∈ front ++ first.name :: role.name :: rest := by simp
    have hwork : L.Works t' j role.name := ⟨_, hb, rfl, hin, rfl⟩
    rcases h.unique t t' j role.name hstarts.works hwork with rfl | ⟨-, hb', -⟩
    · -- the chain would begin with a role that it also has later
      rcases hstarts with hs | hs | ⟨later, hs⟩
      · rw [hb] at hs; cases hs
      · rw [hb] at hs; cases hs
      · rw [hb] at hs
        have heq : front ++ first.name :: role.name :: rest = role.name :: later := by
          simpa only [Option.some.injEq, TaskRoleBinding.fusedChain.injEq, true_and] using hs
        cases front with
        | nil =>
          rw [List.nil_append] at heq hnodup
          obtain ⟨hhead, -⟩ := List.cons.inj heq
          rw [hhead] at hnodup
          exact (List.nodup_cons.mp hnodup).1 (List.mem_cons_self ..)
        | cons head front =>
          obtain ⟨rfl, -⟩ := List.cons.inj heq
          rw [List.cons_append] at hnodup
          exact (List.nodup_cons.mp hnodup).1 (by simp)
    · rw [hb] at hb'
      cases hb'

/-! ## Runs -/

/-- The task does the work of the role from its start: as its single task, as one of its shards, or as a fused chain
whose first stage it is. -/
def Fabric.StartedBy (s : Fabric F) (t : TaskId) (j : JobId) (r : String) : Prop :=
  s.taskRoles.lookup t = some (.single j r) ∨ s.taskRoles.lookup t = some (.shard j r) ∨
    ∃ rest, s.taskRoles.lookup t = some (.fusedChain j (r :: rest))

/-- The role is an interior stage of a fused chain. -/
def Fabric.InteriorStage (s : Fabric F) (j : JobId) (r : String) : Prop :=
  ∃ t names, s.taskRoles.lookup t = some (.fusedChain j names) ∧ r ∈ names.dropLast

/-- **Dependency wiring.** In every state of a run with fresh task identifiers: a task that starts a role was made from
one of the role's templates, all dependencies of the role are completed, none as an interior stage of a fused chain, and
the task (or its first stage) reads the template's inputs followed by the dependencies' outputs in declared order; no
role that the job returns is an interior stage; and the result of a completed job is the outputs of the roles it
returns, in declared order. -/
theorem dependency_wiring (e : Env) (m x : UInt64) (ops : List (Op F)) (hfresh : FreshTasks e ops) :
    let s := final e (Fabric.new m x) ops
    (∀ j job t r, s.jobs.lookup j = some job → s.StartedBy t j r →
      ∃ dependencies templates template spec, ∃ outputs : String → List ObjectId,
        RoleOf job.definition r dependencies templates ∧ template ∈ templates ∧
        (∀ d ∈ dependencies, job.roles.lookup d = some (.completed (outputs d)) ∧ ¬s.InteriorStage j d) ∧
        s.taskSpec t = some spec ∧ RunsFirst spec template (dependencies.flatMap outputs)) ∧
    (∀ j job, s.jobs.lookup j = some job → ∀ r ∈ jobOutputs job.definition, ¬s.InteriorStage j r) ∧
    ∀ j job result, s.jobs.lookup j = some job → s.cooperativeJobStatus j = some (.completed result) →
      ∃ outputs : String → List ObjectId,
        (∀ r ∈ jobOutputs job.definition, job.roles.lookup r = some (.completed (outputs r))) ∧
        result = (jobOutputs job.definition).flatMap outputs := by
  intro s
  obtain ⟨e', hreached⟩ := final_reached (m := m) (x := x) hfresh fun h : False => h.elim
  have hsound : Sound False s.ledger := hreached.sound
  have hwired : Wired s.ledger := hreached.steps.wired sound_empty wired_empty
  refine ⟨fun j job t r hj hstarts => ?_, fun j job hj r hr => ?_, fun j job result hj hstatus => ?_⟩
  · obtain ⟨definition, dependencies, templates, template, inputs, spec, hd, hrole, hgather, hspec, htemplate, hfirst⟩ :=
      (hwired t j r hstarts).reads
    have hsame := definition_of_lookup hj
    rw [hd] at hsame
    obtain rfl := Option.some.inj hsame
    refine ⟨dependencies, templates, template, spec, fun d => recorded (s.ledger.role j d), hrole, htemplate,
      fun d hmem => ⟨?_, hsound.dependency_not_interior hd hrole hstarts hmem⟩, hspec, gather_eq hgather ▸ hfirst⟩
    obtain ⟨outputs, hdone⟩ := gather_completed hgather d hmem
    simp only [← role_of_lookup hj, hdone, recorded]
  · exact hsound.output_not_interior (definition_of_lookup hj) hr
  · obtain ⟨definition, hd, hall, rfl⟩ := cooperativeJobStatus_completed_iff.mp hstatus
    have hsame := definition_of_lookup hj
    rw [hd] at hsame
    obtain rfl := Option.some.inj hsame
    refine ⟨fun r => recorded (s.ledger.role j r), fun r hr => ?_, rfl⟩
    have haccepted := hsound.accepted j _ hd
    obtain ⟨status, hstatus⟩ := Option.isSome_iff_exists.mp
      ((hsound.domain j r).mpr ⟨_, hd, haccepted.graph.outputs r hr⟩)
    obtain ⟨outputs, rfl⟩ := hall r status hstatus
    simp only [← role_of_lookup hj, hstatus, recorded]

theorem dependency_wiring_chain :
    ∃ r job, (final (Env.numbered Sample.clock) (Fabric.new 100 100) Sample.chainRun).jobs.lookup ⟨1⟩ = some job ∧
      (final (Env.numbered Sample.clock) (Fabric.new 100 100) Sample.chainRun).StartedBy Sample.secondTask ⟨1⟩ r ∧
      ∃ dependencies templates template spec, ∃ outputs : String → List ObjectId,
        RoleOf job.definition r dependencies templates ∧ template ∈ templates ∧
        (∀ d ∈ dependencies, job.roles.lookup d = some (.completed (outputs d)) ∧
          ¬(final (Env.numbered Sample.clock) (Fabric.new 100 100) Sample.chainRun).InteriorStage ⟨1⟩ d) ∧
        (final (Env.numbered Sample.clock) (Fabric.new 100 100) Sample.chainRun).taskSpec Sample.secondTask = some spec ∧
        RunsFirst spec template (dependencies.flatMap outputs) := by
  have hjob : ((final (Env.numbered Sample.clock) (Fabric.new 100 100) Sample.chainRun).jobs.lookup ⟨1⟩).isSome =
      true := by decide +kernel
  obtain ⟨job, hj⟩ := Option.isSome_iff_exists.mp hjob
  have hstarted : (final (Env.numbered Sample.clock) (Fabric.new 100 100) Sample.chainRun).StartedBy
      Sample.secondTask ⟨1⟩ "second" := .inl (by decide +kernel)
  exact ⟨"second", job, hj, hstarted, (dependency_wiring (Env.numbered Sample.clock) 100 100 Sample.chainRun
    Sample.freshTasks_chainRun).1 ⟨1⟩ job Sample.secondTask "second" hj hstarted⟩

end Plurifold
