import Plurifold.Agent.Sum
import Plurifold.Coordinator.Attempts
import Plurifold.Fabric.Consistent
import Plurifold.System.Executions

/-!
# What holds in every deployment

The processes of a deployment are sound side by side (`siteContract`), so `Site.Ok` holds at every moment of every run
(`reached_ok`), whatever is delayed or lost.
-/

namespace Plurifold

open Lib Attempt Fabric CoordinatorState Threads Site

variable {F : Type} [F64 F] {d : Deployment F} {e ids : Env} {m x : UInt64} {site s s' : Site F}

/-! ## Rounds -/

/-- No execution has ever been spawned for the agent. -/
def Site.Unused (r : ResourceId) (site : Site F) : Prop := ∀ n cell, site.cells n = some cell → cell.agent ≠ r

omit [F64 F] in
theorem Site.Unused.since {r : ResourceId} (h : site.Unused r) (hsince : Since (.worker r) site s) : s.Unused r := by
  intro n cell hcell hr
  obtain ⟨old, hold, hr'⟩ := hsince.undisturbed.2 n cell hcell hr
  exact h n old hold hr'

/-- What a process remembers when it rests: a worker that has joined holds its own lease, and one that has not has not
spawned anything; the execution of an assignment is still to come or has come to its end. -/
def Site.Rests (i : Party) (own : Own) (site : Site F) : Prop :=
  match i, own with
  | .worker r, .fresh => site.Unused r
  | .worker r, .joined lease => lease.resourceId = r
  | .execution n, .fresh => site.Unfinished n ∧ site.Unexecuted n
  | .execution _, .joined _ => False
  | .execution n, .retired => ∃ cell, site.cells n = some cell ∧ cell.finished = true
  | _, _ => True

/-- The errors that end a process: the first registration of a worker fails, or the command of a client. -/
def Site.Ends (i : Party) (error : Abort) (site : Site F) : Prop :=
  (∃ message, error = .error message) ∧
    match i with
    | .worker r => site.Unused r
    | .client _ => True
    | _ => False

/-- The end of a round. -/
def Site.Rested (i : Party) (res : Except Abort Own) (site : Site F) : Prop :=
  match res with
  | .ok own => site.Rests i own
  | .error error => site.Ends i error

theorem coordinatorRound_safely (chance : Chance F) (own : Own) :
    Safely d e ids m x .coordinator (Rested .coordinator) (Agent.round d .coordinator chance own) site := by
  have finish : ∀ {s : Site F}, Safely d e ids m x .coordinator (Rested .coordinator) (pure .fresh : Routine F Own) s :=
    Safely.pure fun _ _ _ _ => trivial
  have maintain : Safely d e ids m x .coordinator (Rested .coordinator)
      (Agent.ask .maintain >>= fun _ => pure .fresh : Routine F Own) site :=
    Safely.ask fun s hok _ _ chance' answer s' hanswer => by
      cases hanswer
      exact ⟨maintain_kept hok, fun _ => finish⟩
  have serve : Safely d e ids m x .coordinator (Rested .coordinator)
      (Agent.ask (.serve chance.exchange) >>= fun _ => pure .fresh : Routine F Own) site :=
    Safely.ask fun s hok _ _ chance' answer s' hanswer => by
      cases hanswer
      exact ⟨serveExchange_kept hok _, fun _ => finish⟩
  unfold Agent.round
  cases chance.branch with
  | maintenance => exact maintain
  | _ => exact serve

/-- A worker remembers its own lease. Only its first registration ends it. -/
theorem workerRound_safely {r : ResourceId} {branch : Branch} {own : Own} (hok : Ok d e m x site)
    (hrests : site.Rests (.worker r) own) : Safely d e ids m x (.worker r) (Rested (.worker r))
    (Agent.workerRound d r branch own) site := by
  have stop : ∀ {s : Site F}, Safely d e ids m x (.worker r) (Rested (.worker r)) (pure .retired : Routine F Own) s :=
    Safely.pure fun _ _ _ _ => trivial
  have goOn : ∀ {s : Site F} {lease : MembershipLease}, lease.resourceId = r →
      Safely d e ids m x (.worker r) (Rested (.worker r)) (pure (.joined lease) : Routine F Own) s := fun h =>
    Safely.pure fun _ _ _ _ => h
  cases own with
  | fresh =>
    have hunused : site.Unused r := hrests
    refine Safely.bind hok (register_quietly hok) (fun result s hok hsane hpost => ?_) fun error s hok hsane hpost => ?_
    · obtain ⟨hsince, result', heq, hresult⟩ := hpost
      cases heq
      cases result with
      | ok lease => exact goOn (hresult lease rfl)
      | error error =>
        exact Safely.fail fun s' _ _ hsince' => ⟨⟨error, rfl⟩, (hunused.since hsince).since hsince'⟩
    · obtain ⟨-, result, heq, -⟩ := hpost
      cases heq
  | retired => exact stop
  | joined lease =>
    have hlease : lease.resourceId = r := hrests
    cases branch with
    | heartbeat =>
      refine Safely.bind hok (heartbeatTick_quietly hok hlease) (fun updated s hok hsane hpost => ?_)
        fun error s hok hsane hpost => ?_
      · obtain ⟨-, updated', heq, hupdated⟩ := hpost
        cases heq
        exact goOn hupdated
      · obtain ⟨-, updated, heq, -⟩ := hpost
        cases heq
    | poll =>
      refine Safely.bind hok (pollTick_safely hlease) (fun u s hok hsane hpost => goOn hlease)
        fun error s hok hsane hpost => ?_
      cases hpost
    | probe =>
      refine Safely.ask fun s hok hsane hsince chance answer s' hswap => ⟨?_, fun _ => goOn hlease⟩
      cases hswap
      split
      · exact .refl hok
      · refine (kept_of_same hok s.objectIds fun r' lease' hprobing => ?_).1
        by_cases hr : r' = r
        · subst hr
          rw [Function.update_self] at hprobing
          cases hprobing
          exact hlease
        · rw [Function.update_of_ne hr] at hprobing
          exact hok.probing r' lease' hprobing
    | shutdown => exact stop
    | maintenance => exact goOn hlease
    | request => exact goOn hlease

theorem executionRound_safely {n : Nat} {chance : Chance F} {own : Own} (hrests : site.Rests (.execution n) own) :
    Safely d e ids m x (.execution n) (Rested (.execution n)) (Agent.round d (.execution n) chance own) site := by
  cases own with
  | joined lease => exact hrests.elim
  | retired =>
    refine Safely.pure fun s _ _ hsince => ?_
    obtain ⟨cell, hcell, hfinished⟩ := hrests
    obtain ⟨cell', hcell', -, -, hfinished'⟩ := hsince.later.cells n cell hcell
    exact ⟨cell', hcell', hfinished' hfinished⟩
  | fresh =>
    obtain ⟨hunfinished, hunexecuted⟩ := hrests
    refine Safely.ask fun s hok hsane hsince chance' assigned s' hanswer => ?_
    have hlooks : Looks (.assignment : Question F) := trivial
    obtain rfl := answer_looks hlooks hanswer
    refine ⟨.refl hok, fun _ => ?_⟩
    have hassigned : (s'.cells n).map (fun cell => (cell.agent, cell.assignment)) = assigned :=
      (Prod.mk.inj (Option.some.inj hanswer)).1
    cases assigned with
    | none => exact Safely.pure fun s _ _ hsince' =>
        ⟨hunfinished.since (hsince.trans hsince'), hunexecuted.since (hsince.trans hsince')⟩
    | some entry =>
      obtain ⟨r, a⟩ := entry
      obtain ⟨cell, hcell, hentry⟩ := Option.map_eq_some_iff.mp hassigned
      have hexec : s'.Executing n r a := ⟨cell, hcell, (Prod.mk.inj hentry).1, (Prod.mk.inj hentry).2⟩
      refine Safely.bind hok (spawned_safely hok hsane hexec (hunfinished.since hsince) (hunexecuted.since hsince))
        (fun u s₂ _ _ hpost => Safely.pure fun s₃ _ _ hsince₃ => ?_) fun error s₂ _ _ hpost => ?_
      · obtain ⟨-, cell', hcell', hfinished⟩ := hpost
        obtain ⟨cell'', hcell'', -, -, hfinished'⟩ := hsince₃.later.cells n cell' hcell'
        exact ⟨cell'', hcell'', hfinished' hfinished⟩
      · cases hpost.1

theorem renewalRound_safely {n : Nat} (chance : Chance F) (own : Own) :
    Safely d e ids m x (.renewal n) (Rested (.renewal n)) (Agent.round d (.renewal n) chance own) site := by
  have finish : ∀ {s : Site F} (own : Own), Safely d e ids m x (.renewal n) (Rested (.renewal n))
      (pure own : Routine F Own) s := fun own => Safely.pure fun _ _ _ _ => trivial
  cases own with
  | joined lease => exact finish .retired
  | retired => exact finish .retired
  | fresh =>
    refine Safely.ask fun s hok hsane hsince chance' assigned s' hanswer => ?_
    have hlooks : Looks (.assignment : Question F) := trivial
    obtain rfl := answer_looks hlooks hanswer
    refine ⟨.refl hok, fun _ => ?_⟩
    have hassigned : (s'.cells n).map (fun cell => (cell.agent, cell.assignment)) = assigned :=
      (Prod.mk.inj (Option.some.inj hanswer)).1
    cases assigned with
    | none => exact finish .fresh
    | some entry =>
      obtain ⟨cell, hcell, hentry⟩ := Option.map_eq_some_iff.mp hassigned
      refine Safely.bind hok (renewExecution_quietly ⟨cell, hcell, rfl, rfl⟩) (fun goesOn s₂ _ _ _ => finish _)
        fun error s₂ _ _ hpost => ?_
      obtain ⟨-, goesOn, heq⟩ := hpost
      cases heq

theorem discoveryRound_safely {r : ResourceId} (chance : Chance F) (own : Own) :
    Safely d e ids m x (.discovery r) (Rested (.discovery r)) (Agent.round d (.discovery r) chance own) site := by
  have finish : ∀ {s : Site F}, Safely d e ids m x (.discovery r) (Rested (.discovery r))
      (pure .fresh : Routine F Own) s := Safely.pure fun _ _ _ _ => trivial
  refine Safely.ask fun s hok hsane hsince chance' probing s' hanswer => ?_
  have hlooks : Looks (.probing : Question F) := trivial
  obtain rfl := answer_looks hlooks hanswer
  refine ⟨.refl hok, fun _ => ?_⟩
  cases probing with
  | none => exact finish
  | some lease =>
    have hlease : lease.resourceId = r := hok.probing r lease (Prod.mk.inj (Option.some.inj hanswer)).1
    refine Safely.bind (M := fun res _ => ∃ result, res = .ok result) hok
      (Safely.attempt (discoverTopology_quietly hlease) fun res _ _ _ _ => ⟨res, rfl⟩) (fun result s₂ _ _ _ => ?_)
      fun error s₂ _ _ hpost => ?_
    · refine Safely.ask fun s₃ hok₃ _ _ chance₃ answer s₄ hclear => ?_
      cases hclear
      refine ⟨(kept_of_same hok₃ s₃.objectIds fun r' lease' hprobing => ?_).1, fun _ => finish⟩
      by_cases hr : r' = r
      · subst hr
        rw [Function.update_self] at hprobing
        cases hprobing
      · rw [Function.update_of_ne hr] at hprobing
        exact hok₃.probing r' lease' hprobing
    · obtain ⟨result, heq⟩ := hpost
      cases heq

theorem clientRound_safely {n : Nat} (chance : Chance F) (own : Own) (hok : Ok d e m x site) :
    Safely d e ids m x (.client n) (Rested (.client n)) (Agent.round d (.client n) chance own) site := by
  have stop : ∀ {s : Site F}, Safely d e ids m x (.client n) (Rested (.client n)) (pure .retired : Routine F Own) s :=
    Safely.pure fun _ _ _ _ => trivial
  cases own with
  | fresh =>
    refine Safely.bind hok (runCommand_quietly chance.command hok) (fun _ _ _ _ _ => stop) fun error s _ _ hpost => ?_
    exact ⟨hpost.2 error rfl, trivial⟩
  | joined lease => exact stop
  | retired => exact stop

/-- **A round of a process is sound**, and an error ends only what it may end. -/
theorem round_safely {i : Party} {chance : Chance F} {own : Own} (hok : Ok d e m x site) (hrests : site.Rests i own) :
    Safely d e ids m x i (Rested i) (Agent.round d i chance own) site := by
  cases i with
  | coordinator => exact coordinatorRound_safely chance own
  | worker r => exact workerRound_safely hok hrests
  | execution n => exact executionRound_safely hrests
  | renewal n => exact renewalRound_safely chance own
  | discovery r => exact discoveryRound_safely chance own
  | client n => exact clientRound_safely chance own hok

/-! ## Runs -/

/-- What the processes promise each other, as long as stored blobs have different hashes. -/
def siteContract (d : Deployment F) (e ids : Env) (m x : UInt64) : (threads d e ids).Contract where
  terms := soundTerms d e m x
  rests i own s := Sane d.sha s → s.Rests i own
  ended i error s := Sane d.sha s → s.Ends i error
  starts i chance own s hinv hrests := by
    by_cases hsane : Sane d.sha s
    · refine Sound.mono (round_safely (hinv.resolve_left (not_not.mpr hsane)) (hrests.now hinv hsane)) fun res s' _ hpost => ?_
      cases res with
      | ok own' => exact hpost
      | error error => exact hpost
    · refine sound_of_bad (E := collided d e m x) bad_stays (fun res s' hbad => ?_) hsane
      cases res with
      | ok own' => exact fun hsane' => absurd hsane' hbad
      | error error => exact fun hsane' => absurd hsane' hbad

theorem holds_initially : (siteContract d e ids m x).outline.Holds (initially m x) where
  inv := .inr (ok_new d e m x)
  asserts i := by
    refine Terms.stays_unless (E := collided d e m x) (fun s hsane hok hsince _ => ?_) fun s hbad hsane => absurd hsane hbad
    cases i with
    | worker r => exact Unused.since (fun n cell hcell => by cases hcell) hsince
    | execution n =>
      refine ⟨Unfinished.since (fun cell hcell => ?_) hsince, Unexecuted.since (fun t ht => ?_) hsince⟩
      · cases hcell
      · cases ht
    | _ => trivial

/-- The deployment after a run. -/
def reached (d : Deployment F) (e ids : Env) (m x : UInt64) (events : List (Party × Chance F)) :
    Processes.State Party (Thread (surroundings F) Abort Own) (Site F) :=
  (system d e ids).run events (initially m x)

section Run

variable {events : List (Party × Chance F)}

theorem reached_holds : (siteContract d e ids m x).outline.Holds (reached d e ids m x events) :=
  Outline.holds_run events holds_initially

theorem reached_ok (hsane : Sane d.sha (reached d e ids m x events).shared) :
    Ok d e m x (reached d e ids m x events).shared :=
  (reached_holds : (siteContract d e ids m x).outline.Holds (reached d e ids m x events)).inv.resolve_left (not_not.mpr hsane)

/-- Where a process rests. -/
theorem reached_rests (hsane : Sane d.sha (reached d e ids m x events).shared) {i : Party} {own : Own}
    (hown : (reached d e ids m x events).own i = .rests own) : (reached d e ids m x events).shared.Rests i own := by
  have hholds : (siteContract d e ids m x).outline.Holds (reached d e ids m x events) := reached_holds
  have hasserts := hholds.asserts i
  rw [hown] at hasserts
  exact Terms.Stays.now hasserts hholds.inv hsane

/-- What an error has left that ended a process. -/
theorem reached_ends (hsane : Sane d.sha (reached d e ids m x events).shared) {i : Party} {error : Abort}
    (hown : (reached d e ids m x events).own i = .ended error) : (reached d e ids m x events).shared.Ends i error := by
  have hholds : (siteContract d e ids m x).outline.Holds (reached d e ids m x events) := reached_holds
  have hasserts := hholds.asserts i
  rw [hown] at hasserts
  exact Terms.Stays.now hasserts hholds.inv hsane

end Run

/-! ## Two deployments -/

namespace Sample

/-- One agent. -/
def deployment : Deployment ℚ where
  sha := sampleSha
  showStatus := toString
  descriptor r := { resource 1 with id := r }
  descriptor_id _ := rfl
  advertise _ := "http://a"
  agentAt _ := some ⟨1⟩
  storeDir _ := "data"
  executor _ _ _ _ _ _ := .error (.text "no modules")

/-- A task that may not be retried. -/
def exclusiveTask : TaskSpec ℚ := { task 7 with arguments := ["abc"], effects := .exclusive }

/-- Nothing is lost. -/
def chance (branch : Branch) (exchange : Nat) : Chance ℚ where
  branch := branch
  command := .submit exclusiveTask
  exchange := exchange
  transport := .ok ()
  body := .ok ()
  disk := .ok ()
  clock := 0
  elapsed := .ok 1
  cancelled := false

/-- A process takes steps. -/
def steps (k : Nat) (i : Party) (branch : Branch) : List (Party × Chance ℚ) := List.replicate k (i, chance branch 0)

def serves (n : Nat) : List (Party × Chance ℚ) := List.replicate 3 (.coordinator, chance .request n)

/-- An agent registers, in exchange `n`. -/
def joins (r : ResourceId) (n : Nat) : List (Party × Chance ℚ) :=
  steps 2 (.worker r) .heartbeat ++ serves n ++ steps 2 (.worker r) .heartbeat

/-- A client runs a command that takes `k` steps up to exchange `n`. -/
def asks (command : Command ℚ) (k i n : Nat) : List (Party × Chance ℚ) :=
  let chance := { chance .request 0 with command }
  List.replicate k (.client i, chance) ++ serves n ++ List.replicate 2 (.client i, chance)

def polls (r : ResourceId) (n : Nat) : List (Party × Chance ℚ) :=
  steps 3 (.worker r) .poll ++ serves n ++ steps 3 (.worker r) .poll

/-- The execution that was handed out in exchange `n` is completed in another. -/
def works (n completion : Nat) : List (Party × Chance ℚ) :=
  steps 15 (.execution n) .poll ++ serves completion ++ steps 3 (.execution n) .poll

/-- The agent registers, a client submits the task, the agent polls it, executes it and reports its output. -/
def workday : List (Party × Chance ℚ) :=
  joins ⟨1⟩ 0 ++ asks (.submit exclusiveTask) 2 0 1 ++ polls ⟨1⟩ 2 ++ works 2 3

/-- What has become of it. -/
def evening : Site ℚ := (reached deployment (Env.numbered fun _ => 0) (Env.numbered fun _ => 0) 100 100 workday).shared

theorem sane_of_written {sha : Sha256} {site : Site ℚ} {blobs : List Bytes} (hwritten : site.written = blobs)
    (hinj : ∀ b ∈ blobs, ∀ b' ∈ blobs, sha.hex b = sha.hex b' → b = b') (hsizes : ∀ b ∈ blobs, b.length < 2 ^ 64) :
    Sane sha site := by
  subst hwritten
  exact ⟨hinj, hsizes⟩

theorem evening_written : evening.written = [[97, 98, 99]] := by decide +kernel

theorem evening_sane : Sane sampleSha evening := sane_of_written evening_written (by decide +kernel) (by decide)

/-- The registration of a second agent is lost. The first one has begun to execute the task. -/
def morning : List (Party × Chance ℚ) :=
  List.replicate 4 (.worker ⟨2⟩, { chance .heartbeat 0 with transport := .error "timed out" }) ++
    joins ⟨1⟩ 1 ++ asks (.submit exclusiveTask) 2 0 2 ++ polls ⟨1⟩ 3 ++ steps 4 (.execution 3) .poll

/-- Where the processes are then. -/
def noon : Processes.State Party (Thread (surroundings ℚ) Abort Own) (Site ℚ) :=
  reached deployment (Env.numbered fun _ => 0) (Env.numbered fun _ => 0) 100 100 morning

/-- The error that has ended a process. -/
def endedBy : Thread (surroundings ℚ) Abort Own → Option Abort
  | .ended error => some error
  | _ => none

theorem noon_facts : noon.shared.written = [[97, 98, 99]] ∧ endedBy (noon.own (.worker ⟨2⟩)) = some (.error "timed out") ∧
    noon.shared.busy ⟨1⟩ = true ∧
    (noon.shared.cells 3).map (fun cell => (cell.agent, cell.finished)) = some (⟨1⟩, false) := by decide +kernel

theorem noon_sane : Sane sampleSha noon.shared := sane_of_written noon_facts.1 (by decide +kernel) (by decide)

theorem noon_ended : noon.own (.worker ⟨2⟩) = .ended (.error "timed out") := by
  have hended := noon_facts.2.1
  cases hown : noon.own (.worker ⟨2⟩) with
  | ended error =>
    rw [hown] at hended
    rw [Option.some.inj hended]
  | rests own =>
    rw [hown] at hended
    cases hended
  | runs script =>
    rw [hown] at hended
    cases hended

theorem noon_underWay : ∃ cell, noon.shared.cells 3 = some cell ∧ cell.agent = ⟨1⟩ ∧ cell.finished = false := by
  obtain ⟨cell, hcell, hfacts⟩ := Option.map_eq_some_iff.mp noon_facts.2.2.2
  exact ⟨cell, hcell, (Prod.mk.inj hfacts).1, (Prod.mk.inj hfacts).2⟩

def submitsTask : Request ℚ → Bool
  | .submitTask _ => true
  | _ => false

/-- How a run has ended: which blobs were stored, and what its only job has come to. No client has submitted a task. -/
def Ended (site : Site ℚ) (blobs : List Bytes) (definition : JobDefinition ℚ) (result : List ObjectId) : Prop :=
  site.written = blobs ∧ (∀ request ∈ site.log, submitsTask request = false) ∧
    (site.coordinator.fabric.jobs.lookup ⟨1⟩).map (·.definition) = some definition ∧
    site.coordinator.fabric.cooperativeJobStatus ⟨1⟩ = some (.completed result)

section Ended

variable {site : Site ℚ} {blobs : List Bytes} {definition : JobDefinition ℚ} {result : List ObjectId}

instance : Decidable (Ended site blobs definition result) := inferInstanceAs (Decidable (_ ∧ _ ∧ _ ∧ _))

theorem Ended.job (h : Ended site blobs definition result) :
    ∃ job, site.coordinator.fabric.jobs.lookup ⟨1⟩ = some job ∧ job.definition = definition :=
  Option.map_eq_some_iff.mp h.2.2.1

theorem Ended.completed (h : Ended site blobs definition result) :
    site.coordinator.fabric.cooperativeJobStatus ⟨1⟩ = some (.completed result) := h.2.2.2

end Ended

/-- A hash that agrees with SHA-256 where hashes are given. -/
def shaOf (hashes : List (Bytes × String))
    (hdigits : ∀ entry ∈ hashes, entry.2.length = 64 ∧ entry.2.toList.all isAsciiHexdigit = true) : Sha256 where
  hex bytes :=
    match hashes.find? (·.1 = bytes) with
    | some entry => entry.2
    | none => sampleSha.hex bytes
  hex_digits bytes := by
    cases hentry : hashes.find? (·.1 = bytes) with
    | none => exact sampleSha.hex_digits bytes
    | some entry => exact hdigits entry (List.mem_of_find?_eq_some hentry)

/-- The hashes of the records, of the sums of their halves and of their total. -/
def tallySha : Sha256 := shaOf [
  (fourRecords, "c04e9aff8e893d71bd43b791915f5d042424946d1f7b5c76923a1ab6684f48a9"),
  (toLeBytes 21, "debcea1f166010e428df48387304e45c0bf7843a1fa7f1beb38f852228df789b"),
  (toLeBytes 304, "8b1fde09592443f1b32b4e08172bd374357872bdd6e048bc3ef540c32c6cc22c"),
  (toLeBytes 325, "5a7e16d4e6f65356878ea0757da00b0f17186a9174758c3e3cf8bc053abfd8ff")] (by decide +kernel)

/-- Two agents. -/
def tallyDeployment : Deployment ℚ := { deployment with
  sha := tallySha
  advertise := fun r => if r = ⟨1⟩ then "http://a" else "http://b"
  agentAt := fun base => if base = "http://a" then some ⟨1⟩ else if base = "http://b" then some ⟨2⟩ else none }

def tallyRole : LogicalRoleSpec ℚ where
  name := "tally"
  implementations := [⟨"records", { template with
    artifact := "builtin:sum-records-u64", inputs := [⟨2⟩], cost := ⟨100, 8⟩ }⟩]
  dependsOn := []
  shards := .policy (.auto ⟨2, .records 0 [0, 2, 5, 9, 11], 0, 0⟩)
  reduction := some ⟨"sum", { template with artifact := "builtin:sum-u64" }, 2, 0⟩

def tallyJob : LogicalJobSpec ℚ where
  id := ⟨1⟩
  roles := [tallyRole]
  outputs := ["tally"]

/-- The agents register, and clients store the records, announce the link between the agents and submit the job. Each agent
executes one of the shards, and the second one the reducer. -/
def tally : List (Party × Chance ℚ) :=
  joins ⟨1⟩ 0 ++ joins ⟨2⟩ 1 ++ asks (.put "http://a" fourRecords) 3 0 2 ++ asks (.link ⟨⟨1⟩, ⟨2⟩, 0, 1000⟩) 2 1 3 ++
    asks (.autoSubmit (.ok ()) tallyJob) 2 2 4 ++ polls ⟨1⟩ 5 ++ polls ⟨2⟩ 6 ++ works 5 7 ++ works 6 8 ++ polls ⟨2⟩ 9 ++
    works 9 10

/-- What has become of them. -/
def tallied : Site ℚ :=
  (reached tallyDeployment (Env.numbered fun _ => 0) (Env.numbered fun _ => 0) 100 100 tally).shared

theorem tallied_facts : Ended tallied [toLeBytes 325, toLeBytes 21, toLeBytes 304, fourRecords] (.logical tallyJob) [⟨16⟩] ∧
    tallied.coordinator.fabric.taskStatus ⟨1727316⟩ = some (.completed [⟨4⟩]) ∧
    tallied.coordinator.fabric.taskStatus ⟨940884⟩ = some (.completed [⟨8⟩]) ∧
    tallied.coordinator.fabric.taskStatus ⟨3626324⟩ = some (.completed [⟨16⟩]) := by decide +kernel

theorem tallied_ended : Ended tallied [toLeBytes 325, toLeBytes 21, toLeBytes 304, fourRecords] (.logical tallyJob) [⟨16⟩] :=
  tallied_facts.1

theorem tallied_sane : Sane tallyDeployment.sha tallied := sane_of_written tallied_ended.1 (by decide +kernel) (by decide)

end Sample

/-! ## Objects and results -/

section Results

variable {events : List (Party × Chance F)}

/-- A blob that a store contains can be read from it. -/
theorem Site.Ok.reads (hok : Ok d e m x site) (hsane : Sane d.sha site) {b : Bytes} (hb : b ∈ site.written) {dir : String}
    (hthere : (site.stores dir).contains (d.sha.digest b) = true) :
    (site.stores dir).files.lookup (d.sha.hex b) = some (.ok b) := by
  rw [contains_digest] at hthere
  obtain ⟨file, hfile⟩ := Option.isSome_iff_exists.mp hthere
  obtain ⟨b', hb', rfl, hhex⟩ := hok.files dir _ file hfile
  rw [hfile, hsane.hex_inj b' hb' b hb hhex]

/-- **The table of objects is true.** At every moment, whatever is delayed or lost: an object in the coordinator's table is
a blob that was stored, and every agent that the table lists for it serves the blob. -/
theorem table_serves (hsane : Sane d.sha (reached d e ids m x events).shared) {o : ObjectId} {object : ObjectMetadata}
    (hobject : (reached d e ids m x events).shared.coordinator.fabric.objects.lookup o = some object) :
    ∃ b ∈ (reached d e ids m x events).shared.written, object.digest = some (d.sha.digest b) ∧
      object.sizeBytes.toNat = b.length ∧ ∀ r ∈ object.locations,
      getBlob d.sha ((reached d e ids m x events).shared.storeOf d r) (d.sha.hex b) none =
        .ok { status := 200, rangeDigest := none, body := .ok b } := by
  have hok := reached_ok hsane
  obtain ⟨-, hlists⟩ := hok.table o object hobject
  obtain ⟨b, hb, hdescribes⟩ := hlists.known
  refine ⟨b, hb, hdescribes.digest, ?_, fun r hr => ?_⟩
  · have hsize : object.sizeBytes = UInt64.ofNat b.length := hdescribes.size
    rw [hsize, UInt64.toNat_ofNat_of_lt' (hsane.sizes b hb)]
  · exact getBlob_whole (hok.reads hsane hb (hlists.held r hr _ hdescribes.digest))

theorem table_serves_evening : ∃ object, Sample.evening.coordinator.fabric.objects.lookup ⟨2⟩ = some object ∧
    object.locations = [⟨1⟩] ∧ ∃ b ∈ Sample.evening.written, object.digest = some (sampleSha.digest b) ∧
    getBlob sampleSha (Sample.evening.storeOf Sample.deployment ⟨1⟩) (sampleSha.hex b) none =
      .ok { status := 200, rangeDigest := none, body := .ok b } := by
  have hlisted : (Sample.evening.coordinator.fabric.objects.lookup ⟨2⟩).map (·.locations) = some [⟨1⟩] := by decide +kernel
  obtain ⟨object, hobject, hlocations⟩ := Option.map_eq_some_iff.mp hlisted
  obtain ⟨b, hb, hdigest, -, hserves⟩ := table_serves Sample.evening_sane hobject
  exact ⟨object, hobject, hlocations, b, hb, hdigest, hserves ⟨1⟩ (by rw [hlocations]; exact List.mem_singleton_self _)⟩

/-- **What is completed is right.** At every moment, the one output of a completed task is the blob that some agent gets
from executing the task on the contents of its inputs, or the ranges of them that it is to read. -/
theorem completed_right (hsane : Sane d.sha (reached d e ids m x events).shared) {t : TaskId} {outputs : List ObjectId}
    (hcompleted : (reached d e ids m x events).shared.coordinator.fabric.taskStatus t = some (.completed outputs)) :
    (reached d e ids m x events).shared.Right d t outputs := (reached_ok hsane).completed t outputs hcompleted

theorem completed_right_tallied : Sample.tallied.Right Sample.tallyDeployment ⟨1727316⟩ [⟨4⟩] ∧
    Sample.tallied.Right Sample.tallyDeployment ⟨940884⟩ [⟨8⟩] ∧
    Sample.tallied.Right Sample.tallyDeployment ⟨3626324⟩ [⟨16⟩] := by
  obtain ⟨-, hfirst, hsecond, htotal⟩ := Sample.tallied_facts
  have hright := @completed_right _ _ Sample.tallyDeployment (Env.numbered fun _ => 0) (Env.numbered fun _ => 0) 100 100
    Sample.tally
  rw [← Sample.tallied] at hright
  exact ⟨hright Sample.tallied_sane hfirst, hright Sample.tallied_sane hsecond, hright Sample.tallied_sane htotal⟩

/-- **What is reported is right, also if it is refused.** A report is sent by an execution of the agent that the lease was
handed to, in the answer to its own poll, and it reports the output of the task. -/
theorem reports_right (hsane : Sane d.sha (reached d e ids m x events).shared) {exchange : Exchange F}
    (hexchange : exchange ∈ (reached d e ids m x events).shared.exchanges) {lease : ExecutionLease}
    {outputs : List ObjectMetadata} (hrequest : exchange.request = .completeExecution lease outputs) :
    ∃ n cell epoch turn, exchange.sender = .execution n ∧ (reached d e ids m x events).shared.cells n = some cell ∧
      (reached d e ids m x events).shared.exchanges[n]? =
        some ⟨.worker cell.agent, .pollWork cell.agent epoch, some (turn, .ok (.work (some cell.assignment)))⟩ ∧
      lease.taskId = cell.assignment.task.id ∧ SameAttempt lease cell.assignment.lease ∧
      (reached d e ids m x events).shared.Reports d cell outputs := by
  have hok := reached_ok hsane
  obtain ⟨k, hk, hat⟩ := List.getElem_of_mem hexchange
  have hentitled := hok.requests k exchange (List.getElem?_eq_some_iff.mpr ⟨hk, hat⟩)
  rw [hrequest] at hentitled
  obtain ⟨n, cell, hsender, hcell, howns, hreports⟩ := hentitled
  obtain ⟨epoch, turn, hpoll⟩ := (hok.cells n cell hcell).exchange
  refine ⟨n, cell, epoch, turn, hsender, hcell, hpoll, ?_, howns.attempt, hreports⟩
  have htask := hok.named.specs _ _ (hok.assigned hcell).task
  rw [howns.task, htask]

theorem reports_right_evening : ∃ (lease : ExecutionLease) (outputs : List ObjectMetadata) (cell : ExecutionCell ℚ),
    lease.taskId = cell.assignment.task.id ∧ Sample.evening.Reports Sample.deployment cell outputs := by
  have hreport : ∃ lease outputs, Sample.evening.exchanges[3]?.map (·.request) = some (.completeExecution lease outputs) := by
    have hkind : (Sample.evening.exchanges[3]?.map (·.request)).bind (fun
        | .completeExecution _ _ => some ()
        | _ => none) = some () := by decide +kernel
    obtain ⟨request, hrequest, hkind⟩ := Option.bind_eq_some_iff.mp hkind
    cases request with
    | completeExecution lease outputs => exact ⟨lease, outputs, hrequest⟩
    | _ => cases hkind
  obtain ⟨lease, outputs, hrequest⟩ := hreport
  obtain ⟨exchange, hexchange, hrequest⟩ := Option.map_eq_some_iff.mp hrequest
  obtain ⟨-, cell, -, -, -, -, -, htask, -, hreports⟩ :=
    reports_right Sample.evening_sane (List.mem_of_getElem? hexchange) hrequest
  exact ⟨lease, outputs, cell, htask, hreports⟩

end Results

/-! ## Executions -/

section Executions

variable {events : List (Party × Chance F)}

/-- **Work that may not be retried is executed at most once**, by whichever agent, whatever is delayed or lost. -/
theorem exclusive_executed_once (hsane : Sane d.sha (reached d e ids m x events).shared) {t : TaskId} {spec : TaskSpec F}
    (hspec : (reached d e ids m x events).shared.coordinator.fabric.taskSpec t = some spec)
    (honce : spec.effects.automaticallyRetryable = false) :
    ((reached d e ids m x events).shared.executed.map Prod.snd).count t ≤ 1 := by
  have hok := reached_ok hsane
  generalize (reached d e ids m x events).shared = site at hok hspec
  have handed : ∀ {n : Nat}, (n, t) ∈ site.executed → ∃ exchange turn result, site.exchanges[n]? = some exchange ∧
      exchange.answer = some (turn, result) ∧ HandsOut e (CoordinatorState.new m x) site.log t turn := by
    intro n hn
    obtain ⟨cell, hcell, htask⟩ := hok.executed n t hn
    obtain ⟨epoch, turn, hx⟩ := (hok.cells n cell hcell).exchange
    have hanswered := hok.answers n _ turn _ hx rfl
    exact ⟨_, turn, _, hx, rfl, cell.agent, epoch, cell.assignment, hanswered.served, htask, hanswered.replied⟩
  rw [hok.coordinator] at hspec
  have same : ∀ {n n' : Nat}, (n, t) ∈ site.executed → (n', t) ∈ site.executed → n = n' := by
    intro n n' hn hn'
    obtain ⟨exchange, turn, result, hx, hanswer, hhands⟩ := handed hn
    obtain ⟨exchange', turn', result', hx', hanswer', hhands'⟩ := handed hn'
    obtain rfl := handsOut_once e m x site.log hspec honce hhands hhands'
    exact hok.turns n n' exchange exchange' turn result result' hx hx' hanswer hanswer'
  rw [List.count_eq_countP, List.countP_map, List.countP_eq_length_filter]
  -- the entries for the task are all of one execution, and each execution has one entry
  have honly : ∀ entry ∈ site.executed.filter ((· == t) ∘ Prod.snd), entry ∈ site.executed ∧ entry.2 = t := fun entry h =>
    ⟨(List.mem_filter.mp h).1, eq_of_beq (List.mem_filter.mp h).2⟩
  have hnodup : (site.executed.filter ((· == t) ∘ Prod.snd)).Nodup := hok.once.of_map.filter _
  by_cases hsome : ∃ n, (n, t) ∈ site.executed
  · obtain ⟨n, hn⟩ := hsome
    have hsubset : site.executed.filter ((· == t) ∘ Prod.snd) ⊆ [(n, t)] := by
      intro entry hentry
      obtain ⟨hmem, rfl⟩ := honly entry hentry
      rw [List.mem_singleton, ← same hmem hn]
    exact hnodup.length_le_of_subset hsubset
  · rw [List.filter_eq_nil_iff.mpr fun entry hentry htask => hsome ⟨entry.1, ?_⟩]
    · exact Nat.zero_le 1
    · rw [← eq_of_beq (show (entry.2 == t) = true from htask)]
      exact hentry

theorem exclusive_executed_once_evening : (Sample.evening.executed.map Prod.snd).count ⟨7⟩ ≤ 1 := by
  have heffects : (Sample.evening.coordinator.fabric.taskSpec ⟨7⟩).map (·.effects) = some .exclusive := by decide +kernel
  obtain ⟨spec, hspec, heffects⟩ := Option.map_eq_some_iff.mp heffects
  exact exclusive_executed_once Sample.evening_sane hspec (by rw [heffects]; rfl)

/-- **Agents do not get stuck.** An error ends only a client, whose command has failed, or a worker whose first
registration has failed, so that its agent has never executed anything; it is never a panic. An agent that is busy has
exactly one execution under way, and that one has not come to its end; an agent that is not has none. -/
theorem agents_recover (hsane : Sane d.sha (reached d e ids m x events).shared) :
    (∀ i error, (reached d e ids m x events).own i = .ended error → (∃ message, error = .error message) ∧
      ((∃ n, i = .client n) ∨ ∃ r, i = .worker r ∧ (reached d e ids m x events).shared.busy r = false ∧
        ∀ n cell, (reached d e ids m x events).shared.cells n = some cell → cell.agent ≠ r)) ∧
    ∀ r, let underWay n := ∃ cell, (reached d e ids m x events).shared.cells n = some cell ∧ cell.agent = r ∧
        cell.finished = false
      ((reached d e ids m x events).shared.busy r = true → ∃! n, underWay n) ∧
      ((reached d e ids m x events).shared.busy r = false → ∀ n, ¬underWay n) ∧
      ∀ n, underWay n → (reached d e ids m x events).own (.execution n) = .rests .fresh ∨
        ∃ script, (reached d e ids m x events).own (.execution n) = .runs script := by
  have hok := reached_ok hsane
  refine ⟨fun i error hended => ?_, fun r => ⟨fun hbusy => ?_, fun hidle n hunder => ?_, fun n hunder => ?_⟩⟩
  · obtain ⟨hmessage, hends⟩ := reached_ends hsane hended
    refine ⟨hmessage, ?_⟩
    cases i with
    | worker r =>
      refine .inr ⟨r, rfl, ?_, hends⟩
      by_contra hbusy
      obtain ⟨n, cell, hcell, hagent, -⟩ := hok.busy r (Bool.of_not_eq_false hbusy)
      exact hends n cell hcell hagent
    | client n => exact .inl ⟨n, rfl⟩
    | _ => exact hends.elim
  · obtain ⟨n, cell, hcell, hagent, hfinished⟩ := hok.busy r hbusy
    refine ⟨n, ⟨cell, hcell, hagent, hfinished⟩, fun n' hunder => ?_⟩
    obtain ⟨cell', hcell', hagent', hfinished'⟩ := hunder
    exact hok.alone n' n cell' cell hcell' hcell (hagent'.trans hagent.symm) hfinished' hfinished
  · obtain ⟨cell, hcell, hagent, hfinished⟩ := hunder
    rw [hok.idle r n cell hidle hcell hagent] at hfinished
    cases hfinished
  · obtain ⟨cell, hcell, -, hfinished⟩ := hunder
    cases hthread : (reached d e ids m x events).own (.execution n) with
    | runs script => exact .inr ⟨script, rfl⟩
    | ended error => exact (reached_ends hsane hthread).2.elim
    | rests own =>
      have hrests := reached_rests hsane hthread
      cases own with
      | fresh => exact .inl rfl
      | joined lease => exact hrests.elim
      | retired =>
        obtain ⟨cell', hcell', hover⟩ := hrests
        rw [hcell] at hcell'
        cases hcell'
        rw [hfinished] at hover
        cases hover

theorem agents_recover_noon : (∀ n cell, Sample.noon.shared.cells n = some cell → cell.agent ≠ ⟨2⟩) ∧
    (∃! n, ∃ cell, Sample.noon.shared.cells n = some cell ∧ cell.agent = ⟨1⟩ ∧ cell.finished = false) ∧
    (Sample.noon.own (.execution 3) = .rests .fresh ∨ ∃ script, Sample.noon.own (.execution 3) = .runs script) := by
  have hrecovers := @agents_recover _ _ Sample.deployment (Env.numbered fun _ => 0) (Env.numbered fun _ => 0) 100 100
    Sample.morning
  rw [← Sample.noon] at hrecovers
  obtain ⟨hended, hrecover⟩ := hrecovers Sample.noon_sane
  obtain ⟨-, ⟨n, hclient⟩ | ⟨r, hworker, -, hunused⟩⟩ := hended (.worker ⟨2⟩) _ Sample.noon_ended
  · cases hclient
  cases hworker
  obtain ⟨hbusy, -, hgoes⟩ := hrecover ⟨1⟩
  obtain ⟨cell, hcell, hagent, hfinished⟩ := Sample.noon_underWay
  exact ⟨hunused, hbusy Sample.noon_facts.2.2.1, hgoes 3 ⟨cell, hcell, hagent, hfinished⟩⟩

end Executions

end Plurifold
