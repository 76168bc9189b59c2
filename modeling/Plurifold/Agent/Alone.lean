import Plurifold.Agent.Worker

/-!
# A leased task alone

`materializeInput` and `executeAndCommit` are what a task does if nobody interferes: they read one store, and a `World`
says what comes from outside. The routines of the same names ask for each of these things when they need it. Alone, with
the same store and the same world, both do the same (`alone_executeAndCommit`), and a task that panics leaves its agent
busy (`alone_spawned`).
-/

namespace Plurifold

open Lib Attempt CoordinatorState

variable {F : Type}

/-- What answers a task that nobody interferes with. -/
structure Solitude (F : Type) where
  sha : Sha256
  world : World
  executor : Executor
  env : Env
  /-- What the coordinator answers to the report of an output. -/
  complete : ObjectMetadata → Except String Unit
  /-- Whatever else may be asked. A task asks for its lease, which it hands on, and for the things of its agent. -/
  others : ∀ question : Question F, question.Answer

/-- The store of the agent, and the request that the task has sent last. -/
structure Solo (F : Type) where
  store : LocalObjectStore
  sent : Option (Request F)

namespace Solitude

def reception : Except String Unit → Reception F
  | .ok () => .answered .noContent
  | .error error => .lost error

variable (A : Solitude F)

def answer : (question : Question F) → Solo F → question.Answer × Solo F
  | .contains digest, s => (s.store.contains digest, s)
  | .get digest, s => (s.store.get A.sha digest, s)
  | .put bytes, s =>
    match s.store.put A.sha A.world.write bytes with
    | .error error => (.error error, s)
    | .ok (stored, store) => (.ok stored, { s with store })
  | .fetch url range, s => (A.world.get url range, s)
  | .execute task inputs, s => (executeTaskWithPolicy A.executor task inputs, s)
  | .newObjectId, s => (ObjectId.new A.env, s)
  | .send request, s => (0, { s with sent := some request })
  | .receive n, s =>
    match s.sent with
    | some (.registerReplica _ _) => (reception A.world.register, s)
    | some (.completeExecution _ [output]) => (reception (A.complete output), s)
    | _ => (A.others (.receive n), s)
  | question, s => (A.others question, s)

/-- A routine that is answered so. -/
def play {α : Type} (p : Routine F α) : Attempt (Solo F) Abort α := Script.run (I := surroundings F) A.answer p

variable {A} {α β : Type}

theorem play_bind (p : Routine F β) (f : β → Routine F α) : A.play (p >>= f) = A.play p >>= fun b => A.play (f b) :=
  Script.run_bind p f

theorem play_ask_bind (question : Question F) (f : question.Answer → Routine F α) (s : Solo F) :
    A.play (Agent.ask question >>= f) s = A.play (f (A.answer question s).1) (A.answer question s).2 := rfl

theorem play_attempt (p : Routine F α) (s : Solo F) : A.play p.attempt s = (.ok (A.play p s).1, (A.play p s).2) :=
  Script.run_attempt p s

/-- The routine does what the computation does to the store. -/
def Does (A : Solitude F) (p : Routine F α) (m : Attempt LocalObjectStore Abort α) : Prop :=
  ∀ s, (A.play p s).1 = (m s.store).1 ∧ (A.play p s).2.store = (m s.store).2

theorem does_pure (a : α) : A.Does (pure a) (pure a) := fun _ => ⟨rfl, rfl⟩

theorem does_fail (error : Abort) : A.Does (.fail error : Routine F α) (fail error) := fun _ => ⟨rfl, rfl⟩

theorem Does.bind {p : Routine F β} {m : Attempt LocalObjectStore Abort β} {f : β → Routine F α}
    {g : β → Attempt LocalObjectStore Abort α} (hp : A.Does p m) (hf : ∀ b, A.Does (f b) (g b)) :
    A.Does (p >>= f) (m >>= g) := by
  intro s
  obtain ⟨hresult, hstore⟩ := hp s
  rw [play_bind, bind_apply, bind_apply]
  cases hrun : A.play p s with
  | mk r s' =>
    cases hm : m s.store with
    | mk r' store =>
      rw [hrun, hm] at hresult hstore
      dsimp only at hresult hstore
      subst hresult hstore
      cases r with
      | ok b => exact hf b s'
      | error error => exact ⟨rfl, rfl⟩

/-- A question whose answer is read off the store. -/
theorem does_look {question : Question F} {f : question.Answer → Routine F α} {m : Attempt LocalObjectStore Abort α}
    (hsame : ∀ s, (A.answer question s).2 = s)
    (h : ∀ s, (A.play (f (A.answer question s).1) s).1 = (m s.store).1 ∧
      (A.play (f (A.answer question s).1) s).2.store = (m s.store).2) : A.Does (Agent.ask question >>= f) m := by
  intro s
  rw [play_ask_bind, hsame]
  exact h s

theorem expectSuccess_reception (showStatus : Nat → String) (result : Except String Unit) :
    Agent.expectSuccess showStatus (reception result : Reception F) = result := by
  cases result <;> rfl

end Solitude

open Solitude

variable {A : Solitude F}

/-! ## Reading an input -/

theorem fetchRange_does (offset stop length : UInt64) : ∀ (replicas : List ObjectReplica) (lastError : String),
    A.Does (Agent.fetchRange A.sha A.world.showStatus offset stop length replicas lastError)
      (lift (fetchRange A.sha A.world offset stop length replicas lastError))
  | [], _ => does_fail _
  | replica :: rest, lastError => by
    have ih := fetchRange_does offset stop length rest
    refine does_look (fun _ => rfl) fun s => ?_
    have hanswer : (A.answer (.fetch replica.url (some s!"bytes={offset}-{stop - 1}")) s).1 =
        A.world.get replica.url (some s!"bytes={offset}-{stop - 1}") := rfl
    rw [hanswer]
    unfold fetchRange
    cases A.world.get replica.url (some s!"bytes={offset}-{stop - 1}") with
    | error error => exact ih error s
    | ok response =>
      dsimp only
      split
      · exact ih _ s
      cases response.rangeDigest.bind headerText with
      | none => exact ih _ s
      | some expected =>
        dsimp only
        cases response.body with
        | error error => exact ⟨rfl, rfl⟩
        | ok bytes =>
          dsimp only
          split
          · exact ih _ s
          split
          · exact ih _ s
          · exact ⟨rfl, rfl⟩

theorem fetchBlob_does (r : ResourceId) (o : ObjectId) (digest : String) : ∀ (replicas : List ObjectReplica)
    (lastError : String), A.Does (Agent.fetchBlob A.world.showStatus r o digest replicas lastError)
      (fetchBlob A.sha A.world digest replicas lastError)
  | [], _ => does_fail _
  | replica :: rest, lastError => by
    have ih := fetchBlob_does r o digest rest
    refine does_look (fun _ => rfl) fun s => ?_
    have hanswer : (A.answer (.fetch replica.url none) s).1 = A.world.get replica.url none := rfl
    rw [hanswer]
    unfold fetchBlob
    cases A.world.get replica.url none with
    | error error => exact ih error s
    | ok response =>
      dsimp only
      split
      · exact ih _ s
      cases response.body with
      | error error => exact ⟨rfl, rfl⟩
      | ok bytes =>
        dsimp only
        rw [play_ask_bind, state_bind]
        simp only [answer]
        cases s.store.put A.sha A.world.write bytes with
        | error error => exact ⟨rfl, rfl⟩
        | ok entry =>
          obtain ⟨stored, store⟩ := entry
          dsimp only
          rw [update_bind]
          split
          · exact ih _ { s with store }
          · -- the registration is answered by the world
            have hpost : A.play (Agent.post (.registerReplica o r)) { s with store } =
                (.ok (reception A.world.register), { s with store, sent := some (.registerReplica o r) }) := rfl
            rw [play_bind, bind_ok hpost, expectSuccess_reception]
            cases A.world.register with
            | error error => exact ⟨rfl, rfl⟩
            | ok u => exact ⟨rfl, rfl⟩

theorem materializeInput_does (r : ResourceId) (input : ResolvedObject) (range : Option (UInt64 × UInt64)) :
    A.Does (Agent.materializeInput A.sha A.world.showStatus r input range)
      (materializeInput A.sha A.world input range) := by
  unfold Agent.materializeInput materializeInput
  cases input.metadata.digest with
  | none => exact does_fail _
  | some digest =>
    rw [okOr_some, pure_bind']
    intro s
    rw [state_bind]
    cases normalizeRange input.metadata.sizeBytes range with
    | none =>
      dsimp only
      rw [play_ask_bind]
      simp only [answer]
      cases s.store.contains digest with
      | true =>
        rw [play_ask_bind]
        simp only [answer]
        cases s.store.get A.sha digest <;> exact ⟨rfl, rfl⟩
      | false => exact fetchBlob_does r _ digest _ _ s
    | some entry =>
      obtain ⟨offset, length⟩ := entry
      dsimp only
      split
      · exact does_fail _ s
      split
      · exact does_fail _ s
      split
      · exact does_pure _ s
      rw [play_ask_bind]
      simp only [answer]
      cases s.store.contains digest with
      | true =>
        rw [play_ask_bind]
        simp only [answer]
        cases s.store.get A.sha digest with
        | error error => exact ⟨rfl, rfl⟩
        | ok bytes =>
          dsimp only [if_true]
          split
          · exact does_fail _ s
          · exact does_pure _ s
      | false => exact fetchRange_does _ _ _ _ _ s

/-! ## The leased task -/

theorem materializeInputs_does (r : ResourceId) (task : TaskSpec F) : ∀ (i : Nat) (inputs : List ResolvedObject),
    A.Does (Agent.materializeInputs A.sha A.world.showStatus r task i inputs)
      (materializeInputs A.sha A.world task i inputs)
  | _, [] => does_pure []
  | i, input :: rest => (materializeInput_does r input _).bind fun bytes =>
    (materializeInputs_does r task (i + 1) rest).bind fun others => does_pure (bytes :: others)

/-- What the computation makes of the output that the routine ends with. -/
theorem executeAndCommit_workResult (r : ResourceId) (assignment : WorkAssignment F) (s : Solo F) :
    executeAndCommit A.sha A.world A.executor A.env r A.complete assignment s.store =
      (((A.play (Agent.workResult A.sha A.world.showStatus r assignment) s).1.bind fun output =>
          (A.complete output).mapError Abort.error),
        (A.play (Agent.workResult A.sha A.world.showStatus r assignment) s).2.store) := by
  obtain ⟨hresult, hstore⟩ := materializeInputs_does (A := A) r assignment.task 0 assignment.inputs s
  unfold Agent.workResult executeAndCommit
  rw [play_bind, bind_apply, bind_apply]
  cases hrun : A.play (Agent.materializeInputs A.sha A.world.showStatus r assignment.task 0 assignment.inputs) s with
  | mk result s₁ =>
    cases hm : materializeInputs A.sha A.world assignment.task 0 assignment.inputs s.store with
    | mk result' store =>
      rw [hrun, hm] at hresult hstore
      dsimp only at hresult hstore
      subst hresult hstore
      cases result with
      | error error => rfl
      | ok inputs =>
        dsimp only
        rw [play_ask_bind]
        simp only [answer]
        cases executeTaskWithPolicy A.executor assignment.task inputs with
        | error error => rfl
        | ok output =>
          dsimp only
          rw [play_ask_bind, state_bind]
          simp only [answer]
          cases s₁.store.put A.sha A.world.write output with
          | error error => rfl
          | ok entry =>
            obtain ⟨stored, store⟩ := entry
            dsimp only
            rw [play_ask_bind, update_bind]
            simp only [answer]
            change _ = ((A.complete _).mapError Abort.error, store)
            generalize A.complete _ = completed
            cases completed <;> rfl

/-- **Alone, a leased task does what the computation does**: the same result, and the same store in the end. -/
theorem alone_executeAndCommit (r : ResourceId) (assignment : WorkAssignment F) :
    A.Does (Agent.executeAndCommit A.sha A.world.showStatus r assignment)
      (executeAndCommit A.sha A.world A.executor A.env r A.complete assignment) := by
  intro s
  rw [executeAndCommit_workResult]
  unfold Agent.executeAndCommit
  rw [play_bind, bind_ok (play_attempt _ s)]
  cases A.play (Agent.workResult A.sha A.world.showStatus r assignment) s with
  | mk result s₁ =>
    cases result with
    | error error => cases error <;> exact ⟨rfl, rfl⟩
    | ok output =>
      dsimp only
      have hpost : ∀ (lease : ExecutionLease) (s : Solo F), A.play (Agent.post (.completeExecution lease [output])) s =
          (.ok (reception (A.complete output)), { s with sent := some (.completeExecution lease [output]) }) := fun _ _ => rfl
      rw [play_ask_bind, play_ask_bind, play_bind, bind_ok (hpost _ _), expectSuccess_reception]
      cases hcompleted : A.complete output with
      | error error => exact ⟨by rw [Except.bind, hcompleted]; rfl, rfl⟩
      | ok u => exact ⟨by rw [Except.bind, hcompleted]; rfl, rfl⟩

/-- **A task that panics leaves its agent busy**; one that ends otherwise does not. -/
theorem alone_spawned (r : ResourceId) (assignment : WorkAssignment F) (s : Solo F) :
    (A.play (Agent.spawned A.sha A.world.showStatus r assignment) s).1 =
      if busyAfter (executeAndCommit A.sha A.world A.executor A.env r A.complete assignment s.store).1 then
        .error .panic else .ok () := by
  obtain ⟨hresult, -⟩ := alone_executeAndCommit (A := A) r assignment s
  rw [← hresult]
  unfold Agent.spawned
  rw [play_bind, bind_ok (play_attempt _ s)]
  cases (A.play (Agent.executeAndCommit A.sha A.world.showStatus r assignment) s).1 with
  | ok u => rfl
  | error error => cases error <;> rfl

end Plurifold
