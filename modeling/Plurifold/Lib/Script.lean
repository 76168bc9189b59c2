import Plurifold.Lib.Attempt
import Plurifold.Lib.Interleaving

/-!
# Programs that ask their surroundings

A `Script` is what a program does up to what it is answered: it ends, fails, or asks a question and goes on with the
answer. Alone, a script is a computation on what answers it (`Script.run`).

`Threads` run scripts side by side. A thread asks one question at a time, and between two questions the others may have
done anything. So what a thread knows has to bear what they do: `Threads.Sound` says that a script asks nothing that breaks
the invariant or what the others rely on, and ends as it should, whatever they do within what it relies on itself. Sound
scripts make an outline of all threads (`Contract.outline`). Terms can be bound to hold only as long as nothing bad has
happened that cannot be undone (`Terms.unless`).
-/

namespace Lib

/-- The questions that can be asked, and what is answered to each. -/
structure Interface where
  Question : Type
  Answer : Question → Type

inductive Script (I : Interface) (ε α : Type)
  | done (a : α)
  | fail (error : ε)
  | ask (question : I.Question) (next : I.Answer question → Script I ε α)

namespace Script

variable {I : Interface} {ε α β σ : Type}

def bind : Script I ε α → (α → Script I ε β) → Script I ε β
  | .done a, f => f a
  | .fail error, _ => .fail error
  | .ask question next, f => .ask question fun answer => bind (next answer) f

instance : Monad (Script I ε) where
  pure := .done
  bind := bind

/-- Ask a question. -/
def put (question : I.Question) : Script I ε (I.Answer question) := .ask question .done

/-- Run a script to its end or to its error. -/
def attempt : Script I ε α → Script I ε (Except ε α)
  | .done a => .done (.ok a)
  | .fail error => .done (.error error)
  | .ask question next => .ask question fun answer => attempt (next answer)

/-- Run a script on a state that answers it. -/
def run (answer : ∀ question : I.Question, σ → I.Answer question × σ) : Script I ε α → Attempt σ ε α
  | .done a => pure a
  | .fail error => Attempt.fail error
  | .ask question next => fun s => run answer (next (answer question s).1) (answer question s).2

section Run

variable {answer : ∀ question : I.Question, σ → I.Answer question × σ}

@[simp] theorem run_pure (a : α) : (pure a : Script I ε α).run answer = pure a := rfl

@[simp] theorem run_fail (error : ε) : (fail error : Script I ε α).run answer = Attempt.fail error := rfl

theorem run_bind (p : Script I ε α) (f : α → Script I ε β) :
    (p >>= f).run answer = p.run answer >>= fun a => (f a).run answer := by
  funext s
  induction p generalizing s with
  | done a => rfl
  | fail error => rfl
  | ask question next ih => exact ih (answer question s).1 (answer question s).2

/-- Running to the error gives it as a value. -/
theorem run_attempt (p : Script I ε α) (s : σ) :
    p.attempt.run answer s = (.ok (p.run answer s).1, (p.run answer s).2) := by
  induction p generalizing s with
  | done a => rfl
  | fail error => rfl
  | ask question next ih => exact ih (answer question s).1 (answer question s).2

end Run

end Script

/-- Threads named by `ι`. A thread that rests with `own` starts the script `start`; `perform` answers a question of a
running script, or lets it wait. Both may depend on an outcome, which the thread does not choose. -/
structure Threads (I : Interface) (ι ω ε τ σ : Type) where
  start : ι → ω → τ → Script I ε τ
  perform : ι → ω → (question : I.Question) → σ → Option (I.Answer question × σ)

/-- What a thread is at. An error ends it. -/
inductive Thread (I : Interface) (ε τ : Type)
  | rests (own : τ)
  | runs (script : Script I ε τ)
  | ended (error : ε)

namespace Threads

variable {I : Interface} {ι ω ε τ σ α β : Type} (T : Threads I ι ω ε τ σ)

def step (i : ι) (outcome : ω) : Thread I ε τ × σ → Thread I ε τ × σ
  | (.rests own, s) => (.runs (T.start i outcome own), s)
  | (.runs (.done own), s) => (.rests own, s)
  | (.runs (.fail error), s) => (.ended error, s)
  | (.runs (.ask question next), s) =>
    match T.perform i outcome question s with
    | none => (.runs (.ask question next), s)
    | some (answer, s) => (.runs (next answer), s)
  | (.ended error, s) => (.ended error, s)

def processes : Processes ι ω (Thread I ε τ) σ := ⟨T.step⟩

/-! ## Sound scripts -/

/-- An invariant of the shared state, and for each thread what it relies on the others to do to it. -/
structure Terms (ι σ : Type) where
  inv : σ → Prop
  rely : ι → σ → σ → Prop
  refl : ∀ i s, rely i s s
  trans : ∀ i {a b c}, rely i a b → rely i b c → rely i a c

namespace Terms

variable (R : Terms ι σ)

/-- What thread `i` knows, now and after anything the others may do. -/
def Stays (i : ι) (P : σ → Prop) (s : σ) : Prop := ∀ s', R.inv s' → R.rely i s s' → P s'

variable {R} {i : ι} {P Q : σ → Prop} {s s' : σ}

theorem Stays.now (h : R.Stays i P s) (hinv : R.inv s) : P s := h s hinv (R.refl i s)

theorem Stays.later (h : R.Stays i P s) (hrely : R.rely i s s') : R.Stays i P s' := fun s'' hinv hlater =>
  h s'' hinv (R.trans i hrely hlater)

theorem Stays.mono (h : R.Stays i P s) (hPQ : ∀ s', R.inv s' → P s' → Q s') : R.Stays i Q s := fun s' hinv hrely =>
  hPQ s' hinv (h s' hinv hrely)

end Terms

open Terms

variable {T} (R : Terms ι σ)

/-- Whatever the others do, the script asks nothing that breaks the terms, and it ends as `post` says. -/
def Sound (T : Threads I ι ω ε τ σ) (R : Terms ι σ) (i : ι) (post : Except ε α → σ → Prop) : Script I ε α → σ → Prop
  | .done a => R.Stays i (post (.ok a))
  | .fail error => R.Stays i (post (.error error))
  | .ask question next => R.Stays i fun s => ∀ outcome answer s', T.perform i outcome question s = some (answer, s') →
      R.inv s' ∧ (∀ j ≠ i, R.rely j s s') ∧ Sound T R i post (next answer) s'

section Sound

variable {R} {i : ι} {post : Except ε α → σ → Prop} {s s' : σ}

theorem Sound.later {p : Script I ε α} (h : T.Sound R i post p s) (hrely : R.rely i s s') : T.Sound R i post p s' := by
  cases p with
  | done a => exact Stays.later h hrely
  | fail error => exact Stays.later h hrely
  | ask question next => exact Stays.later h hrely

theorem Sound.mono {post' : Except ε α → σ → Prop} {p : Script I ε α} (h : T.Sound R i post p s)
    (hpost : ∀ r s', R.inv s' → post r s' → post' r s') : T.Sound R i post' p s := by
  induction p generalizing s with
  | done a => exact Stays.mono h fun s' => hpost (.ok a) s'
  | fail error => exact Stays.mono h fun s' => hpost (.error error) s'
  | ask question next ih =>
    refine Stays.mono h fun s' _ hasks outcome answer s'' hperform => ?_
    obtain ⟨hinv, hrely, hnext⟩ := hasks outcome answer s'' hperform
    exact ⟨hinv, hrely, ih answer hnext⟩

/-- One script after the other. -/
theorem sound_bind {p : Script I ε β} {f : β → Script I ε α} {mid : Except ε β → σ → Prop} (hinv : R.inv s)
    (hp : T.Sound R i mid p s) (hok : ∀ b s', R.inv s' → R.Stays i (mid (.ok b)) s' → T.Sound R i post (f b) s')
    (herror : ∀ error s', R.inv s' → R.Stays i (mid (.error error)) s' → R.Stays i (post (.error error)) s') :
    T.Sound R i post (p >>= f) s := by
  induction p generalizing s with
  | done b => exact hok b s hinv hp
  | fail error => exact herror error s hinv hp
  | ask question next ih =>
    intro s' hinv' hrely outcome answer s'' hperform
    obtain ⟨hinv'', hrely'', hnext⟩ := hp s' hinv' hrely outcome answer s'' hperform
    exact ⟨hinv'', hrely'', ih answer hinv'' hnext⟩

/-- A question, and what is done with the answer. -/
theorem sound_put_bind {question : I.Question} {f : I.Answer question → Script I ε α}
    (h : R.Stays i (fun s => ∀ outcome answer s', T.perform i outcome question s = some (answer, s') →
      R.inv s' ∧ (∀ j ≠ i, R.rely j s s') ∧ T.Sound R i post (f answer) s') s) :
    T.Sound R i post (Script.put question >>= f) s := h

theorem sound_attempt {p : Script I ε α} {mid : Except ε (Except ε α) → σ → Prop} (hp : T.Sound R i post p s)
    (hmid : ∀ r s', R.inv s' → post r s' → mid (.ok r) s') : T.Sound R i mid p.attempt s := by
  induction p generalizing s with
  | done a => exact Stays.mono hp fun s' => hmid (.ok a) s'
  | fail error => exact Stays.mono hp fun s' => hmid (.error error) s'
  | ask question next ih =>
    refine Stays.mono hp fun s' _ hasks outcome answer s'' hperform => ?_
    obtain ⟨hinv, hrely, hnext⟩ := hasks outcome answer s'' hperform
    exact ⟨hinv, hrely, ih answer hnext⟩

end Sound

/-! ## Terms with a way out -/

/-- What is bad, and stays bad whatever the others do. -/
structure Terms.Escape (R : Terms ι σ) where
  bad : σ → Prop
  stays : ∀ {i a b}, R.rely i a b → bad a → bad b

/-- The terms, unless something bad has happened. -/
def Terms.unless (R : Terms ι σ) (E : R.Escape) : Terms ι σ where
  inv s := E.bad s ∨ R.inv s
  rely i a b := E.bad b ∨ R.rely i a b
  refl i s := .inr (R.refl i s)
  trans i := by
    rintro a b c hab (hc | hbc)
    · exact .inl hc
    · exact hab.elim (fun hb => .inl (E.stays hbc hb)) fun hab => .inr (R.trans i hab hbc)

section Unless

variable {R} {E : R.Escape} {i : ι} {post : Except ε α → σ → Prop} {s : σ}

theorem Terms.stays_unless {P : σ → Prop} (h : ∀ s', ¬E.bad s' → R.inv s' → R.rely i s s' → P s')
    (hP : ∀ s', E.bad s' → P s') : (R.unless E).Stays i P s := by
  intro s' hinv hrely
  by_cases hb : E.bad s'
  · exact hP s' hb
  · exact h s' hb (hinv.resolve_left hb) (hrely.resolve_left hb)

/-- Once something bad has happened, nothing is asked of a script any more. -/
theorem sound_of_bad (hstep : ∀ i outcome question s answer s', T.perform i outcome question s = some (answer, s') →
    E.bad s → E.bad s') (hpost : ∀ r s, E.bad s → post r s) {p : Script I ε α} (hs : E.bad s) :
    T.Sound (R.unless E) i post p s := by
  have still : ∀ {s s'}, E.bad s → (R.unless E).rely i s s' → E.bad s' := fun hs hrely =>
    hrely.elim id fun hrely => E.stays hrely hs
  induction p generalizing s with
  | done a => exact fun s' _ hrely => hpost _ s' (still hs hrely)
  | fail error => exact fun s' _ hrely => hpost _ s' (still hs hrely)
  | ask question next ih =>
    intro s' _ hrely outcome answer s'' hperform
    have hs'' := hstep i outcome question s' answer s'' hperform (still hs hrely)
    exact ⟨.inl hs'', fun _ _ => .inl hs'', ih answer hs''⟩

/-- A question is asked, and its answer dealt with, as long as nothing bad has happened. -/
theorem sound_unless (hstep : ∀ i outcome question s answer s', T.perform i outcome question s = some (answer, s') →
    E.bad s → E.bad s') (hpost : ∀ r s, E.bad s → post r s) {question : I.Question} {f : I.Answer question → Script I ε α}
    (h : ∀ s', ¬E.bad s' → R.inv s' → R.rely i s s' → ∀ outcome answer s'',
      T.perform i outcome question s' = some (answer, s'') → ¬E.bad s'' →
      R.inv s'' ∧ (∀ j ≠ i, R.rely j s' s'') ∧ T.Sound (R.unless E) i post (f answer) s'') :
    T.Sound (R.unless E) i post (Script.put question >>= f) s := by
  refine sound_put_bind (Terms.stays_unless (fun s' hs' hinv hrely outcome answer s'' hperform => ?_)
    fun s' hs' outcome answer s'' hperform => ?_)
  · by_cases hs'' : E.bad s''
    · exact ⟨.inl hs'', fun _ _ => .inl hs'', sound_of_bad hstep hpost hs''⟩
    · obtain ⟨hinv', hrely', hnext⟩ := h s' hs' hinv hrely outcome answer s'' hperform hs''
      exact ⟨.inr hinv', fun j hj => .inr (hrely' j hj), hnext⟩
  · have hs'' := hstep i outcome question s' answer s'' hperform hs'
    exact ⟨.inl hs'', fun _ _ => .inl hs'', sound_of_bad hstep hpost hs''⟩

end Unless

/-! ## Sound threads -/

/-- What each thread knows when it rests and when it has ended, such that all scripts are sound. -/
structure Contract (T : Threads I ι ω ε τ σ) where
  terms : Terms ι σ
  rests : ι → τ → σ → Prop
  ended : ι → ε → σ → Prop
  starts : ∀ i outcome own s, terms.inv s → terms.Stays i (rests i own) s →
    T.Sound terms i (fun r => match r with | .ok own => rests i own | .error error => ended i error)
      (T.start i outcome own) s

namespace Contract

variable (C : T.Contract)

/-- What a thread may assert. -/
def asserts (i : ι) : Thread I ε τ → σ → Prop
  | .rests own => C.terms.Stays i (C.rests i own)
  | .runs script => T.Sound C.terms i (fun r => match r with | .ok own => C.rests i own | .error error => C.ended i error)
      script
  | .ended error => C.terms.Stays i (C.ended i error)

variable {C}

theorem asserts_later {i : ι} {thread : Thread I ε τ} {s s' : σ} (h : C.asserts i thread s) (hrely : C.terms.rely i s s') :
    C.asserts i thread s' := by
  cases thread with
  | rests own => exact Stays.later h hrely
  | runs script => exact Sound.later h hrely
  | ended error => exact Stays.later h hrely

/-- What a step keeps. -/
theorem step_keeps {i : ι} {outcome : ω} {thread : Thread I ε τ} {s : σ} (hinv : C.terms.inv s) (h : C.asserts i thread s) :
    (C.terms.inv (T.step i outcome (thread, s)).2 ∧ ∀ j ≠ i, C.terms.rely j s (T.step i outcome (thread, s)).2) ∧
      C.asserts i (T.step i outcome (thread, s)).1 (T.step i outcome (thread, s)).2 := by
  have still : C.terms.inv s ∧ ∀ j ≠ i, C.terms.rely j s s := ⟨hinv, fun j _ => C.terms.refl j s⟩
  cases thread with
  | rests own => exact ⟨still, C.starts i outcome own s hinv h⟩
  | ended error => exact ⟨still, h⟩
  | runs script =>
    cases script with
    | done own => exact ⟨still, h⟩
    | fail error => exact ⟨still, h⟩
    | ask question next =>
      have hasks := Stays.now h hinv
      rw [step]
      cases hperform : T.perform i outcome question s with
      | none => exact ⟨still, h⟩
      | some answered =>
        obtain ⟨hinv', hrely, hnext⟩ := hasks outcome answered.1 answered.2 hperform
        exact ⟨⟨hinv', hrely⟩, hnext⟩

/-- **Sound threads do not interfere with each other.** -/
def outline (C : T.Contract) : Outline T.processes where
  inv := C.terms.inv
  asserts := C.asserts
  keeps _ _ _ _ hinv h := ⟨(step_keeps hinv h).1.1, (step_keeps hinv h).2⟩
  interferes _ _ _ _ hinv h j _ hj hother := asserts_later hother ((step_keeps hinv h).1.2 j hj)

end Contract

end Threads

end Lib
