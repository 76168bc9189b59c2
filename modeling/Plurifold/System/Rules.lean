import Plurifold.System.Steps

/-!
# Rules for sound routines

`Safely` is soundness of a routine among the processes of a deployment: whatever the others do in between, it asks only
what it may ask, and ends as stated, unless hashes have collided. `Quietly` says besides that everything that has happened
by its end may have happened without it. There is a rule for each way to build a routine.
-/

namespace Plurifold

open Lib Attempt Fabric CoordinatorState Threads Site

variable {F : Type} [F64 F] {d : Deployment F} {e ids : Env} {m x : UInt64} {i : Party} {site s s' : Site F} {α β : Type}

/-! ## Rules -/

/-- The routine is sound and ends as `Q` says, unless hashes have collided. -/
def Safely (d : Deployment F) (e ids : Env) (m x : UInt64) (i : Party) (Q : Except Abort α → Site F → Prop)
    (p : Routine F α) (site : Site F) : Prop :=
  (threads d e ids).Sound (soundTerms d e m x) i (fun r s => Sane d.sha s → Q r s) p site

section Rules

variable {Q M : Except Abort α → Site F → Prop}

/-- Whatever is asked, no stored blob is forgotten. -/
theorem answer_written {chance : Chance F} {question : Question F} {answer : question.Answer}
    (h : Site.answer d e ids i chance question s = some (answer, s')) : s.written ⊆ s'.written := by
  have put : ∀ {disk : Except String Unit} {r : ResourceId} {bytes : Bytes} {result : Except StoreError String}
      {s s' : Site F}, s.putBlob d disk r bytes = (result, s') → s.written ⊆ s'.written := by
    intro disk r bytes result s s' hput
    unfold putBlob at hput
    split at hput
    · cases hput
      exact List.Subset.refl _
    · cases hput
      exact List.subset_cons_self ..
  have agent : ∀ {α : Type} {f : ResourceId → α × Site F} {a : α}, s.onAgent i f = some (a, s') → ∃ r, f r = (a, s') := by
    intro α f a hf
    obtain ⟨r, -, hr⟩ := Option.map_eq_some_iff.mp hf
    exact ⟨r, hr⟩
  have cell : ∀ {α : Type} {f : Nat → ExecutionCell F → α × Site F} {a : α}, s.onCell i f = some (a, s') →
      ∃ n c, f n c = (a, s') := by
    intro α f a hf
    obtain ⟨n, -, hn⟩ := Option.bind_eq_some_iff.mp hf
    obtain ⟨c, -, hc⟩ := Option.map_eq_some_iff.mp hn
    exact ⟨n, c, hc⟩
  cases question with
  | put bytes =>
    obtain ⟨r, hr⟩ := agent h
    exact put hr
  | upload agent bytes =>
    have hupload := Option.some.inj h
    unfold upload at hupload
    split at hupload
    · cases hupload
      exact List.Subset.refl _
    · cases hupload
      exact List.Subset.refl _
    · rename_i r _ _
      have hwritten : s.written ⊆ (s.putObject d ids chance.disk r bytes).2.written := by
        unfold putObject
        cases hput : s.putBlob d chance.disk r bytes with
        | mk result s₁ =>
          cases result with
          | error error => exact put hput
          | ok stored =>
            have hstored : s.written ⊆ s₁.written := put hput
            exact hstored
      cases hobject : s.putObject d ids chance.disk r bytes with
      | mk result s₁ =>
        rw [hobject] at hupload hwritten
        cases result with
        | error error =>
          cases hupload
          exact hwritten
        | ok object =>
          cases hupload
          exact hwritten
  | serve n =>
    cases h
    unfold serveExchange
    split
    · exact List.Subset.refl _
    · split <;> exact List.Subset.refl _
  | swapProbing lease =>
    obtain ⟨r, hr⟩ := agent h
    split at hr <;> cases hr <;> exact List.Subset.refl _
  | contains | get | busy | spawn | probing | clearProbing =>
    obtain ⟨r, hr⟩ := agent h
    cases hr
    exact List.Subset.refl _
  | execute | clearBusy | leaseState | setLeaseState | abortRenewal =>
    obtain ⟨n, c, hc⟩ := cell h
    cases hc
    exact List.Subset.refl _
  | receive n =>
    obtain ⟨reception, -, hreception⟩ := Option.map_eq_some_iff.mp h
    cases hreception
    exact List.Subset.refl _
  | fetch | fetchProbe | send | resources | newObjectId | nowUnixMs | sleep | assignment | maintain =>
    cases h
    exact List.Subset.refl _

theorem perform_some {chance : Chance F} {question : Question F} {answer : question.Answer}
    (h : (threads d e ids).perform i chance question s = some (answer, s')) :
    Site.answer d e ids i chance question s = some (answer, s') := by
  have hperform : (if s.cancelled chance i then none else s.answer d e ids i chance question) = some (answer, s') := h
  split at hperform
  · cases hperform
  · exact hperform

theorem bad_stays (i : Party) (chance : Chance F) (question : Question F) (s : Site F) (answer : question.Answer)
    (s' : Site F) (h : (threads d e ids).perform i chance question s = some (answer, s')) (hbad : ¬Sane d.sha s) :
    ¬Sane d.sha s' := by
  intro hsane
  have hwritten := answer_written (perform_some h)
  exact hbad ⟨fun b hb b' hb' => hsane.hex_inj b (hwritten hb) b' (hwritten hb'), fun b hb => hsane.sizes b (hwritten hb)⟩

theorem Safely.stays {P : Site F → Prop} (h : ∀ s, Ok d e m x s → Sane d.sha s → Since i site s → P s) :
    (soundTerms d e m x).Stays i (fun s => Sane d.sha s → P s) site :=
  Terms.stays_unless (E := collided d e m x) (fun s hsane hok hsince _ => h s hok (not_not.mp hsane) hsince) fun _ hbad hsane => absurd hsane hbad

theorem Safely.pure {a : α} (h : ∀ s, Ok d e m x s → Sane d.sha s → Since i site s → Q (.ok a) s) :
    Safely d e ids m x i Q (Pure.pure a) site := Safely.stays h

theorem Safely.fail {error : Abort} (h : ∀ s, Ok d e m x s → Sane d.sha s → Since i site s → Q (.error error) s) :
    Safely d e ids m x i Q (.fail error) site := Safely.stays h

/-- A question that may be asked, and a routine that is sound after every answer. -/
theorem Safely.ask {question : Question F} {f : question.Answer → Routine F α}
    (h : ∀ s, Ok d e m x s → Sane d.sha s → Since i site s → ∀ chance answer s',
      Site.answer d e ids i chance question s = some (answer, s') →
      Kept d e m x i s s' ∧ (Sane d.sha s' → Safely d e ids m x i Q (f answer) s')) :
    Safely d e ids m x i Q (Agent.ask question >>= f) site := by
  refine sound_unless (E := collided d e m x) bad_stays (fun r s hbad hsane => absurd hsane hbad) fun s hsane hok hsince chance answer s' hperform
    hsane' => ?_
  obtain ⟨hkept, hnext⟩ := h s hok (not_not.mp hsane) hsince chance answer s' (perform_some hperform)
  exact ⟨hkept.ok, fun j hj => ⟨hkept.later, hkept.undisturbed j hj⟩, hnext (not_not.mp hsane')⟩

/-- A question at the end. -/
theorem Safely.ask_last {question : Question F} {Q : Except Abort question.Answer → Site F → Prop}
    (h : ∀ s, Ok d e m x s → Sane d.sha s → Since i site s → ∀ chance answer s',
      Site.answer d e ids i chance question s = some (answer, s') →
      Kept d e m x i s s' ∧ (Sane d.sha s' → Safely d e ids m x i Q (Pure.pure answer) s')) :
    Safely d e ids m x i Q (Agent.ask question) site := Safely.ask (f := Pure.pure) h

theorem Safely.bind {p : Routine F β} {f : β → Routine F α} {M : Except Abort β → Site F → Prop} (hok : Ok d e m x site)
    (hp : Safely d e ids m x i M p site)
    (hnext : ∀ b s, Ok d e m x s → Sane d.sha s → M (.ok b) s → Safely d e ids m x i Q (f b) s)
    (herror : ∀ error s, Ok d e m x s → Sane d.sha s → M (.error error) s → Q (.error error) s) :
    Safely d e ids m x i Q (p >>= f) site := by
  have hbad : ∀ r (s : Site F), ¬Sane d.sha s → Sane d.sha s → Q r s := fun r s hbad hsane => absurd hsane hbad
  refine sound_bind (.inr hok) hp (fun b s hinv hmid => ?_) fun error s hinv hmid s' hinv' hrely hsane => ?_
  · by_cases hsane : Sane d.sha s
    · have hok' := hinv.resolve_left (not_not.mpr hsane)
      exact hnext b s hok' hsane (Terms.Stays.now hmid hinv hsane)
    · exact sound_of_bad (E := collided d e m x) bad_stays hbad hsane
  · exact herror error s' (hinv'.resolve_left (not_not.mpr hsane)) hsane (hmid s' hinv' hrely hsane)

theorem Safely.mono {p : Routine F α} (hp : Safely d e ids m x i M p site)
    (h : ∀ r s, Ok d e m x s → Sane d.sha s → M r s → Q r s) : Safely d e ids m x i Q p site :=
  Sound.mono hp fun r s hinv hmid hsane => h r s (hinv.resolve_left (not_not.mpr hsane)) hsane (hmid hsane)

/-- The end of a routine, or its error, as a value. -/
theorem Safely.attempt {p : Routine F α} {Q : Except Abort (Except Abort α) → Site F → Prop}
    (hp : Safely d e ids m x i M p site) (h : ∀ r s, Ok d e m x s → Sane d.sha s → M r s → Q (.ok r) s) :
    Safely d e ids m x i Q p.attempt site :=
  sound_attempt hp fun r s hinv hmid hsane => h r s (hinv.resolve_left (not_not.mpr hsane)) hsane (hmid hsane)

/-- The routine is sound, and all that has happened by its end may have happened without it. -/
def Quietly (d : Deployment F) (e ids : Env) (m x : UInt64) (i : Party) (Q : Except Abort α → Site F → Prop)
    (p : Routine F α) (site : Site F) : Prop :=
  Safely d e ids m x i (fun r s => Since i site s ∧ Q r s) p site

theorem Quietly.pure {a : α} (h : ∀ s, Ok d e m x s → Sane d.sha s → Since i site s → Q (.ok a) s) :
    Quietly d e ids m x i Q (Pure.pure a) site :=
  Safely.pure fun s hok hsane hsince => ⟨hsince, h s hok hsane hsince⟩

theorem Quietly.fail {error : Abort} (h : ∀ s, Ok d e m x s → Sane d.sha s → Since i site s → Q (.error error) s) :
    Quietly d e ids m x i Q (.fail error) site :=
  Safely.fail fun s hok hsane hsince => ⟨hsince, h s hok hsane hsince⟩

theorem Quietly.since {p : Routine F α} (hsince : Since i site s) (hp : Quietly d e ids m x i Q p s) :
    Safely d e ids m x i (fun r s' => Since i site s' ∧ Q r s') p s :=
  Safely.mono hp fun _ _ _ _ hpost => ⟨hsince.trans hpost.1, hpost.2⟩

theorem Quietly.ask {question : Question F} {f : question.Answer → Routine F α}
    (h : ∀ s, Ok d e m x s → Sane d.sha s → Since i site s → ∀ chance answer s',
      Site.answer d e ids i chance question s = some (answer, s') →
      (Kept d e m x i s s' ∧ ∀ j, Undisturbed j s s') ∧
        (Ok d e m x s' → Sane d.sha s' → Since i site s' → Quietly d e ids m x i Q (f answer) s')) :
    Quietly d e ids m x i Q (Agent.ask question >>= f) site := by
  refine Safely.ask fun s hok hsane hsince chance answer s' hanswer => ?_
  obtain ⟨⟨hkept, hundisturbed⟩, hnext⟩ := h s hok hsane hsince chance answer s' hanswer
  have hsince' : Since i site s' := hsince.trans ⟨hkept.later, hundisturbed i⟩
  exact ⟨hkept, fun hsane' => (hnext hkept.ok hsane' hsince').since hsince'⟩

theorem Quietly.ask_last {question : Question F} {Q : Except Abort question.Answer → Site F → Prop}
    (h : ∀ s, Ok d e m x s → Sane d.sha s → Since i site s → ∀ chance answer s',
      Site.answer d e ids i chance question s = some (answer, s') →
      (Kept d e m x i s s' ∧ ∀ j, Undisturbed j s s') ∧
        (Ok d e m x s' → Sane d.sha s' → Since i site s' → Quietly d e ids m x i Q (Pure.pure answer) s')) :
    Quietly d e ids m x i Q (Agent.ask question) site := Quietly.ask (f := Pure.pure) h

theorem Quietly.bind {p : Routine F β} {f : β → Routine F α} {M : Except Abort β → Site F → Prop} (hok : Ok d e m x site)
    (hp : Quietly d e ids m x i M p site)
    (hnext : ∀ b s, Ok d e m x s → Sane d.sha s → Since i site s → M (.ok b) s → Quietly d e ids m x i Q (f b) s)
    (herror : ∀ error s, Ok d e m x s → Sane d.sha s → M (.error error) s → Q (.error error) s) :
    Quietly d e ids m x i Q (p >>= f) site :=
  Safely.bind hok hp (fun b s hok hsane hmid => (hnext b s hok hsane hmid.1 hmid.2).since hmid.1)
    fun error s hok hsane hmid => ⟨hmid.1, herror error s hok hsane hmid.2⟩

theorem Quietly.mono {p : Routine F α} (hp : Quietly d e ids m x i M p site)
    (h : ∀ r s, Ok d e m x s → Sane d.sha s → Since i site s → M r s → Q r s) : Quietly d e ids m x i Q p site :=
  Safely.mono hp fun r s hok hsane hmid => ⟨hmid.1, h r s hok hsane hmid.1 hmid.2⟩

theorem Quietly.attempt {p : Routine F α} {Q : Except Abort (Except Abort α) → Site F → Prop}
    (hp : Quietly d e ids m x i M p site) (h : ∀ r s, Ok d e m x s → Sane d.sha s → M r s → Q (.ok r) s) :
    Quietly d e ids m x i Q p.attempt site :=
  Safely.attempt hp fun r s hok hsane hmid => ⟨hmid.1, h r s hok hsane hmid.2⟩

/-- Questions that change nothing. -/
def Looks : Question F → Prop
  | .contains _ | .get _ | .fetch _ _ | .fetchProbe _ _ | .receive _ | .resources | .nowUnixMs | .sleep _ | .busy |
    .assignment | .leaseState | .probing => True
  | _ => False

theorem answer_looks {chance : Chance F} {question : Question F} {answer : question.Answer} (hlooks : Looks question)
    (h : Site.answer d e ids i chance question s = some (answer, s')) : s' = s := by
  cases question with
  | contains | get | busy | probing =>
    obtain ⟨r, -, hr⟩ := Option.map_eq_some_iff.mp h
    cases hr
    rfl
  | leaseState =>
    obtain ⟨n, -, hn⟩ := Option.bind_eq_some_iff.mp h
    obtain ⟨c, -, hc⟩ := Option.map_eq_some_iff.mp hn
    cases hc
    rfl
  | receive n =>
    obtain ⟨reception, -, hreception⟩ := Option.map_eq_some_iff.mp h
    cases hreception
    rfl
  | fetch | fetchProbe | resources | nowUnixMs | sleep | assignment =>
    cases h
    rfl
  | _ => exact hlooks.elim

theorem Quietly.look {question : Question F} {f : question.Answer → Routine F α} (hlooks : Looks question)
    (h : ∀ s, Ok d e m x s → Sane d.sha s → Since i site s → ∀ chance answer,
      Site.answer d e ids i chance question s = some (answer, s) → Quietly d e ids m x i Q (f answer) s) :
    Quietly d e ids m x i Q (Agent.ask question >>= f) site := by
  refine Quietly.ask fun s hok hsane hsince chance answer s' hanswer => ?_
  obtain rfl := answer_looks hlooks hanswer
  exact ⟨⟨.refl hok, fun j => .refl j s'⟩, fun _ _ _ => h s' hok hsane hsince chance answer hanswer⟩

end Rules

end Plurifold
