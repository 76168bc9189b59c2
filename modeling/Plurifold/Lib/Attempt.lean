import Mathlib.Order.Defs.Unbundled

/-!
# Computations that change a state and may fail

`Attempt σ ε α` runs on a state and ends with a value or an error. An error keeps the changes made before it, as the
`?` operator of Rust does on a `&mut self` method: nothing is rolled back.

* `m.Ends s Q`: the result and the final state of `m` run on `s` satisfy `Q`. The rules (`ends_pure`, `ends_bind`,
  `ends_each`, …) take a program apart along its own structure.
* `m.Along R`: whatever state `m` starts from, it ends in one that the preorder `R` relates to it. This is what every
  part of a program keeps, whether it succeeds or fails (`along_bind`, `along_each`, …).
-/

namespace Lib

/-- A computation on a state that ends with a value or an error. -/
def Attempt (σ ε α : Type) := σ → Except ε α × σ

namespace Attempt

variable {σ ε α β : Type}

instance : Monad (Attempt σ ε) where
  pure a s := (.ok a, s)
  bind m f s := match m s with
    | (.ok a, s') => f a s'
    | (.error e, s') => (.error e, s')

/-- The current state. -/
def state : Attempt σ ε σ := fun s => (.ok s, s)

/-- Change the state. -/
def update (f : σ → σ) : Attempt σ ε Unit := fun s => (.ok (), f s)

/-- End with an error. -/
def fail (e : ε) : Attempt σ ε α := fun s => (.error e, s)

/-- The value of an option, or an error. -/
def okOr (o : Option α) (e : ε) : Attempt σ ε α := match o with
  | some a => pure a
  | none => fail e

/-- The outcome of a computation that does not touch the state. -/
def lift (r : Except ε α) : Attempt σ ε α := fun s => (r, s)

/-- A computation on a part of the state, with its errors translated. -/
def zoom {τ ε' : Type} (get : σ → τ) (set : τ → σ → σ) (err : ε' → ε) (m : Attempt τ ε' α) : Attempt σ ε α := fun s =>
  match m (get s) with
  | (.ok a, t) => (.ok a, set t s)
  | (.error e, t) => (.error (err e), set t s)

/-- Run `f` on the elements of a list in order, with their positions from `i` on, up to the first error. -/
def eachFrom (f : Nat → α → Attempt σ ε Unit) : Nat → List α → Attempt σ ε Unit
  | _, [] => pure ()
  | i, a :: l => do
    f i a
    eachFrom f (i + 1) l

/-- Run `f` on the elements of a list in order, up to the first error. -/
def each (l : List α) (f : Nat → α → Attempt σ ε Unit) : Attempt σ ε Unit := eachFrom f 0 l

/-! ## Running -/

@[simp] theorem pure_apply (a : α) (s : σ) : (pure a : Attempt σ ε α) s = (.ok a, s) := rfl

theorem bind_apply (m : Attempt σ ε α) (f : α → Attempt σ ε β) (s : σ) :
    (m >>= f) s = match m s with
      | (.ok a, s') => f a s'
      | (.error e, s') => (.error e, s') := rfl

theorem bind_ok {m : Attempt σ ε α} {f : α → Attempt σ ε β} {s s' : σ} {a : α} (h : m s = (.ok a, s')) :
    (m >>= f) s = f a s' := by rw [bind_apply, h]

theorem bind_error {m : Attempt σ ε α} {f : α → Attempt σ ε β} {s s' : σ} {e : ε} (h : m s = (.error e, s')) :
    (m >>= f) s = (.error e, s') := by rw [bind_apply, h]

@[simp] theorem state_bind (f : σ → Attempt σ ε β) (s : σ) : (state >>= f) s = f s s := rfl

@[simp] theorem update_bind (g : σ → σ) (f : Unit → Attempt σ ε β) (s : σ) : (update g >>= f) s = f () (g s) := rfl

@[simp] theorem fail_apply (e : ε) (s : σ) : (fail e : Attempt σ ε α) s = (.error e, s) := rfl

@[simp] theorem fail_bind (e : ε) (f : α → Attempt σ ε β) (s : σ) :
    ((fail e : Attempt σ ε α) >>= f) s = (.error e, s) := rfl

@[simp] theorem okOr_some (a : α) (e : ε) : (okOr (some a) e : Attempt σ ε α) = pure a := rfl

@[simp] theorem okOr_none (e : ε) : (okOr none e : Attempt σ ε α) = fail e := rfl

@[simp] theorem update_apply (g : σ → σ) (s : σ) : (update g : Attempt σ ε Unit) s = (.ok (), g s) := rfl

@[simp] theorem lift_ok (a : α) : (lift (.ok a) : Attempt σ ε α) = pure a := rfl

@[simp] theorem lift_error (e : ε) : (lift (.error e) : Attempt σ ε α) = fail e := rfl

@[simp] theorem pure_bind' (a : α) (f : α → Attempt σ ε β) : (pure a >>= f) = f a := rfl

/-- Wrapping the value of a computation changes neither its state nor whether it fails. -/
theorem bind_pure_apply (m : Attempt σ ε α) (g : α → β) (s : σ) :
    (m >>= fun a => pure (g a)) s = ((m s).1.map g, (m s).2) := by
  rw [bind_apply]
  cases h : m s with
  | mk r s' => cases r <;> rfl

theorem bind_pure_state (m : Attempt σ ε α) (b : β) (s : σ) : ((m >>= fun _ => pure b) s).2 = (m s).2 := by
  rw [bind_pure_apply m (fun _ => b) s]

/-! ## Rules -/

/-- The result and the final state of `m` run on `s` satisfy `Q`. -/
def Ends (m : Attempt σ ε α) (s : σ) (Q : Except ε α → σ → Prop) : Prop := Q (m s).1 (m s).2

theorem ends_pure {a : α} {s : σ} {Q : Except ε α → σ → Prop} (h : Q (.ok a) s) : (pure a : Attempt σ ε α).Ends s Q := h

theorem ends_fail {e : ε} {s : σ} {Q : Except ε α → σ → Prop} (h : Q (.error e) s) :
    (fail e : Attempt σ ε α).Ends s Q := h

theorem ends_mono {m : Attempt σ ε α} {s : σ} {P Q : Except ε α → σ → Prop} (h : m.Ends s P)
    (hPQ : ∀ r s', P r s' → Q r s') : m.Ends s Q := hPQ _ _ h

theorem ends_state_bind {f : σ → Attempt σ ε β} {s : σ} {Q : Except ε β → σ → Prop} :
    (state >>= f).Ends s Q ↔ (f s).Ends s Q := Iff.rfl

theorem ends_update_bind {g : σ → σ} {f : Unit → Attempt σ ε β} {s : σ} {Q : Except ε β → σ → Prop} :
    (update g >>= f).Ends s Q ↔ (f ()).Ends (g s) Q := Iff.rfl

/-- Sequencing: the rest runs from where the first part ended, unless it failed. -/
theorem ends_bind {m : Attempt σ ε α} {f : α → Attempt σ ε β} {s : σ} {P : Except ε α → σ → Prop}
    {Q : Except ε β → σ → Prop} (hm : m.Ends s P) (hok : ∀ a s', P (.ok a) s' → (f a).Ends s' Q)
    (herr : ∀ e s', P (.error e) s' → Q (.error e) s') : (m >>= f).Ends s Q := by
  unfold Ends at hm ⊢
  rw [bind_apply]
  cases hr : m s with
  | mk r s' =>
    rw [hr] at hm
    cases r with
    | ok a => exact hok a s' hm
    | error e => exact herr e s' hm

/-- A loop keeps an invariant that may mention the elements still to come. -/
theorem ends_eachFrom {f : Nat → α → Attempt σ ε Unit} {I : Nat → List α → σ → Prop} {E : ε → σ → Prop}
    (hf : ∀ i a l s, I i (a :: l) s →
      (f i a).Ends s fun r s' => match r with | .ok _ => I (i + 1) l s' | .error e => E e s') :
    ∀ (l : List α) (i : Nat) (s : σ), I i l s →
      (eachFrom f i l).Ends s fun r s' => match r with | .ok _ => I (i + l.length) [] s' | .error e => E e s'
  | [], _, _, h => h
  | a :: l, i, s, h => by
    refine ends_bind (hf i a l s h) (fun _ s' h' => ?_) fun _ _ h' => h'
    have := ends_eachFrom hf l (i + 1) s' h'
    rwa [show i + 1 + l.length = i + (a :: l).length by simp only [List.length_cons]; omega] at this

theorem ends_each {f : Nat → α → Attempt σ ε Unit} {l : List α} {s : σ} (I : Nat → List α → σ → Prop)
    (E : ε → σ → Prop) (h : I 0 l s)
    (hf : ∀ i a l s, I i (a :: l) s →
      (f i a).Ends s fun r s' => match r with | .ok _ => I (i + 1) l s' | .error e => E e s') :
    (each l f).Ends s fun r s' => match r with | .ok _ => I l.length [] s' | .error e => E e s' := by
  have := ends_eachFrom hf l 0 s h
  rwa [Nat.zero_add] at this

/-! ## What every path keeps -/

/-- Whatever state `m` starts from, it ends in one related to it. -/
def Along (R : σ → σ → Prop) (m : Attempt σ ε α) : Prop := ∀ s, R s (m s).2

theorem along_update {R : σ → σ → Prop} {f : σ → σ} (h : ∀ s, R s (f s)) : (update f : Attempt σ ε Unit).Along R := h

theorem along_state_bind {R : σ → σ → Prop} {f : σ → Attempt σ ε α} (h : ∀ s, R s (f s s).2) :
    (state >>= f).Along R := h

/-- If the invariant holds before, it holds after. -/
def Preserves (I : σ → Prop) (s s' : σ) : Prop := I s → I s'

instance (I : σ → Prop) : IsPreorder σ (Preserves I) where
  refl _ h := h
  trans _ _ _ hab hbc h := hbc (hab h)

/-- The invariant holds of the state that is read. -/
theorem along_state_preserves {I : σ → Prop} {f : σ → Attempt σ ε α} (h : ∀ s, I s → (f s).Along (Preserves I)) :
    (state >>= f).Along (Preserves I) := fun s hs => h s hs s hs

section Along

variable {R : σ → σ → Prop} [IsPreorder σ R]

theorem along_pure (a : α) : (pure a : Attempt σ ε α).Along R := fun s => refl_of R s

theorem along_fail (e : ε) : (fail e : Attempt σ ε α).Along R := fun s => refl_of R s

theorem along_state : (state : Attempt σ ε σ).Along R := fun s => refl_of R s

theorem along_lift (r : Except ε α) : (lift r : Attempt σ ε α).Along R := fun s => refl_of R s

theorem along_okOr (o : Option α) (e : ε) : (okOr o e : Attempt σ ε α).Along R := by
  cases o with
  | none => exact along_fail e
  | some a => exact along_pure a

theorem along_okOr_bind {o : Option α} {e : ε} {f : α → Attempt σ ε β} (hf : ∀ a, o = some a → (f a).Along R) :
    (okOr o e >>= f).Along R := by
  cases o with
  | none => exact along_fail e
  | some a => exact hf a rfl

theorem along_bind {m : Attempt σ ε α} {f : α → Attempt σ ε β} (hm : m.Along R) (hf : ∀ a, (f a).Along R) :
    (m >>= f).Along R := by
  intro s
  have h := hm s
  rw [bind_apply]
  cases hr : m s with
  | mk r s' =>
    rw [hr] at h
    cases r with
    | ok a => exact trans_of R h (hf a s')
    | error e => exact h

/-- The first two parts may be taken as one. -/
theorem along_bind_bind {γ : Type} {m : Attempt σ ε α} {f : α → Attempt σ ε β} {g : α → β → Attempt σ ε γ}
    (hmf : (m >>= f).Along R) (hg : ∀ a b, (g a b).Along R) : (m >>= fun a => f a >>= g a).Along R := by
  intro s
  have h := hmf s
  rw [bind_apply] at h ⊢
  cases hr : m s with
  | mk r s' =>
    rw [hr] at h
    cases r with
    | ok a =>
      dsimp only at h ⊢
      rw [bind_apply]
      cases hr' : f a s' with
      | mk r' s'' =>
        rw [hr'] at h
        cases r' with
        | ok b => exact trans_of R h (hg a b s'')
        | error e => exact h
    | error e => exact h

theorem along_eachFrom_mem {f : Nat → α → Attempt σ ε Unit} :
    ∀ (l : List α) (i : Nat), (∀ i, ∀ a ∈ l, (f i a).Along R) → (eachFrom f i l).Along R
  | [], _, _ => along_pure ()
  | a :: l, i, hf => along_bind (hf i a (List.mem_cons_self ..)) fun _ =>
      along_eachFrom_mem l (i + 1) fun i a ha => hf i a (List.mem_cons_of_mem _ ha)

theorem along_eachFrom {f : Nat → α → Attempt σ ε Unit} (hf : ∀ i a, (f i a).Along R) (l : List α) (i : Nat) :
    (eachFrom f i l).Along R := along_eachFrom_mem l i fun i a _ => hf i a

theorem along_each {f : Nat → α → Attempt σ ε Unit} (l : List α) (hf : ∀ i a, (f i a).Along R) :
    (each l f).Along R := along_eachFrom hf l 0

end Along

end Attempt

end Lib
