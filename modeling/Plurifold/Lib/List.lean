import Mathlib.Data.List.Chain
import Mathlib.Data.List.Forall2

/-!
# Lists and loops

Rules for programs that loop over a list: a search that keeps the best candidate so far, a fold that may stop, what
comes first in a list, and lists whose elements correspond.
-/

namespace Lib

/-- A candidate that is compared with the best so far replaces it or leaves it. -/
theorem replaced_or_kept {α : Type} {replace : Prop} [Decidable replace] {candidate a : α} {best : Option α}
    (h : (if replace then some candidate else best) = some a) : candidate = a ∨ best = some a := by
  split at h
  · exact .inl (Option.some.inj h)
  · exact .inr h

/-- A search that replaces the best so far ends with its start or with one of the candidates. -/
theorem foldl_kept {α : Type} {replace : α → Option α → Bool} {a : α} : ∀ {l : List α} {best : Option α},
    l.foldl (fun best c => if replace c best then some c else best) best = some a → best = some a ∨ a ∈ l
  | [], _, h => .inl h
  | c :: l, best, h => by
    rw [List.foldl_cons] at h
    rcases foldl_kept h with h | h
    · rcases replaced_or_kept h with rfl | h
      · exact .inr (List.mem_cons_self ..)
      · exact .inl h
    · exact .inr (List.mem_cons_of_mem _ h)

/-- What holds of the start and is kept by every round holds of the result of a fold that may stop. -/
theorem foldlM_some_inv {α β : Type} {I : β → Prop} {f : β → α → Option β} : ∀ (l : List α) {b b' : β}, I b →
    (∀ b a b', a ∈ l → I b → f b a = some b' → I b') → l.foldlM f b = some b' → I b'
  | [], b, b', hb, _, h => by
    rw [List.foldlM_nil] at h
    exact Option.some.inj h ▸ hb
  | a :: l, b, b', hb, hf, h => by
    rw [List.foldlM_cons] at h
    obtain ⟨next, hnext, h⟩ := Option.bind_eq_some_iff.mp h
    exact foldlM_some_inv l (hf b a next (List.mem_cons_self ..) hb hnext)
      (fun b a b' ha => hf b a b' (List.mem_cons_of_mem _ ha)) h

/-- A fold stops at an element at which every round stops. -/
theorem foldlM_eq_none {α β : Type} {f : β → α → Option β} {a : α} (ha : ∀ b, f b a = none) : ∀ {l : List α} (b : β),
    a ∈ l → l.foldlM f b = none
  | first :: l, b, hmem => by
    rw [List.foldlM_cons]
    rcases List.mem_cons.mp hmem with rfl | hmem
    · rw [ha b]
      rfl
    · cases f b first with
      | none => rfl
      | some b' => exact foldlM_eq_none ha b' hmem

/-- When every round adds what its element contributes to what is gathered, the fold gathers all contributions. -/
theorem foldlM_gathers {α β γ : Type} {I : (γ → Prop) → β → Prop} {f : β → α → Option β} {D : α → γ → Prop} :
    ∀ (l : List α), (∀ a ∈ l, ∀ C b, I C b → ∃ b', f b a = some b' ∧ I (fun c => C c ∨ D a c) b') →
    ∀ {C : γ → Prop} {b : β}, I C b → ∃ b', l.foldlM f b = some b' ∧ I (fun c => C c ∨ ∃ a ∈ l, D a c) b'
  | [], _, C, b, hb => ⟨b, rfl, by simpa using hb⟩
  | a :: l, hf, C, b, hb => by
    obtain ⟨next, hnext, hnextI⟩ := hf a (List.mem_cons_self ..) C b hb
    obtain ⟨b', hb', hI⟩ := foldlM_gathers l (fun a ha => hf a (List.mem_cons_of_mem _ ha)) hnextI
    refine ⟨b', ?_, ?_⟩
    · rw [List.foldlM_cons, hnext]
      exact hb'
    · simpa only [List.mem_cons, exists_eq_or_imp, or_assoc] using hI

/-- The same for a fold that does not stop. -/
theorem foldl_gathers {α β γ : Type} {I : (γ → Prop) → β → Prop} {f : β → α → β} {D : α → γ → Prop} :
    ∀ (l : List α), (∀ a ∈ l, ∀ C b, I C b → I (fun c => C c ∨ D a c) (f b a)) →
    ∀ {C : γ → Prop} {b : β}, I C b → I (fun c => C c ∨ ∃ a ∈ l, D a c) (l.foldl f b)
  | [], _, C, b, hb => by simpa using hb
  | a :: l, hf, C, b, hb => by
    have hI := foldl_gathers l (fun a ha => hf a (List.mem_cons_of_mem _ ha)) (hf a (List.mem_cons_self ..) C b hb)
    rw [List.foldl_cons]
    simpa only [List.mem_cons, exists_eq_or_imp, or_assoc] using hI

/-- A loop of checks passes when every check does. -/
theorem forM_ok_iff {α ε : Type} {f : α → Except ε Unit} : ∀ {l : List α}, l.forM f = .ok () ↔ ∀ a ∈ l, f a = .ok ()
  | [] => ⟨fun _ _ h => absurd h List.not_mem_nil, fun _ => rfl⟩
  | a :: l => by
    rw [List.forall_mem_cons, ← forM_ok_iff (l := l)]
    change (f a >>= fun _ => l.forM f) = .ok () ↔ _
    cases f a with
    | error e => simp [bind, Except.bind]
    | ok u => simp [bind, Except.bind]

theorem exists_mem_zipIdx {α : Type} {l : List α} {a : α} (h : a ∈ l) : ∃ i, (a, i) ∈ l.zipIdx := by
  obtain ⟨i, hi⟩ := List.mem_iff_getElem?.mp h
  exact ⟨i, List.mem_zipIdx_iff_getElem?.mpr hi⟩

/-- Some element has `p`, and none before it has `q`. -/
def Precedes {α : Type} (p q : α → Prop) (l : List α) : Prop :=
  ∃ before a after, l = before ++ a :: after ∧ (∀ b ∈ before, ¬q b) ∧ p a

theorem precedes_cons {α : Type} {p q : α → Prop} {a : α} {l : List α} :
    Precedes p q (a :: l) ↔ p a ∨ (¬q a ∧ Precedes p q l) := by
  constructor
  · rintro ⟨before, b, after, h, hbefore, hb⟩
    cases before with
    | nil =>
      obtain ⟨rfl, -⟩ := List.cons.inj h
      exact .inl hb
    | cons first before =>
      obtain ⟨rfl, rfl⟩ := List.cons.inj h
      obtain ⟨hfirst, hbefore⟩ := List.forall_mem_cons.mp hbefore
      exact .inr ⟨hfirst, before, b, after, rfl, hbefore, hb⟩
  · rintro (ha | ⟨ha, before, b, after, rfl, hbefore, hb⟩)
    · exact ⟨[], a, l, rfl, by simp, ha⟩
    · exact ⟨a :: before, b, after, rfl, List.forall_mem_cons.mpr ⟨ha, hbefore⟩, hb⟩

/-! ## Correspondence -/

/-- A map that may fail, element by element. -/
theorem mapM_eq_some_iff {α β : Type} {f : α → Option β} : ∀ {l : List α} {l' : List β},
    l.mapM f = some l' ↔ List.Forall₂ (fun a b => f a = some b) l l'
  | [], l' => by
    rw [List.mapM_nil, List.forall₂_nil_left_iff]
    exact ⟨fun h => (Option.some.inj h).symm, fun h => congrArg some h.symm⟩
  | a :: l, l' => by
    rw [List.mapM_cons, List.forall₂_cons_left_iff]
    simp only [Option.bind_eq_bind, Option.bind_eq_some_iff, Option.pure_def, Option.some.injEq]
    constructor
    · rintro ⟨b, hb, rest, hrest, rfl⟩
      exact ⟨b, rest, hb, mapM_eq_some_iff.mp hrest, rfl⟩
    · rintro ⟨b, rest, hb, hrest, rfl⟩
      exact ⟨b, hb, rest, mapM_eq_some_iff.mpr hrest, rfl⟩

/-- A `mapM` that does not fail has mapped every element. -/
theorem mapM_ok_iff {α β ε : Type} {f : α → Except ε β} : ∀ {l : List α} {l' : List β},
    l.mapM f = .ok l' ↔ List.Forall₂ (fun a b => f a = .ok b) l l'
  | [], l' => by
    constructor
    · intro h
      cases h
      exact .nil
    · rintro ⟨⟩
      rfl
  | a :: l, l' => by
    rw [List.mapM_cons]
    cases ha : f a with
    | error err =>
      constructor
      · intro h
        cases h
      · rintro ⟨⟩
        rename_i hb _
        rw [ha] at hb
        cases hb
    | ok b =>
      cases hl : l.mapM f with
      | error err =>
        constructor
        · intro h
          cases h
        · rintro ⟨⟩
          rename_i hrest
          rw [mapM_ok_iff.mpr hrest] at hl
          cases hl
      | ok bs =>
        constructor
        · intro h
          cases h
          exact .cons ha (mapM_ok_iff.mp hl)
        · rintro ⟨⟩
          rename_i b' bs' hb hrest
          rw [ha] at hb
          rw [mapM_ok_iff.mpr hrest] at hl
          cases hb
          cases hl
          rfl

theorem forall₂_mem_right {α β : Type*} {R : α → β → Prop} {l : List α} {l' : List β} (h : List.Forall₂ R l l') {b : β}
    (hb : b ∈ l') : ∃ a ∈ l, R a b := by
  induction h with
  | nil => cases hb
  | @cons a b' l l' hab _ ih =>
    rcases List.mem_cons.mp hb with rfl | hb
    · exact ⟨a, List.mem_cons_self .., hab⟩
    · obtain ⟨a', ha', h'⟩ := ih hb
      exact ⟨a', List.mem_cons_of_mem _ ha', h'⟩

theorem forall₂_mem_left {α β : Type*} {R : α → β → Prop} {l : List α} {l' : List β} (h : List.Forall₂ R l l') {a : α}
    (ha : a ∈ l) : ∃ b ∈ l', R a b := forall₂_mem_right h.flip ha

/-- Lists related to the same list are equal, if what is related to the same element is. -/
theorem forall₂_agree {α β : Type*} {R S : α → β → Prop} {l : List α} {l' l'' : List β} (h : List.Forall₂ R l l')
    (h' : List.Forall₂ S l l'') (hagree : ∀ a ∈ l, ∀ b c, R a b → S a c → b = c) : l' = l'' := by
  induction h generalizing l'' with
  | nil =>
    cases h'
    rfl
  | @cons a b l l' hab _ ih =>
    cases h' with
    | @cons _ c _ l'' hac hrest =>
      rw [hagree a (List.mem_cons_self ..) b c hab hac,
        ih hrest fun a ha => hagree a (List.mem_cons_of_mem _ ha)]

/-- Where the first list is cut, the second one is. -/
theorem forall₂_split {α β : Type*} {R : α → β → Prop} {a : α} {rest : List α} : ∀ {l : List α} {l' : List β},
    List.Forall₂ R (l ++ a :: rest) l' → ∃ front b back, l' = front ++ b :: back ∧ List.Forall₂ R l front ∧ R a b
  | [], b :: back, h => ⟨[], b, back, rfl, .nil, (List.forall₂_cons.mp h).1⟩
  | _ :: _, b :: _, h => by
    obtain ⟨hb, hrest⟩ := List.forall₂_cons.mp h
    obtain ⟨front, b', back, rfl, hfront, hcut⟩ := forall₂_split hrest
    exact ⟨b :: front, b', back, rfl, .cons hb hfront, hcut⟩

/-- Where the first list is an append, so is the second one. -/
theorem forall₂_append_left {α β : Type*} {R : α → β → Prop} : ∀ {l l₂ : List α} {l' : List β},
    List.Forall₂ R (l ++ l₂) l' → ∃ front back, l' = front ++ back ∧ List.Forall₂ R l front ∧ List.Forall₂ R l₂ back
  | [], _, l', h => ⟨[], l', rfl, .nil, h⟩
  | _ :: _, _, b :: _, h => by
    obtain ⟨hb, hrest⟩ := List.forall₂_cons.mp h
    obtain ⟨front, back, rfl, hfront, hback⟩ := forall₂_append_left hrest
    exact ⟨b :: front, back, rfl, .cons hb hfront, hback⟩

theorem forall₂_getElem? {α β : Type*} {R : α → β → Prop} {l : List α} {l' : List β} (h : List.Forall₂ R l l') {i : Nat}
    {a : α} (hi : l[i]? = some a) : ∃ b, l'[i]? = some b ∧ R a b := by
  obtain ⟨hlt, rfl⟩ := List.getElem?_eq_some_iff.mp hi
  obtain ⟨hlength, hget⟩ := List.forall₂_iff_get.mp h
  exact ⟨l'[i], List.getElem?_eq_getElem (hlength ▸ hlt), hget i hlt (hlength ▸ hlt)⟩

theorem forall₂_imp_mem {α β : Type} {R S : α → β → Prop} {l : List α} {l' : List β} (h : List.Forall₂ R l l') :
    (∀ a ∈ l, ∀ b ∈ l', R a b → S a b) → List.Forall₂ S l l' := by
  induction h with
  | nil => exact fun _ => .nil
  | cons hab _ ih =>
    intro hs
    refine .cons (hs _ (List.mem_cons_self ..) _ (List.mem_cons_self ..) hab) (ih fun a ha b hb => ?_)
    exact hs a (List.mem_cons_of_mem _ ha) b (List.mem_cons_of_mem _ hb)

/-- Witnesses for every pair, as a list. -/
theorem forall₂_exists {α β γ : Type} {R : α → β → γ → Prop} {l : List α} {l' : List β}
    (h : List.Forall₂ (fun a b => ∃ c, R a b c) l l') :
    ∃ cs, List.Forall₂ (fun a c => ∃ b, R a b c) l cs ∧ List.Forall₂ (fun b c => ∃ a, R a b c) l' cs := by
  induction h with
  | nil => exact ⟨[], .nil, .nil⟩
  | @cons a b _ _ hab _ ih =>
    obtain ⟨c, hc⟩ := hab
    obtain ⟨cs, hleft, hright⟩ := ih
    exact ⟨c :: cs, .cons ⟨b, hc⟩ hleft, .cons ⟨a, hc⟩ hright⟩

/-- Elements that are each related to something are related to a list. -/
theorem exists_forall₂ {α β : Type} {R : α → β → Prop} : ∀ {l : List α}, (∀ a ∈ l, ∃ b, R a b) →
    ∃ l', List.Forall₂ R l l'
  | [], _ => ⟨[], .nil⟩
  | a :: l, h => by
    obtain ⟨b, hb⟩ := h a (List.mem_cons_self ..)
    obtain ⟨l', hl⟩ := exists_forall₂ fun a ha => h a (List.mem_cons_of_mem _ ha)
    exact ⟨b :: l', .cons hb hl⟩

theorem map_eq_of_forall₂ {α β γ : Type} {f : α → γ} {g : β → γ} {l : List α} {l' : List β}
    (h : List.Forall₂ (fun a b => g b = f a) l l') : l'.map g = l.map f := by
  induction h with
  | nil => rfl
  | cons hab _ ih => rw [List.map_cons, List.map_cons, hab, ih]

theorem getElem?_of_isPrefix {α : Type} {l l' : List α} (h : l <+: l') {i : Nat} {a : α} (hi : l[i]? = some a) :
    l'[i]? = some a := by
  obtain ⟨t, rfl⟩ := h
  rw [List.getElem?_append_left (List.getElem?_eq_some_iff.mp hi).1, hi]

/-- Every element of a chain is its first, or follows another. -/
theorem head_or_follows {α : Type} {R : α → α → Prop} : ∀ {l : List α}, l.IsChain R → ∀ a ∈ l,
    l.head? = some a ∨ ∃ b ∈ l, R b a
  | [], _, _, ha => (List.not_mem_nil ha).elim
  | [b], _, a, ha => .inl (by rw [List.mem_singleton.mp ha, List.head?_cons])
  | b :: c :: l, h, a, ha => by
    obtain ⟨hbc, hrest⟩ := List.isChain_cons_cons.mp h
    rcases List.mem_cons.mp ha with rfl | ha
    · exact .inl rfl
    rcases head_or_follows hrest a ha with hhead | ⟨b', hb', hstep⟩
    · obtain rfl := Option.some.inj hhead
      exact .inr ⟨b, List.mem_cons_self .., hbc⟩
    · exact .inr ⟨b', List.mem_cons_of_mem _ hb', hstep⟩

end Lib
