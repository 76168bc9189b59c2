import Mathlib.Order.Basic
import Plurifold.Lib.List

/-!
# Searches that keep the best candidate

A loop that looks at candidates one after the other and keeps the best so far ends with the best of all
(`BestOf.offer` for one round, `foldl_gathers` for the loop).

A loop that leaves the best so far only for a candidate that beats it by a margin need not end with the best of all. What
it ends with is below everything before it, beats the first candidate, and is beaten by nothing after it (`Leader.next`
for one round, `leader_foldl` for the loop).
-/

namespace Lib

variable {β κ : Type} [Preorder κ] {worth : β → κ} {C D : β → Prop} {best : Option β}

/-- `best` is one of the candidates `C`, and none of them is worth more; it is `none` only if there are none. -/
structure BestOf (worth : β → κ) (C : β → Prop) (best : Option β) : Prop where
  real : ∀ b, best = some b → C b
  covered : ∀ c, C c → ∃ b, best = some b ∧ worth c ≤ worth b

theorem bestOf_none : BestOf worth (fun _ => False) none :=
  ⟨fun _ h => (Option.some_ne_none _ h.symm).elim, fun _ h => h.elim⟩

theorem BestOf.congr (h : BestOf worth C best) (hiff : ∀ c, C c ↔ D c) : BestOf worth D best :=
  ⟨fun b hb => (hiff b).mp (h.real b hb), fun c hc => h.covered c ((hiff c).mpr hc)⟩

/-- One more candidate: it is kept if it is worth no less than the best so far, and dropped if it is worth no more. -/
theorem BestOf.offer (h : BestOf worth C best) {replace : Prop} [Decidable replace] {candidate : β}
    (htaken : replace → ∀ b, best = some b → worth b ≤ worth candidate)
    (hdropped : ¬replace → ∃ b, best = some b ∧ worth candidate ≤ worth b) :
    BestOf worth (fun c => C c ∨ c = candidate) (if replace then some candidate else best) := by
  split
  · rename_i hreplace
    refine ⟨fun b hb => .inr (Option.some.inj hb).symm, ?_⟩
    rintro c (hc | rfl)
    · obtain ⟨b, hb, hle⟩ := h.covered c hc
      exact ⟨candidate, rfl, hle.trans (htaken hreplace b hb)⟩
    · exact ⟨c, rfl, le_refl _⟩
  · rename_i hkept
    refine ⟨fun b hb => .inl (h.real b hb), ?_⟩
    rintro c (hc | rfl)
    · exact h.covered c hc
    · exact hdropped hkept

/-! ## Leaving the best so far only for a gain -/

section Leader

variable {Beats : κ → κ → Prop} {seen : List β}

/-- What beats a value is below everything that does not beat it, and what is no more than it beats the value too. -/
structure Margin (Beats : κ → κ → Prop) : Prop where
  irrefl : ∀ a, ¬Beats a a
  lt_of_not : ∀ {a b c : κ}, Beats a b → ¬Beats c b → a < c
  mono : ∀ {a b c : κ}, a ≤ b → Beats b c → Beats a c

theorem Margin.lt (h : Margin Beats) {a b : κ} (hbeats : Beats a b) : a < b := h.lt_of_not hbeats (h.irrefl b)

/-- A leader among the candidates seen so far. -/
inductive Leader (worth : β → κ) (Beats : κ → κ → Prop) : List β → Option β → Prop
  | start : Leader worth Beats [] none
  | lead {before after : List β} {b : β} (hbefore : ∀ c ∈ before, worth b < worth c)
      (hafter : ∀ c ∈ after, ¬Beats (worth c) (worth b))
      (hfirst : ∀ c, before.head? = some c → Beats (worth b) (worth c)) :
      Leader worth Beats (before ++ b :: after) (some b)

theorem Leader.split {b : β} (h : Leader worth Beats seen (some b)) : ∃ before after, seen = before ++ b :: after ∧
    (∀ c ∈ before, worth b < worth c) ∧ (∀ c ∈ after, ¬Beats (worth c) (worth b)) ∧
    ∀ c, before.head? = some c → Beats (worth b) (worth c) := by
  cases h with
  | lead hbefore hafter hfirst => exact ⟨_, _, rfl, hbefore, hafter, hfirst⟩

/-- There is a leader unless no candidate has been seen. -/
theorem Leader.eq_nil (h : Leader worth Beats seen none) : seen = [] := by
  cases h
  rfl

/-- One more candidate: it leads if it beats the leader. -/
theorem Leader.next (hmargin : Margin Beats) (h : Leader worth Beats seen best) {c : β} {replace : Prop}
    [Decidable replace] (hreplace : replace ↔ ∀ b, best = some b → Beats (worth c) (worth b)) :
    Leader worth Beats (seen ++ [c]) (if replace then some c else best) := by
  cases h with
  | start =>
    rw [if_pos (hreplace.mpr fun b hb => by cases hb)]
    show Leader worth Beats ([] ++ c :: []) (some c)
    exact .lead (by simp) (by simp) (by simp)
  | @lead before after b hbefore hafter hfirst =>
    have hreplace' : replace ↔ Beats (worth c) (worth b) :=
      hreplace.trans ⟨fun h => h b rfl, fun h b' hb' => Option.some.inj hb' ▸ h⟩
    by_cases hbeats : Beats (worth c) (worth b)
    · rw [if_pos (hreplace'.mpr hbeats)]
      refine Leader.lead (fun x hx => ?_) (by simp) fun x hx => ?_
      · rcases List.mem_append.mp hx with hx | hx
        · exact (hmargin.lt hbeats).trans (hbefore x hx)
        · rcases List.mem_cons.mp hx with rfl | hx
          · exact hmargin.lt hbeats
          · exact hmargin.lt_of_not hbeats (hafter x hx)
      · cases before with
        | nil => exact Option.some.inj hx ▸ hbeats
        | cons first before => exact hmargin.mono (hmargin.lt hbeats).le (hfirst x hx)
    · rw [if_neg fun h => hbeats (hreplace'.mp h), List.append_assoc, List.cons_append]
      refine Leader.lead hbefore (fun x hx => ?_) hfirst
      rcases List.mem_append.mp hx with hx | hx
      · exact hafter x hx
      · rw [List.mem_singleton.mp hx]
        exact hbeats

/-- More candidates, in an order in which the comparison of a later with an earlier one tells which beats which. -/
theorem Leader.run {Earlier : β → β → Prop} {replace : β → Option β → Bool} (hmargin : Margin Beats)
    (hnone : ∀ c, replace c none = true)
    (hsome : ∀ b c, Earlier b c → (replace c (some b) = true ↔ Beats (worth c) (worth b))) :
    ∀ {l seen : List β} {best : Option β}, (seen ++ l).Pairwise Earlier → Leader worth Beats seen best →
    Leader worth Beats (seen ++ l) (l.foldl (fun best c => if replace c best then some c else best) best)
  | [], seen, best, _, h => by rwa [List.append_nil]
  | c :: l, seen, best, hordered, h => by
    have hreplace : replace c best = true ↔ ∀ b, best = some b → Beats (worth c) (worth b) := by
      cases h with
      | start => exact ⟨fun _ b hb => (Option.some_ne_none b hb.symm).elim, fun _ => hnone c⟩
      | @lead before after b _ _ _ =>
        have hearlier : Earlier b c :=
          (List.pairwise_append.mp hordered).2.2 b (by simp) c (List.mem_cons_self ..)
        exact (hsome b c hearlier).trans ⟨fun h b' hb' => Option.some.inj hb' ▸ h, fun h => h b rfl⟩
    rw [List.append_cons] at hordered ⊢
    exact Leader.run hmargin hnone hsome hordered (h.next hmargin hreplace)

/-- All candidates. -/
theorem leader_foldl {Earlier : β → β → Prop} {replace : β → Option β → Bool} (hmargin : Margin Beats)
    (hnone : ∀ c, replace c none = true)
    (hsome : ∀ b c, Earlier b c → (replace c (some b) = true ↔ Beats (worth c) (worth b))) {l : List β}
    (hordered : l.Pairwise Earlier) :
    Leader worth Beats l (l.foldl (fun best c => if replace c best then some c else best) none) :=
  Leader.run hmargin hnone hsome (by rwa [List.nil_append]) .start

end Leader

end Lib
