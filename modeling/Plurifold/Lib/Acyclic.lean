import Mathlib.Logic.Relation

/-!
# Relations without cycles

A relation has no cycle if no element comes before itself, however many steps are taken (`Acyclic`). Every element may
have a rank that grows along the relation (`Acyclic.of_rank`), and among finitely many elements some one has no other
before it (`Acyclic.exists_first`).
-/

namespace Lib

variable {α : Type} {r : α → α → Prop}

/-- No element comes before itself. -/
def Acyclic (r : α → α → Prop) : Prop := ∀ a, ¬Relation.TransGen r a a

theorem not_transGen_self {a : α} (h : Acc r a) : ¬Relation.TransGen r a a := by
  have hacc := h.transGen
  clear h
  induction hacc with
  | intro a _ ih => exact fun hself => ih a hself hself

theorem Acyclic.of_rank (rank : α → Nat) (h : ∀ a b, r a b → rank a < rank b) : Acyclic r := by
  intro a hself
  have hlt : ∀ b, Relation.TransGen r a b → rank a < rank b := by
    intro b hab
    induction hab with
    | single hab => exact h _ _ hab
    | tail _ hbc ih => exact Nat.lt_trans ih (h _ _ hbc)
  exact Nat.lt_irrefl _ (hlt a hself)

/-- Among the elements of a list, some one comes after no other. -/
theorem Acyclic.exists_first (h : Acyclic r) {l : List α} (hl : l ≠ []) : ∃ a ∈ l, ∀ b ∈ l, ¬r b a := by
  suffices hfirst : ∃ a ∈ l, ∀ b ∈ l, ¬Relation.TransGen r b a by
    obtain ⟨a, ha, hfirst⟩ := hfirst
    exact ⟨a, ha, fun b hb hba => hfirst b hb (.single hba)⟩
  induction l with
  | nil => exact absurd rfl hl
  | cons a l ih =>
    by_cases hnil : l = []
    · subst hnil
      refine ⟨a, List.mem_singleton_self a, fun b hb => ?_⟩
      rw [List.mem_singleton.mp hb]
      exact h a
    obtain ⟨m, hm, hfirst⟩ := ih hnil
    by_cases ham : Relation.TransGen r a m
    · refine ⟨a, List.mem_cons_self .., fun b hb hba => ?_⟩
      rcases List.mem_cons.mp hb with rfl | hb
      · exact h b hba
      · exact hfirst b hb (hba.trans ham)
    · refine ⟨m, List.mem_cons_of_mem _ hm, fun b hb => ?_⟩
      rcases List.mem_cons.mp hb with rfl | hb
      · exact ham
      · exact hfirst b hb

end Lib
