import Mathlib.Data.List.MinMax

/-!
# First minima

`List.argmin` is a scan that gives up its choice only for something smaller, so it ends with the first minimum.
Scanning a list from a choice is offering that choice the minimum of the list (`foldl_offer`); so it does not matter
whether the lists of a family are scanned one after the other or each by itself first (`argmin_flatMap`).
-/

namespace Lib

variable {α β κ : Type} [LinearOrder κ] {f : α → κ}

/-- One step of the scan: `a` is taken if nothing is chosen yet or it is smaller than the choice. -/
def offer (f : α → κ) : Option α → α → Option α
  | none, a => some a
  | some c, a => if f a < f c then some a else some c

@[simp] theorem offer_none (a : α) : offer f none a = some a := rfl

@[simp] theorem offer_some (c a : α) : offer f (some c) a = if f a < f c then some a else some c := rfl

theorem argmin_eq_foldl (l : List α) : l.argmin f = l.foldl (offer f) none := by
  unfold List.argmin
  congr 1
  funext o a
  cases o <;> rfl

/-- Offering two elements in a row is offering the smaller one, and the first of two equal ones. -/
theorem offer_offer (o : Option α) (c a : α) :
    offer f (offer f o c) a = if f a < f c then offer f o a else offer f o c := by
  cases o with
  | none => simp
  | some b =>
    by_cases hac : f a < f c
    · by_cases hcb : f c < f b
      · simp [hac, hcb, hac.trans hcb]
      · simp [hac, hcb]
    · by_cases hcb : f c < f b
      · simp [hac, hcb]
      · have hab : ¬f a < f b := fun hab => hac (hab.trans_le (not_lt.mp hcb))
        simp [hac, hcb, hab]

theorem foldl_offer (l : List α) (o : Option α) : l.foldl (offer f) o = (l.argmin f).elim o (offer f o) := by
  induction l using List.reverseRecOn with
  | nil => rfl
  | append_singleton l a ih =>
    rw [argmin_eq_foldl, List.foldl_append, List.foldl_append, ← argmin_eq_foldl, ih]
    cases l.argmin f with
    | none => rfl
    | some c =>
      simp only [List.foldl_cons, List.foldl_nil, Option.elim_some, offer_offer, offer_some]
      split <;> rfl

/-- The minimum of lists in a row is the minimum of their minima. -/
theorem argmin_flatMap (l : List β) (g : β → List α) :
    (l.flatMap g).argmin f = (l.filterMap fun b => (g b).argmin f).argmin f := by
  suffices hfrom : ∀ o, (l.flatMap g).foldl (offer f) o =
      (l.filterMap fun b => (g b).argmin f).foldl (offer f) o by
    rw [argmin_eq_foldl, argmin_eq_foldl, hfrom none]
  induction l with
  | nil => exact fun o => rfl
  | cons b l ih =>
    intro o
    rw [List.flatMap_cons, List.foldl_append, ih, foldl_offer (g b), List.filterMap_cons]
    cases (g b).argmin f with
    | none => rfl
    | some a => rfl

/-- The minimum of images under a function that keeps the key. -/
theorem argmin_map {f' : β → κ} {g : α → β} (hg : ∀ a, f' (g a) = f a) (l : List α) :
    (l.map g).argmin f' = (l.argmin f).map g := by
  induction l using List.reverseRecOn with
  | nil => rfl
  | append_singleton l a ih =>
    rw [List.map_append, List.map_singleton, argmin_eq_foldl, argmin_eq_foldl, List.foldl_append, List.foldl_append,
      ← argmin_eq_foldl, ← argmin_eq_foldl, ih]
    cases l.argmin f with
    | none => rfl
    | some c =>
      simp only [Option.map_some, List.foldl_cons, List.foldl_nil, offer_some, hg]
      split <;> rfl

end Lib
