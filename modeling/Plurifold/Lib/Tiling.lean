import Mathlib.Order.Monotone.Defs
import Mathlib.Algebra.Order.Ring.Nat

/-!
# Ranges that follow each other

* `Tiles lo hi ranges`: the ranges (start and length) follow each other without gap or overlap, from `lo` to `hi`. The
  gaps of a function that does not fall tile what lies between its ends (`tiles_gaps`), and the slices of a list along a tiling
  make up the list (`Tiles.flatten`).
* `cut total n i`: where part `i` starts when `total` is cut into `n` parts by rounding down. The parts are as equal as
  they can be (`cut_gap`).
-/

namespace Lib

/-! ## Tilings -/

/-- The ranges follow each other from `lo` to `hi`. -/
def Tiles (lo hi : Nat) : List (Nat × Nat) → Prop
  | [] => lo = hi
  | (start, length) :: rest => start = lo ∧ Tiles (lo + length) hi rest

/-- The gaps of a function that does not fall follow each other. -/
theorem tiles_gaps {f : Nat → Nat} : ∀ (n i : Nat), (∀ k, i ≤ k → k < i + n → f k ≤ f (k + 1)) →
    Tiles (f i) (f (i + n)) ((List.range' i n).map fun k => (f k, f (k + 1) - f k))
  | 0, _, _ => rfl
  | n + 1, i, hf => by
    have hstep : f i ≤ f (i + 1) := hf i (Nat.le_refl i) (by omega)
    have hrest := tiles_gaps n (i + 1) fun k hk hlt => hf k (by omega) (by omega)
    rw [List.range'_succ, List.map_cons]
    refine ⟨rfl, ?_⟩
    rwa [Nat.add_sub_of_le hstep, show i + (n + 1) = i + 1 + n by omega]

theorem tiles_gaps_range {f : Nat → Nat} {n : Nat} (hf : ∀ k < n, f k ≤ f (k + 1)) :
    Tiles (f 0) (f n) ((List.range n).map fun k => (f k, f (k + 1) - f k)) := by
  have h := tiles_gaps n 0 fun k _ hk => hf k (by omega)
  rwa [Nat.zero_add, ← List.range_eq_range'] at h

theorem Tiles.le : ∀ {ranges : List (Nat × Nat)} {lo hi : Nat}, Tiles lo hi ranges → lo ≤ hi
  | [], _, _, h => Nat.le_of_eq h
  | (_, _) :: _, _, _, h => Nat.le_trans (Nat.le_add_right _ _) h.2.le

/-- The lengths add up to what is covered. -/
theorem Tiles.sum : ∀ {ranges : List (Nat × Nat)} {lo hi : Nat}, Tiles lo hi ranges →
    (ranges.map (·.2)).sum = hi - lo
  | [], lo, hi, h => by
    cases h
    simp
  | (start, length) :: rest, lo, hi, h => by
    have hle := h.2.le
    rw [List.map_cons, List.sum_cons, h.2.sum]
    omega

/-- Ranges that are not empty end inside of what they tile, except for the last. -/
theorem Tiles.inner : ∀ {ranges : List (Nat × Nat)} {lo hi : Nat}, Tiles lo hi ranges → (∀ range ∈ ranges, 0 < range.2) →
    ∀ range ∈ ranges.dropLast, lo < range.1 + range.2 ∧ range.1 + range.2 < hi
  | [], _, _, _, _, range, hrange => by cases hrange
  | [_], _, _, _, _, range, hrange => by cases hrange
  | (start, length) :: (start', length') :: rest, lo, hi, h, hpos, range, hrange => by
    obtain ⟨rfl, hrest⟩ := h
    have hfirst : 0 < length := hpos _ (List.mem_cons_self ..)
    have hpos' : ∀ range ∈ (start', length') :: rest, 0 < range.2 := fun range hmem => hpos range (List.mem_cons_of_mem _ hmem)
    rw [List.dropLast_cons_cons] at hrange
    rcases List.mem_cons.mp hrange with rfl | hrange
    · have hnext : 0 < length' := hpos' _ (List.mem_cons_self ..)
      have hle := hrest.2.le
      exact ⟨by omega, by omega⟩
    · obtain ⟨hlow, hhigh⟩ := hrest.inner hpos' range hrange
      exact ⟨by omega, hhigh⟩

/-- The part of a list that a range covers. -/
def slice {α : Type} (l : List α) (range : Nat × Nat) : List α := (l.drop range.1).take range.2

/-- The slices along a tiling make up what it covers. -/
theorem Tiles.flatten_from {α : Type} (l : List α) : ∀ {ranges : List (Nat × Nat)} {lo hi : Nat}, Tiles lo hi ranges →
    (ranges.map (slice l)).flatten = (l.drop lo).take (hi - lo)
  | [], lo, hi, h => by
    cases h
    simp
  | (start, length) :: rest, lo, hi, h => by
    obtain ⟨rfl, hrest⟩ := h
    have hle := hrest.le
    rw [List.map_cons, List.flatten_cons, Tiles.flatten_from l hrest, slice, ← List.drop_drop,
      show hi - start = length + (hi - (start + length)) by omega, List.take_add]

theorem Tiles.flatten {α : Type} {l : List α} {ranges : List (Nat × Nat)} (h : Tiles 0 l.length ranges) :
    (ranges.map (slice l)).flatten = l := by
  rw [h.flatten_from l]
  simp

/-! ## Equal parts -/

/-- Where part `i` starts when `total` is cut into `n` parts. -/
def cut (total n i : Nat) : Nat := total * i / n

@[simp] theorem cut_zero (total n : Nat) : cut total n 0 = 0 := by simp [cut]

theorem cut_self {n : Nat} (total : Nat) (h : 0 < n) : cut total n n = total := Nat.mul_div_cancel total h

theorem cut_mono (total n : Nat) : Monotone (cut total n) := fun _ _ h =>
  Nat.div_le_div_right (Nat.mul_le_mul_left total h)

theorem cut_le_succ (total n i : Nat) : cut total n i ≤ cut total n (i + 1) := cut_mono total n (Nat.le_succ i)

theorem cut_le {total n i : Nat} (h : i ≤ n) : cut total n i ≤ total := by
  rcases Nat.eq_zero_or_pos n with rfl | hn
  · simp [cut]
  · calc cut total n i ≤ cut total n n := cut_mono total n h
      _ = total := cut_self total hn

/-- Every part has the quotient or one more. -/
theorem cut_gap {n : Nat} (total i : Nat) (h : 0 < n) :
    cut total n (i + 1) - cut total n i = total / n ∨ cut total n (i + 1) - cut total n i = total / n + 1 := by
  have hsplit : ∀ k, cut total n k = total / n * k + total % n * k / n := by
    intro k
    have htotal : total * k = total % n * k + n * (total / n * k) := by
      calc total * k = (total % n + n * (total / n)) * k := by rw [Nat.mod_add_div]
        _ = total % n * k + n * (total / n * k) := by rw [Nat.add_mul, Nat.mul_assoc]
    rw [cut, htotal, Nat.add_mul_div_left _ _ h, Nat.add_comm]
  have hrest : total % n * (i + 1) / n = total % n * i / n ∨ total % n * (i + 1) / n = total % n * i / n + 1 := by
    have hmod : total % n < n := Nat.mod_lt _ h
    have hlow : total % n * i / n ≤ total % n * (i + 1) / n := Nat.div_le_div_right (by simp [Nat.mul_succ])
    have hhigh : total % n * (i + 1) / n ≤ total % n * i / n + 1 := by
      rw [← Nat.add_div_right _ h]
      exact Nat.div_le_div_right (by rw [Nat.mul_succ]; omega)
    omega
  rw [hsplit, hsplit, Nat.mul_succ]
  generalize total % n * (i + 1) / n = next at *
  generalize total % n * i / n = here at *
  generalize total / n * i = base
  generalize total / n = quotient
  omega

/-- A cut into no more parts than there are units has no empty part. -/
theorem cut_lt_succ {total n i : Nat} (hn : 0 < n) (h : n ≤ total) : cut total n i < cut total n (i + 1) := by
  have hone : 1 ≤ total / n := (Nat.one_le_div_iff hn).mpr h
  have hgap := cut_gap total i hn
  omega

end Lib
