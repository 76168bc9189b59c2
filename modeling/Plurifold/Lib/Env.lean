import Mathlib.Algebra.Order.Group.Nat
import Mathlib.Logic.Function.Basic
import Mathlib.Data.List.Perm.Basic

/-!
# What a program gets from outside

An `Env` answers the questions a program cannot answer itself: the clock, a new identifier, and the order in which a
hash map hands out its entries. Answers are addressed by paths, so that a program gives each of its parts a world of
its own (`sub`): what one part draws does not depend on how much another part has drawn. An `Env` is any such world,
with any clock, any identifiers and any iteration orders; what is assumed of it is a hypothesis (`Fresh`, …).
-/

namespace Lib

/-- The answers of the world outside the program. -/
structure Env where
  /-- Clock readings. -/
  now : List Nat → UInt64
  /-- Generated identifiers. -/
  uuid : List Nat → Nat
  /-- Iteration orders of hash maps. -/
  order : List Nat → (α : Type) → List α → List α
  order_perm : ∀ p α l, (order p α l).Perm l

namespace Env

/-- The world of part `i`. -/
def sub (e : Env) (i : Nat) : Env where
  now p := e.now (i :: p)
  uuid p := e.uuid (i :: p)
  order p := e.order (i :: p)
  order_perm p := e.order_perm (i :: p)

/-- A clock reading. -/
def clock (e : Env) : UInt64 := e.now []

/-- A generated identifier. -/
def newUuid (e : Env) : Nat := e.uuid []

/-- The entries of a hash map, in the order its iterator yields them. -/
def iter {α : Type} (e : Env) (l : List α) : List α := e.order [] α l

theorem iter_perm {α : Type} (e : Env) (l : List α) : (e.iter l).Perm l := e.order_perm [] α l

@[simp] theorem mem_iter {α : Type} {e : Env} {l : List α} {a : α} : a ∈ e.iter l ↔ a ∈ l := (e.iter_perm l).mem_iff

/-- Identifiers are never generated twice. -/
def Fresh (e : Env) : Prop := Function.Injective e.uuid

/-- `n` is an identifier that this world can generate. -/
def Mints (e : Env) (n : Nat) : Prop := ∃ p, e.uuid p = n

theorem Fresh.sub {e : Env} (h : e.Fresh) (i : Nat) : (e.sub i).Fresh := fun p q hpq => by
  have := h hpq
  exact (List.cons.inj this).2

theorem mints_newUuid (e : Env) : e.Mints e.newUuid := ⟨[], rfl⟩

theorem Mints.of_sub {e : Env} {i n : Nat} (h : (e.sub i).Mints n) : e.Mints n := by
  obtain ⟨p, hp⟩ := h
  exact ⟨i :: p, hp⟩

/-- Different parts generate different identifiers. -/
theorem Fresh.sub_inj {e : Env} (h : e.Fresh) {i j n : Nat} (hi : (e.sub i).Mints n) (hj : (e.sub j).Mints n) : i = j := by
  obtain ⟨p, hp⟩ := hi
  obtain ⟨q, hq⟩ := hj
  exact (List.cons.inj (h (hp.trans hq.symm))).1

/-- The first path is read no later than the second. A world reads its own clock before its parts do, and its parts
follow each other in the order of their numbers: this is the lexicographic order. -/
def NoLater : List Nat → List Nat → Prop
  | [], _ => True
  | _ :: _, [] => False
  | i :: p, j :: q => i < j ∨ (i = j ∧ NoLater p q)

/-- The clock does not go back. -/
def Steady (e : Env) : Prop := ∀ p q : List Nat, NoLater p q → e.now p ≤ e.now q

theorem Steady.sub {e : Env} (h : e.Steady) (i : Nat) : (e.sub i).Steady := fun p q hpq =>
  h (i :: p) (i :: q) (.inr ⟨rfl, hpq⟩)

/-- An earlier part reads its clock earlier. -/
theorem Steady.sub_le {e : Env} (h : e.Steady) {i j : Nat} (hij : i < j) (p q : List Nat) :
    (e.sub i).now p ≤ (e.sub j).now q := h (i :: p) (j :: q) (.inl hij)

/-! ## A concrete world -/

/-- A numbering of paths: the exponent of two is the first step, the odd part the rest. -/
def pathNumber : List Nat → Nat
  | [] => 0
  | i :: p => 2 ^ i * (2 * pathNumber p + 1)

theorem two_pow_mul_odd_inj {a b : Nat} : ∀ {i j : Nat}, 2 ^ i * (2 * a + 1) = 2 ^ j * (2 * b + 1) → i = j ∧ a = b
  | 0, 0, h => by simp only [pow_zero, one_mul] at h; omega
  | 0, j + 1, h => by rw [pow_zero, one_mul, pow_succ', mul_assoc] at h; omega
  | i + 1, 0, h => by rw [pow_zero, one_mul, pow_succ', mul_assoc] at h; omega
  | i + 1, j + 1, h => by
    rw [pow_succ', pow_succ', mul_assoc, mul_assoc] at h
    obtain ⟨rfl, rfl⟩ := two_pow_mul_odd_inj (Nat.eq_of_mul_eq_mul_left Nat.two_pos h)
    exact ⟨rfl, rfl⟩

theorem pathNumber_injective : Function.Injective pathNumber
  | [], [], _ => rfl
  | [], i :: p, h => absurd h.symm (Nat.mul_pos (Nat.two_pow_pos i) (Nat.succ_pos _)).ne'
  | i :: p, [], h => absurd h (Nat.mul_pos (Nat.two_pow_pos i) (Nat.succ_pos _)).ne'
  | i :: p, j :: q, h => by
    obtain ⟨rfl, hp⟩ := two_pow_mul_odd_inj h
    rw [pathNumber_injective hp]

/-- A world with a given clock, even identifiers and maps iterated as they are stored. -/
def numbered (now : List Nat → UInt64) : Env where
  now := now
  uuid p := 2 * pathNumber p
  order _ _ l := l
  order_perm _ _ l := .refl l

theorem fresh_numbered (now : List Nat → UInt64) : (numbered now).Fresh := fun _ _ h =>
  pathNumber_injective (Nat.eq_of_mul_eq_mul_left Nat.two_pos h)

/-- Odd identifiers are left to others. -/
theorem not_mints_odd {now : List Nat → UInt64} {n : Nat} (h : n % 2 = 1) : ¬(numbered now).Mints n := by
  rintro ⟨p, hp⟩
  have : 2 * pathNumber p = n := hp
  omega

end Env

end Lib
