import Plurifold.Lib.Env

/-!
# Worlds made of parts of a world

A program that calls another one lends it a part of its own world for each call. `splice` makes one world of these
parts: part by part it hands out what the calls were lent, so that a run of the callee alone draws from it what it drew
when it was called. If the calls were lent different parts in the order of the clock, the spliced world generates no
identifier twice (`Fresh.splice`) and its clock does not go back (`Steady.splice`) if those of the whole do.
-/

namespace Lib

namespace Env

/-- The world under a path. -/
def under (e : Env) (path : List Nat) : Env where
  now p := e.now (path ++ p)
  uuid p := e.uuid (path ++ p)
  order p := e.order (path ++ p)
  order_perm p := e.order_perm (path ++ p)

/-- The first path leaves the second for an earlier part. -/
def Before : List Nat → List Nat → Prop
  | i :: p, j :: q => i < j ∨ (i = j ∧ Before p q)
  | _, _ => False

theorem Before.noLater : ∀ {a b : List Nat}, Before a b → ∀ p q, NoLater (a ++ p) (b ++ q)
  | _ :: _, _ :: _, .inl hlt, _, _ => .inl hlt
  | _ :: _, _ :: _, .inr ⟨heq, h⟩, p, q => .inr ⟨heq, h.noLater p q⟩

theorem Before.append_ne : ∀ {a b : List Nat}, Before a b → ∀ p q, a ++ p ≠ b ++ q
  | i :: a, j :: b, h, p, q => by
    intro heq
    obtain ⟨rfl, htail⟩ := List.cons.inj heq
    rcases h with hlt | ⟨-, h⟩
    · exact absurd hlt (Nat.lt_irrefl i)
    · exact h.append_ne p q htail

theorem noLater_refl : ∀ p : List Nat, NoLater p p
  | [] => trivial
  | _ :: p => .inr ⟨rfl, noLater_refl p⟩

theorem noLater_append : ∀ (a : List Nat) {p q : List Nat}, NoLater p q → NoLater (a ++ p) (a ++ q)
  | [], _, _, h => h
  | _ :: a, _, _, h => .inr ⟨rfl, noLater_append a h⟩

theorem noLater_prefix (a : List Nat) (p : List Nat) : NoLater a (a ++ p) := by
  have h := noLater_append a (p := []) (q := p) trivial
  rwa [List.append_nil] at h

/-! ## The spliced world -/

/-- The path in the whole world of what call number `i` draws at `p`, for the path `1 … 1 0 p` with `i` ones. -/
def drawn : List (List Nat) → List Nat → Option (List Nat)
  | a :: _, 0 :: p => some (a ++ p)
  | _ :: rest, 1 :: p => drawn rest p
  | _, _ => none

/-- As `drawn`; a path of no call is read when the next call is made, or after all calls. -/
def readAt : List (List Nat) → List Nat → List Nat
  | [], _ => [2]
  | a :: _, [] => a
  | a :: _, 0 :: p => a ++ p
  | _ :: rest, 1 :: p => readAt rest p
  | _ :: _, (_ + 2) :: _ => [2]

/-- The world of calls that were lent the parts `parts` of `e`. Identifiers that no call draws are taken from the part
`2 … spare` of `e`, which no call was lent. -/
def splice (e : Env) (spare : List Nat) (parts : List (List Nat)) : Env where
  now p := e.now (readAt parts p)
  uuid p := e.uuid ((drawn parts p).getD (2 :: (spare ++ p)))
  order p := e.order ((drawn parts p).getD (2 :: (spare ++ p)))
  order_perm p := e.order_perm ((drawn parts p).getD (2 :: (spare ++ p)))

variable {e : Env} {spare a : List Nat} {parts : List (List Nat)}

theorem splice_first : (e.splice spare (a :: parts)).sub 0 = e.under a := rfl

theorem splice_rest : (e.splice spare (a :: parts)).sub 1 = e.splice (spare ++ [1]) parts := by
  simp only [splice, sub, readAt, drawn, List.append_assoc, List.singleton_append]

/-- The parts are lent one after the other, and the parts from `2` on are kept. -/
structure Lent (parts : List (List Nat)) : Prop where
  inOrder : parts.Pairwise Before
  kept : ∀ a ∈ parts, Before a [2]

theorem Lent.tail (h : Lent (a :: parts)) : Lent parts :=
  ⟨(List.pairwise_cons.mp h.inOrder).2, fun b hb => h.kept b (List.mem_cons_of_mem _ hb)⟩

theorem Lent.head_before (h : Lent (a :: parts)) : ∀ b ∈ parts, Before a b := (List.pairwise_cons.mp h.inOrder).1

theorem drawn_mem : ∀ {parts : List (List Nat)} {p q : List Nat}, drawn parts p = some q →
    ∃ a ∈ parts, ∃ r, q = a ++ r
  | a :: _, 0 :: p, q, h => by
    cases h
    exact ⟨a, List.mem_cons_self .., p, rfl⟩
  | _ :: rest, 1 :: p, q, h => by
    obtain ⟨b, hb, r, rfl⟩ := @drawn_mem rest p q h
    exact ⟨b, List.mem_cons_of_mem _ hb, r, rfl⟩

theorem drawn_inj : ∀ {parts : List (List Nat)}, Lent parts → ∀ {p p' q : List Nat}, drawn parts p = some q →
    drawn parts p' = some q → p = p'
  | a :: _, h, 0 :: p, 0 :: p', q, hp, hp' => by
    cases hp
    rw [drawn, Option.some.injEq, List.append_cancel_left_eq] at hp'
    rw [hp']
  | a :: rest, h, 0 :: p, 1 :: p', q, hp, hp' => by
    cases hp
    obtain ⟨b, hb, r, heq⟩ := @drawn_mem rest p' _ hp'
    exact absurd heq ((h.head_before b hb).append_ne p r)
  | a :: rest, h, 1 :: p, 0 :: p', q, hp, hp' => by
    cases hp'
    obtain ⟨b, hb, r, heq⟩ := @drawn_mem rest p _ hp
    exact absurd heq ((h.head_before b hb).append_ne p' r)
  | a :: rest, h, 1 :: p, 1 :: p', q, hp, hp' => by
    have heq : p = p' := drawn_inj h.tail (q := q) hp hp'
    rw [heq]

theorem Lent.drawn_kept (h : Lent parts) {p q r : List Nat} (hq : drawn parts p = some q) : q ≠ 2 :: r := by
  obtain ⟨a, ha, t, rfl⟩ := drawn_mem hq
  exact (h.kept a ha).append_ne t r

/-- A spliced world generates what the whole one does. -/
theorem Mints.of_splice {n : Nat} (h : (e.splice spare parts).Mints n) : e.Mints n := by
  obtain ⟨p, hp⟩ := h
  exact ⟨_, hp⟩

theorem Fresh.splice (he : e.Fresh) (h : Lent parts) : (e.splice spare parts).Fresh := by
  intro p p' heq
  have hsame := he heq
  cases hp : drawn parts p with
  | none =>
    cases hp' : drawn parts p' with
    | none =>
      rw [hp, hp'] at hsame
      simpa using hsame
    | some q' =>
      rw [hp, hp'] at hsame
      exact absurd hsame.symm (h.drawn_kept hp')
  | some q =>
    cases hp' : drawn parts p' with
    | none =>
      rw [hp, hp'] at hsame
      exact absurd hsame (h.drawn_kept hp)
    | some q' =>
      rw [hp, hp'] at hsame
      cases (show q = q' from hsame)
      exact drawn_inj h hp hp'

/-! ## The clock of the spliced world -/

theorem readAt_kept : ∀ {parts : List (List Nat)}, Lent parts → ∀ p, NoLater (readAt parts p) [2]
  | [], _, _ => noLater_refl [2]
  | a :: _, h, [] => by
    have hlast := (h.kept a (List.mem_cons_self ..)).noLater [] []
    rwa [List.append_nil] at hlast
  | a :: _, h, 0 :: p => (h.kept a (List.mem_cons_self ..)).noLater p []
  | _ :: rest, h, 1 :: p => readAt_kept h.tail p
  | _ :: _, _, (_ + 2) :: _ => noLater_refl [2]

/-- What a call reads is read before what the later calls read. -/
theorem readAt_later : ∀ {parts : List (List Nat)}, Lent (a :: parts) → ∀ p q, NoLater (a ++ p) (readAt parts q)
  | [], h, p, _ => (h.kept a (List.mem_cons_self ..)).noLater p []
  | b :: _, h, p, [] => by
    have hfirst := (h.head_before b (List.mem_cons_self ..)).noLater p []
    rwa [List.append_nil] at hfirst
  | b :: _, h, p, 0 :: q => (h.head_before b (List.mem_cons_self ..)).noLater p q
  | b :: rest, h, p, 1 :: q => by
    have hskip : Lent (a :: rest) :=
      ⟨h.inOrder.sublist (List.Sublist.cons_cons a (List.sublist_cons_self b rest)), fun c hc => h.kept c (by
        rcases List.mem_cons.mp hc with rfl | hc
        · exact List.mem_cons_self ..
        · exact List.mem_cons_of_mem _ (List.mem_cons_of_mem _ hc))⟩
    exact readAt_later hskip p q
  | _ :: _, h, p, (_ + 2) :: _ => (h.kept a (List.mem_cons_self ..)).noLater p []

theorem readAt_mono : ∀ {parts : List (List Nat)}, Lent parts → ∀ {p q : List Nat}, NoLater p q →
    NoLater (readAt parts p) (readAt parts q)
  | [], _, _, _, _ => noLater_refl [2]
  | a :: _, _, [], [], _ => noLater_refl a
  | a :: _, _, [], 0 :: q, _ => noLater_prefix a q
  | a :: rest, h, [], 1 :: q, _ => by
    have hlater := readAt_later h [] q
    rwa [List.append_nil] at hlater
  | a :: rest, h, [], (_ + 2) :: _, _ => readAt_kept h []
  | a :: rest, h, 0 :: p, 0 :: q, hpq => by
    rcases hpq with hlt | ⟨-, hpq⟩
    · exact absurd hlt (Nat.lt_irrefl 0)
    · exact noLater_append a hpq
  | a :: rest, h, 0 :: p, 1 :: q, _ => readAt_later h p q
  | a :: rest, h, 0 :: p, (_ + 2) :: _, _ => readAt_kept h (0 :: p)
  | a :: rest, h, 1 :: p, 1 :: q, hpq => by
    rcases hpq with hlt | ⟨-, hpq⟩
    · exact absurd hlt (Nat.lt_irrefl 1)
    · have hrest : NoLater (readAt rest p) (readAt rest q) := readAt_mono h.tail hpq
      exact hrest
  | a :: rest, h, 1 :: p, (_ + 2) :: _, _ => readAt_kept h.tail p
  | _ :: _, _, (_ + 2) :: _, (_ + 2) :: _, _ => noLater_refl [2]
  | _ :: _, _, 1 :: p, 0 :: q, hpq => by
    rcases hpq with hlt | ⟨heq, -⟩ <;> omega
  | _ :: _, _, (_ + 2) :: p, 0 :: q, hpq => by
    rcases hpq with hlt | ⟨heq, -⟩ <;> omega
  | _ :: _, _, (_ + 2) :: p, 1 :: q, hpq => by
    rcases hpq with hlt | ⟨heq, -⟩ <;> omega

theorem Steady.splice (he : e.Steady) (h : Lent parts) : (e.splice spare parts).Steady := fun _ _ hpq =>
  he _ _ (readAt_mono h hpq)

end Env

end Lib
