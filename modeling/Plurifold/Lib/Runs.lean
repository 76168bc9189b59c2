import Mathlib.Data.List.Chain
import Mathlib.Data.List.Flatten

/-!
# Consecutive runs of a list

A scan fills a run with the elements that join it and starts the next run at the first one that does not (`runs`). The
runs concatenate to the list (`runs_flatten`), each was filled one joining element at a time (`runs_grown`), and each
but the last was closed by the element that starts the next (`runs_closed`).
-/

namespace Lib

variable {α : Type} {joins : List α → α → Bool}

/-- The runs of a list, with the run that is being filled. -/
def runs (joins : List α → α → Bool) : List α → List α → List (List α)
  | [], current => if current.isEmpty then [] else [current]
  | x :: rest, current =>
    if current.isEmpty || joins current x then runs joins rest (current ++ [x]) else current :: runs joins rest [x]

theorem runs_flatten (joins : List α → α → Bool) (l current : List α) : (runs joins l current).flatten = current ++ l := by
  induction l generalizing current with
  | nil =>
    unfold runs
    cases current <;> simp
  | cons x rest ih =>
    rw [runs]
    split
    · rw [ih]
      simp
    · rw [List.flatten_cons, ih]
      simp

/-! ## How a run was filled -/

/-- A run into which every element after the first was taken because it joins the ones before it. -/
inductive Grown (joins : List α → α → Bool) : List α → Prop
  | single (x : α) : Grown joins [x]
  | snoc {run : List α} {x : α} : Grown joins run → joins run x = true → Grown joins (run ++ [x])

theorem Grown.ne_nil {run : List α} (h : Grown joins run) : run ≠ [] := by
  cases h <;> simp

theorem runs_grown {l current : List α} (hcurrent : current = [] ∨ Grown joins current) :
    ∀ run ∈ runs joins l current, Grown joins run := by
  induction l generalizing current with
  | nil =>
    intro run hrun
    rw [runs] at hrun
    split at hrun
    · cases hrun
    · rename_i hne
      obtain rfl := List.mem_singleton.mp hrun
      exact hcurrent.resolve_left fun hnil => hne (List.isEmpty_iff.mpr hnil)
  | cons x rest ih =>
    intro run hrun
    rw [runs] at hrun
    split at hrun
    · rename_i hjoin
      refine ih (.inr ?_) run hrun
      rcases hcurrent with rfl | hgrown
      · exact .single x
      · refine hgrown.snoc ?_
        rw [Bool.or_eq_true] at hjoin
        exact hjoin.resolve_left fun hempty => hgrown.ne_nil (List.isEmpty_iff.mp hempty)
    · rename_i hclose
      rcases List.mem_cons.mp hrun with rfl | hrun
      · refine hcurrent.resolve_left fun hnil => hclose ?_
        simp [hnil]
      · exact ih (.inr (.single x)) run hrun

/-- What every element of a run had to satisfy against each one before it holds between any two of the run. -/
theorem Grown.pairwise {R : α → α → Prop} (hR : ∀ run x, joins run x = true → ∀ y ∈ run, R y x) {run : List α}
    (h : Grown joins run) : run.Pairwise R := by
  induction h with
  | single x => exact List.pairwise_singleton R x
  | snoc _ hjoin ih =>
    refine List.pairwise_append.mpr ⟨ih, List.pairwise_singleton R _, ?_⟩
    intro y hy x hx
    obtain rfl := List.mem_singleton.mp hx
    exact hR _ _ hjoin y hy

theorem Grown.length_le {size : Nat} (hsize : 0 < size) (hjoins : ∀ run x, joins run x = true → run.length < size)
    {run : List α} (h : Grown joins run) : run.length ≤ size := by
  cases h with
  | single x =>
    rw [List.length_singleton]
    omega
  | snoc _ hjoin =>
    have := hjoins _ _ hjoin
    rw [List.length_append, List.length_singleton]
    omega

/-- The second element of a run joined the first. -/
theorem Grown.joins_second {run : List α} (h : Grown joins run) {a b : α} {rest : List α} (hrun : run = a :: b :: rest) :
    joins [a] b = true := by
  induction h generalizing rest with
  | single x => cases hrun
  | snoc hgrown hjoin ih =>
    rename_i run x
    cases run with
    | nil => cases hgrown.ne_nil rfl
    | cons c run =>
      cases run with
      | nil =>
        rw [List.singleton_append] at hrun
        cases hrun
        exact hjoin
      | cons d run =>
        simp only [List.cons_append, List.cons.injEq] at hrun
        obtain ⟨rfl, rfl, _⟩ := hrun
        exact ih rfl

/-! ## Why a run was closed -/

/-- The run that is being filled is the first of the runs, perhaps with more elements. -/
theorem runs_cons (joins : List α → α → Bool) (x : α) (current l : List α) :
    ∃ more rest, runs joins l (x :: current) = (x :: more) :: rest := by
  induction l generalizing current with
  | nil => exact ⟨current, [], rfl⟩
  | cons y l ih =>
    rw [runs]
    split
    · exact ih (current ++ [y])
    · exact ⟨current, _, rfl⟩

theorem runs_closed (joins : List α → α → Bool) (l current : List α) :
    (runs joins l current).IsChain fun run next => ∃ x, next.head? = some x ∧ joins run x = false := by
  induction l generalizing current with
  | nil =>
    rw [runs]
    split <;> simp
  | cons x rest ih =>
    rw [runs]
    split
    · exact ih _
    · rename_i hclose
      obtain ⟨more, later, hruns⟩ := runs_cons joins x [] rest
      have htail := ih [x]
      rw [hruns] at htail ⊢
      refine List.isChain_cons_cons.mpr ⟨⟨x, rfl, ?_⟩, htail⟩
      simp only [Bool.or_eq_true, not_or, Bool.not_eq_true] at hclose
      exact hclose.2

/-- Some run has two elements if and only if some element joins the one just before it. -/
theorem runs_two {l : List α} :
    (∃ run ∈ runs joins l [], 1 < run.length) ↔ ∃ before a b after, l = before ++ a :: b :: after ∧ joins [a] b = true := by
  constructor
  · rintro ⟨run, hrun, hlen⟩
    obtain ⟨before, after, hsplit⟩ := List.append_of_mem hrun
    have hflat := runs_flatten joins l []
    rw [hsplit] at hflat
    cases run with
    | nil => simp at hlen
    | cons a run =>
      cases run with
      | nil => simp at hlen
      | cons b run =>
        refine ⟨before.flatten, a, b, run ++ after.flatten, ?_, ?_⟩
        · rw [← List.nil_append l, ← hflat]
          simp
        · exact (runs_grown (.inl rfl) _ hrun).joins_second rfl
  · rintro ⟨before, a, b, after, hl, hjoin⟩
    by_contra hnone
    have hone : ∀ run ∈ runs joins l [], ∃ x, run = [x] := by
      intro run hrun
      have hpos := List.length_pos_iff.mpr (runs_grown (.inl rfl) run hrun).ne_nil
      have hle : ¬1 < run.length := fun hlt => hnone ⟨run, hrun, hlt⟩
      exact List.length_eq_one_iff.mp (by omega)
    have hmap : ∀ groups : List (List α), (∀ run ∈ groups, ∃ x, run = [x]) → groups = groups.flatten.map fun x => [x] := by
      intro groups hall
      induction groups with
      | nil => rfl
      | cons run groups ih =>
        obtain ⟨⟨x, rfl⟩, hrest⟩ := List.forall_mem_cons.mp hall
        rw [List.flatten_cons, List.map_append, ← ih hrest]
        rfl
    have hclosed := runs_closed joins l []
    rw [hmap _ hone, runs_flatten, List.nil_append, hl, List.isChain_map] at hclosed
    obtain ⟨x, hx, hfalse⟩ := (List.isChain_cons_cons.mp (List.isChain_append.mp hclosed).2.1).1
    cases hx
    rw [hjoin] at hfalse
    cases hfalse

/-! ## Runs of a fixed size -/

/-- A run of a bounded size takes as many elements as fit. -/
theorem runs_fill {size : Nat} {l current : List α} (hne : current ≠ []) (hle : current.length ≤ size) :
    runs (fun run _ => decide (run.length < size)) l current =
      (current ++ l.take (size - current.length)) ::
        runs (fun run _ => decide (run.length < size)) (l.drop (size - current.length)) [] := by
  induction l generalizing current with
  | nil => simp [runs, hne]
  | cons x rest ih =>
    have hempty : current.isEmpty = false := by simpa using hne
    rw [runs, hempty, Bool.false_or]
    split
    · rename_i hlt
      replace hlt := of_decide_eq_true hlt
      have hmore : size - current.length = (size - (current ++ [x]).length) + 1 := by
        rw [List.length_append, List.length_singleton]
        omega
      rw [ih (by simp) (by simp; omega), hmore, List.take_succ_cons, List.drop_succ_cons]
      simp
    · rename_i hfull
      have hzero : size - current.length = 0 := by
        rw [decide_eq_true_eq] at hfull
        omega
      rw [hzero, List.take_zero, List.append_nil, List.drop_zero, runs]
      simp

theorem runs_chunk_cons {size : Nat} (hsize : 0 < size) (x : α) (rest : List α) :
    runs (fun run _ => decide (run.length < size)) (x :: rest) [] =
      (x :: rest).take size :: runs (fun run _ => decide (run.length < size)) ((x :: rest).drop size) [] := by
  obtain ⟨n, rfl⟩ : ∃ n, size = n + 1 := ⟨size - 1, by omega⟩
  rw [runs, List.isEmpty_nil, Bool.true_or, if_pos rfl, List.nil_append, runs_fill (by simp) (by simp)]
  simp

/-- Runs of a fixed size are the consecutive chunks of that size. -/
theorem runs_chunk {size : Nat} (hsize : 0 < size) (l : List α) (i : Nat) :
    (runs (fun run _ => decide (run.length < size)) l [])[i]? =
      if i * size < l.length then some ((l.drop (i * size)).take size) else none := by
  induction i generalizing l with
  | zero =>
    cases l with
    | nil => simp [runs]
    | cons x rest =>
      rw [runs_chunk_cons hsize]
      simp
  | succ i ih =>
    cases l with
    | nil => simp [runs]
    | cons x rest =>
      have hstart : (i + 1) * size = size + i * size := by rw [Nat.succ_mul, Nat.add_comm]
      rw [runs_chunk_cons hsize, List.getElem?_cons_succ, ih, List.drop_drop, List.length_drop, hstart]
      have hiff : i * size < (x :: rest).length - size ↔ size + i * size < (x :: rest).length := by omega
      simp only [hiff]

end Lib
