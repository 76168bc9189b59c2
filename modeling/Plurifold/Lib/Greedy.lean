import Mathlib.Algebra.Order.BigOperators.Group.List
import Mathlib.Algebra.Order.Monoid.Unbundled.Pow
import Mathlib.Data.Finset.Max
import Mathlib.Data.List.Perm.Subperm
import Mathlib.Order.Bounds.Basic

/-!
# Greedy placement of equal jobs

Jobs that are all alike are placed one after the other on unrelated machines, each where it finishes first. No way of
placing as many jobs ends earlier (`Greedy.latest_le`): when a job is placed, some machine has more jobs in the other
placement than here, and on it the other placement cannot end before the job does.
-/

namespace Lib

variable {ρ κ : Type}

/-- Of some times, one is the latest. -/
theorem exists_latest [LinearOrder κ] {times : List κ} (h : times ≠ []) : ∃ t, IsGreatest {x | x ∈ times} t := by
  have hlatest := times.toFinset.isGreatest_max' (List.toFinset_nonempty_iff times |>.mpr h)
  rw [List.coe_toFinset] at hlatest
  exact ⟨_, hlatest⟩

variable [DecidableEq ρ] [AddCommMonoid κ]

/-- When the jobs finish that run back to back on their machines, in this order; a machine is free from `free` on. -/
def finishes : (ρ → κ) → List (ρ × κ) → List κ
  | _, [] => []
  | free, (r, p) :: jobs => (free r + p) :: finishes (Function.update free r (free r + p)) jobs

/-- What the jobs on a machine take together. -/
def load (r : ρ) (jobs : List (ρ × κ)) : κ := ((jobs.filter fun job => job.1 = r).map (·.2)).sum

/-- The last job on a machine finishes when the machine has worked off its load. -/
theorem load_mem_finishes {r : ρ} {jobs : List (ρ × κ)} {free : ρ → κ} (hr : r ∈ jobs.map (·.1)) :
    free r + load r jobs ∈ finishes free jobs := by
  induction jobs generalizing free with
  | nil => cases hr
  | cons job jobs ih =>
    obtain ⟨r', p⟩ := job
    by_cases hmem : r ∈ jobs.map (·.1)
    · have hlast : Function.update free r' (free r' + p) r + load r jobs ∈
          finishes (Function.update free r' (free r' + p)) jobs := ih hmem
      refine List.mem_cons_of_mem _ ?_
      by_cases heq : r' = r
      · subst heq
        rw [Function.update_self, add_assoc] at hlast
        rwa [load, List.filter_cons_of_pos (by simp), List.map_cons, List.sum_cons]
      · rw [Function.update_of_ne (Ne.symm heq)] at hlast
        rwa [load, List.filter_cons_of_neg (by simpa using heq)]
    · have heq : r = r' := (List.mem_cons.mp hr).resolve_right hmem
      subst heq
      have hnone : jobs.filter (fun job => job.1 = r) = [] := by
        rw [List.filter_eq_nil_iff]
        intro job hjob hsame
        exact hmem (List.mem_map.mpr ⟨job, hjob, of_decide_eq_true hsame⟩)
      rw [load, List.filter_cons_of_pos (by simp), hnone]
      simp [finishes]

variable [LinearOrder κ]

/-- `Offers r p`: a job can be placed on machine `r` and takes `p` there. -/
inductive Greedy (Offers : ρ → κ → Prop) : (ρ → κ) → List (ρ × κ) → Prop
  | nil {free : ρ → κ} : Greedy Offers free []
  | cons {free : ρ → κ} {r : ρ} {p : κ} {jobs : List (ρ × κ)} (hoffer : Offers r p)
      (hfirst : ∀ r' p', Offers r' p' → free r + p ≤ free r' + p')
      (hjobs : Greedy Offers (Function.update free r (free r + p)) jobs) : Greedy Offers free ((r, p) :: jobs)

theorem Greedy.offers {Offers : ρ → κ → Prop} {free : ρ → κ} {jobs : List (ρ × κ)} (h : Greedy Offers free jobs) :
    ∀ job ∈ jobs, Offers job.1 job.2 := by
  induction h with
  | nil => exact fun _ hjob => (List.not_mem_nil hjob).elim
  | cons hoffer _ _ ih => exact List.forall_mem_cons.mpr ⟨hoffer, ih⟩

section

variable [IsOrderedAddMonoid κ] {Offers : ρ → κ → Prop} {start free : ρ → κ} {others : List (ρ × κ)}

/-- A machine with more jobs in another placement ends no earlier there than one more job would end here. -/
theorem exists_finish_ge (hothers : ∀ job ∈ others, Offers job.1 job.2 ∧ 0 ≤ job.2) {r : ρ} {n : Nat}
    (hfree : ∀ p, Offers r p → free r ≤ start r + n • p) (hmore : n < (others.map (·.1)).count r) :
    ∃ t ∈ finishes start others, ∃ p, Offers r p ∧ free r + p ≤ t := by
  let times := (others.filter fun job => job.1 = r).map (·.2)
  have hcount : (others.map (·.1)).count r = times.length := by
    rw [List.count_eq_countP, List.countP_map, List.countP_eq_length_filter, List.length_map]
    exact congrArg List.length (List.filter_congr fun job _ => beq_eq_decide _ _)
  rw [hcount] at hmore
  have hoffered : ∀ p ∈ times, Offers r p ∧ 0 ≤ p := by
    intro p hp
    obtain ⟨job, hjob, rfl⟩ := List.mem_map.mp hp
    obtain ⟨hjob, hr⟩ := List.mem_filter.mp hjob
    exact of_decide_eq_true hr ▸ hothers job hjob
  have hnonempty : times.toFinset.Nonempty := by
    rw [List.toFinset_nonempty_iff, ← List.length_pos_iff]
    omega
  -- the shortest of the times on the machine
  obtain ⟨p, hp, hleast⟩ := Finset.exists_min_image times.toFinset id hnonempty
  have hp' : p ∈ times := List.mem_toFinset.mp hp
  obtain ⟨hoffer, hnonneg⟩ := hoffered p hp'
  have hload : times.length • p ≤ load r others :=
    List.card_nsmul_le_sum times p fun q hq => hleast q (List.mem_toFinset.mpr hq)
  refine ⟨start r + load r others, load_mem_finishes ?_, p, hoffer, ?_⟩
  · exact List.count_pos_iff.mp (by omega)
  · calc free r + p ≤ start r + n • p + p := by gcongr; exact hfree p hoffer
      _ = start r + (n + 1) • p := by rw [add_assoc, succ_nsmul]
      _ ≤ start r + times.length • p := by gcongr 1; exact nsmul_le_nsmul_left hnonneg hmore
      _ ≤ start r + load r others := by gcongr

/-- **Greedy placement is optimal.** Every job finishes no later than some job of any placement of as many jobs. -/
theorem Greedy.exists_ge {jobs : List (ρ × κ)} (h : Greedy Offers free jobs)
    (hothers : ∀ job ∈ others, Offers job.1 job.2 ∧ 0 ≤ job.2) : ∀ (placed : List (ρ × κ)),
    (∀ r p, Offers r p → free r ≤ start r + (placed.map (·.1)).count r • p) →
    placed.length + jobs.length ≤ others.length → ∀ t ∈ finishes free jobs, ∃ t' ∈ finishes start others, t ≤ t' := by
  induction h with
  | nil => exact fun _ _ _ t ht => (List.not_mem_nil ht).elim
  | @cons free r p jobs hoffer hfirst _ ih =>
    intro placed hfree hlength t ht
    rw [List.length_cons] at hlength
    rcases List.mem_cons.mp ht with rfl | ht
    · -- some machine has more jobs in the other placement than it has so far
      obtain ⟨r', hmore⟩ : ∃ r', (placed.map (·.1)).count r' < (others.map (·.1)).count r' := by
        by_contra hnone
        push Not at hnone
        have hle := (List.subperm_ext_iff.mpr fun r' _ => hnone r').length_le
        rw [List.length_map, List.length_map] at hle
        omega
      obtain ⟨t', ht', p', hoffer', hle⟩ := exists_finish_ge hothers (hfree r') hmore
      exact ⟨t', ht', (hfirst r' p' hoffer').trans hle⟩
    · refine ih ((r, p) :: placed) (fun r' p' hoffer' => ?_) (by rw [List.length_cons]; omega) t ht
      by_cases heq : r' = r
      · subst heq
        rw [Function.update_self, List.map_cons, List.count_cons_self, succ_nsmul, ← add_assoc]
        exact (hfirst r' p' hoffer').trans (by gcongr; exact hfree r' p' hoffer')
      · rw [Function.update_of_ne heq, List.map_cons, List.count_cons_of_ne (Ne.symm heq)]
        exact hfree r' p' hoffer'

/-- The greedy placement ends no later than any placement of as many jobs. -/
theorem Greedy.latest_le {jobs : List (ρ × κ)} (h : Greedy Offers start jobs)
    (hothers : ∀ job ∈ others, Offers job.1 job.2 ∧ 0 ≤ job.2) (hlength : jobs.length ≤ others.length) {t t' : κ}
    (ht : IsGreatest {x | x ∈ finishes start jobs} t) (ht' : IsGreatest {x | x ∈ finishes start others} t') : t ≤ t' := by
  have hstart : ∀ r p, Offers r p → start r ≤ start r + (([] : List (ρ × κ)).map (·.1)).count r • p := by
    intro r p _
    simp
  obtain ⟨t'', hmem, hle⟩ := h.exists_ge hothers [] hstart (by simpa using hlength) t ht.1
  exact hle.trans (ht'.2 hmem)

end

end Lib
