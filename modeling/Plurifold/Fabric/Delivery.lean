import Plurifold.Fabric.FanIn
import Plurifold.Fabric.Origin
import Plurifold.Fabric.Wiring

/-!
# Where the outputs of roles come from

The outputs of a completed role are those of the task that has done all its work, or the role has shards (`Delivered`);
how the outputs of shards reach the end of the role is said in `FanIn`. `Accounted` collects what is known of the tasks of
roles in every state of a run with fresh task identifiers: who works for whom, how tasks are drawn up, what they read,
and what became of their outputs.
-/

namespace Plurifold

open Lib Fabric

variable {F : Type} {strict : Prop} {L L' : Ledger F} {j : JobId} {r : String} {t : TaskId}

/-! ## Steps -/

/-- A completed role has its outputs from a task that has done all its work, or it has shards. -/
def Delivered (L : Ledger F) : Prop := ∀ j r outputs, L.role j r = some (.completed outputs) →
  (∃ t, L.Delivers t j r outputs) ∨ ∃ t, L.binding t = some (.shard j r)

theorem Ledger.Delivers.mono {outputs : List ObjectId} (h : L.Delivers t j r outputs) (hkeeps : Keeps L L') :
    L'.Delivers t j r outputs := by
  have hdone : L.progress t = .completed outputs → L'.progress t = .completed outputs := fun hp => by
    rw [hkeeps.progress t (by rw [hp]; exact fun h => (by cases h)), hp]
  cases h with
  | whole hb hp => exact .whole (hkeeps.binding _ _ hb) (hdone hp)
  | last hb hp => exact .last (hkeeps.binding _ _ hb) (hdone hp)
  | inside hb hr => exact .inside (hkeeps.binding _ _ hb) hr

variable [F64 F]

/-- **Every step keeps account of the outputs.** -/
theorem Step.delivered (hstep : Step strict L L') (hsound : Sound strict L) (hfan : FanIn L) (h : Delivered L) :
    Delivered L' := by
  have hkeeps := hstep.keeps hsound
  intro j r outputs hrole
  rcases hstep.completes hrole with hold | ⟨t, -, -, hdelivers⟩ | ⟨active, hactive, -, -⟩ | ⟨t, -, -, hb, -⟩
  · rcases h j r outputs hold with ⟨t, hdelivers⟩ | ⟨t, hb⟩
    · exact .inl ⟨t, hdelivers.mono hkeeps⟩
    · exact .inr ⟨t, hkeeps.binding _ _ hb⟩
  · exact .inl ⟨t, hdelivers⟩
  · -- what is reduced are outputs of shards
    obtain ⟨tasks, hok⟩ := hfan.active j r active hactive
    cases tasks with
    | nil => exact absurd hok.several (Nat.not_lt_zero 1)
    | cons t tasks => exact .inr ⟨t, hkeeps.binding _ _ (hok.done.shards 0 t rfl).1⟩
  · exact .inr ⟨t, hkeeps.binding _ _ hb⟩

theorem Steps.delivered (hsteps : Steps strict L L') (hsound : Sound strict L) (hfan : FanIn L) (h : Delivered L) :
    Delivered L' := by
  induction hsteps with
  | refl => exact h
  | tail hsteps hstep ih => exact hstep.delivered (Steps.sound hsteps hsound) (Steps.fanIn hsteps hsound hfan) ih

omit [F64 F] in
theorem delivered_empty : Delivered (Ledger.empty : Ledger F) := fun _ _ _ h => (by cases h)

/-! ## Runs -/

/-- What is known of the tasks of roles. -/
structure Accounted (s : Fabric F) : Prop extends Made s where
  sound : Sound False s.ledger
  wired : Wired s.ledger
  fanIn : FanIn s.ledger
  delivered : Delivered s.ledger

/-- **All tasks of roles are accounted for**, in every state of every run with fresh task identifiers. -/
theorem final_accounted {e : Env} {ops : List (Op F)} (m x : UInt64) (hfresh : FreshTasks e ops) :
    Accounted (final e (Fabric.new m x) ops) := by
  obtain ⟨e', hreached⟩ := final_reached (m := m) (x := x) hfresh fun h : False => h.elim
  exact {
    toMade := final_made e m x ops
    sound := hreached.sound
    wired := hreached.steps.wired sound_empty wired_empty
    fanIn := hreached.steps.fanIn sound_empty fanIn_empty
    delivered := hreached.steps.delivered sound_empty fanIn_empty delivered_empty }

end Plurifold
