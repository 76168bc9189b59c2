import Plurifold.Core
import Plurifold.Lib.ArgMin

/-!
# Placement of one task (`plurifold-scheduler`)

The scheduler scores every resource that supports a task and takes the first of the cheapest ones. A resource is a
candidate when each input is local to it, empty, or reachable over a link.
-/

namespace Plurifold

open Lib

variable {F : Type} [F64 F]

/-- `Iterator::min_by`: the first element that no later one is strictly below. -/
def minBy {α : Type} (cmp : α → α → Ordering) : List α → Option α
  | [] => none
  | a :: l => some (l.foldl (fun best x => if cmp best x = .gt then x else best) a)

theorem minBy_mem {α : Type} {cmp : α → α → Ordering} : ∀ {l : List α} {a : α}, minBy cmp l = some a → a ∈ l
  | [], _, h => by cases h
  | b :: l, a, h => by
    have key : ∀ (l : List α) (b : α), l.foldl (fun best x => if cmp best x = .gt then x else best) b ∈ b :: l := by
      intro l
      induction l with
      | nil => intro b; simp
      | cons x l ih =>
        intro b
        rw [List.foldl_cons]
        split
        · exact List.mem_cons_of_mem _ (ih x)
        · rcases List.mem_cons.mp (ih b) with h | h
          · rw [h]; exact List.mem_cons_self
          · exact List.mem_cons_of_mem _ (List.mem_cons_of_mem _ h)
    simp only [minBy, Option.some.injEq] at h
    exact h ▸ key l b

/-- Comparison of rationals. -/
theorem totalCmp_cases (a b : ℚ) : (F64.totalCmp a b = .lt ∧ a < b) ∨ (F64.totalCmp a b = .eq ∧ a = b) ∨
    (F64.totalCmp a b = .gt ∧ b < a) := by
  simp only [F64.totalCmp, compareOfLessAndEq]
  rcases lt_trichotomy a b with hlt | rfl | hgt
  · exact .inl ⟨if_pos hlt, hlt⟩
  · exact .inr (.inl ⟨by simp, rfl⟩)
  · exact .inr (.inr ⟨by simp [hgt.not_gt, hgt.ne'], hgt⟩)

theorem totalCmp_gt_iff {a b : ℚ} : F64.totalCmp a b = .gt ↔ b < a := by
  rcases totalCmp_cases a b with ⟨hcmp, hlt⟩ | ⟨hcmp, rfl⟩ | ⟨hcmp, hgt⟩
  · simp [hcmp, hlt.not_gt]
  · simp [hcmp]
  · simp [hcmp, hgt]

/-- On rationals, `min_by` finds the first minimum. -/
theorem minBy_eq_argmin {α : Type} (key : α → ℚ) (l : List α) :
    minBy (fun a b => F64.totalCmp (key a) (key b)) l = l.argmin key := by
  have hfrom : ∀ (l : List α) (first : α),
      some (l.foldl (fun best x => if F64.totalCmp (key best) (key x) = .gt then x else best) first) =
        l.foldl (offer key) (some first) := by
    intro l
    induction l with
    | nil => exact fun first => rfl
    | cons x l ih =>
      intro first
      rw [List.foldl_cons, List.foldl_cons, offer_some, ih]
      simp only [totalCmp_gt_iff]
      split <;> rfl
  cases l with
  | nil => rfl
  | cons first l => rw [minBy, hfrom, argmin_eq_foldl, List.foldl_cons, offer_none]

/-- On rationals, nothing in the list is below the minimum. -/
theorem minBy_le {α : Type} {key : α → ℚ} {l : List α} {a : α}
    (h : minBy (fun a b => F64.totalCmp (key a) (key b)) l = some a) : ∀ b ∈ l, key a ≤ key b := by
  rw [minBy_eq_argmin] at h
  exact fun b hb => List.le_of_mem_argmin hb h

structure PlacementBreakdown (F : Type) where
  computeMs : F
  inputTransferMs : F
  queueMs : F
  startupMs : F
  riskPenaltyMs : F
  totalMs : F

structure PlacementDecision (F : Type) where
  resourceId : ResourceId
  cost : PlacementBreakdown F

inductive ScheduleError
  | missingObject (id : ObjectId)
  | noCandidate
  deriving DecidableEq

structure TopologyAwareScheduler (F : Type) where
  /-- Multiplier applied to expected wasted compute from resource failure. -/
  riskMultiplier : F

def TopologyAwareScheduler.default : TopologyAwareScheduler F := ⟨F64.ofNat 1⟩

/-- The published objects. -/
abbrev Objects := Map ObjectId ObjectMetadata

/-- `f64::clamp`. -/
def clamp (x lo hi : F) : F :=
  let x := if F64.lt x lo then lo else x
  if F64.lt hi x then hi else x

/-- The cheapest transfer of an input, `none` when no replica is reachable; the input is not local and not empty. -/
def bestTransfer (topology : TopologySnapshot F) (resource : ResourceId) (object : ObjectMetadata) (bytes : UInt64) :
    Option F :=
  minBy F64.totalCmp (object.locations.filterMap fun source => topology.transferTimeMs source resource bytes)

/-- The loop over the inputs of `score_candidate`, from input `inputIndex` on. -/
def inputTransfer (task : TaskSpec F) (resource : ResourceId) (objects : Objects) (topology : TopologySnapshot F) :
    Nat → List ObjectId → F → Option F
  | _, [], total => some total
  | inputIndex, inputId :: rest, total =>
    match objects.lookup inputId with
    -- `choose` has checked that every input is published
    | none => none
    | some object =>
      if object.isLocalTo resource then inputTransfer task resource objects topology (inputIndex + 1) rest total
      else
        let transferBytes := match task.inputByteRange inputIndex with
          | some (offset, length) =>
            -- `checked_add`
            if offset.toNat + length.toNat < 2 ^ 64 && decide (offset + length ≤ object.sizeBytes) then some length
            else none
          | none => some object.sizeBytes
        match transferBytes with
        | none => none
        | some bytes =>
          if bytes = 0 then inputTransfer task resource objects topology (inputIndex + 1) rest total
          else
            match bestTransfer topology resource object bytes with
            | none => none
            | some ms => inputTransfer task resource objects topology (inputIndex + 1) rest (total + ms)

def TopologyAwareScheduler.scoreCandidate (self : TopologyAwareScheduler F) (task : TaskSpec F)
    (resource : ResourceDescriptor F) (objects : Objects) (topology : TopologySnapshot F) :
    Option (PlacementBreakdown F) :=
  let computeMs := task.cost.computeMsOnReference / resource.performanceScore
  (inputTransfer task resource.id objects topology 0 task.inputs (F64.ofNat 0)).map fun inputTransferMs =>
    let failureProbability := clamp resource.failureProbability (F64.ofNat 0) (F64.ofNat 1)
    let riskPenaltyMs := computeMs * failureProbability * self.riskMultiplier
    let queueMs := F64.max resource.queueDelayMs (F64.ofNat 0)
    let startupMs := F64.max resource.startupDelayMs (F64.ofNat 0)
    { computeMs, inputTransferMs, queueMs, startupMs, riskPenaltyMs,
      totalMs := computeMs + inputTransferMs + queueMs + startupMs + riskPenaltyMs }

def TopologyAwareScheduler.choose (self : TopologyAwareScheduler F) (task : TaskSpec F)
    (resources : List (ResourceDescriptor F)) (objects : Objects) (topology : TopologySnapshot F) :
    Except ScheduleError (PlacementDecision F) :=
  match task.inputs.find? fun input => (objects.lookup input).isNone with
  | some input => .error (.missingObject input)
  | none =>
    let candidates := (resources.filter fun resource => resource.supports task.requirements).filterMap fun resource =>
      (self.scoreCandidate task resource objects topology).map fun cost => ⟨resource.id, cost⟩
    match minBy (fun a b => F64.totalCmp a.cost.totalMs b.cost.totalMs) candidates with
    | some decision => .ok decision
    | none => .error .noCandidate

structure FusionAdvisor (F : Type) where
  /-- Minimum estimated network time saved before fusion is worth proposing. -/
  minimumSavedTransferMs : F

def FusionAdvisor.default : FusionAdvisor F := ⟨F64.ofNat 20⟩

structure FusionRecommendation (F : Type) where
  shouldFuse : Bool
  estimatedSavedTransferMs : F

def FusionAdvisor.evaluate (self : FusionAdvisor F) (intermediateBytes : UInt64) (crossDomainLink : LinkProfile F) :
    FusionRecommendation F :=
  let estimatedSavedTransferMs := (crossDomainLink.transferTimeMs intermediateBytes).getD F64.infinity
  { shouldFuse := F64.le self.minimumSavedTransferMs estimatedSavedTransferMs, estimatedSavedTransferMs }

end Plurifold
