import Plurifold.Fabric.Sound

/-!
# What steps keep

Tasks, bindings and job definitions are never removed or changed; a task that is completed or lost and a role that is
completed or uncertain stay as they are (`Step.keeps`, `Steps.keeps`). A role status is overwritten in many places; what
keeps a finished role safe is that a sound ledger has no working task, no reduction and no start for it.
-/

namespace Plurifold

open Lib Fabric Ledger

variable {F : Type} {strict : Prop} {L L' L'' : Ledger F} {j : JobId} {r : String} {t : TaskId}

/-- No step leaves this status. -/
def CooperativeRoleStatus.terminal : CooperativeRoleStatus → Bool
  | .completed _ | .uncertain => true
  | _ => false

/-- Everything that was recorded for good is still there. -/
structure Keeps (L L' : Ledger F) : Prop where
  spec : ∀ t spec, L.spec t = some spec → L'.spec t = some spec
  binding : ∀ t b, L.binding t = some b → L'.binding t = some b
  definition : ∀ j definition, L.definition j = some definition → L'.definition j = some definition
  progress : ∀ t, L.progress t ≠ .working → L'.progress t = L.progress t
  role : ∀ j r status, status.terminal = true → L.role j r = some status → L'.role j r = some status

theorem Keeps.refl (L : Ledger F) : Keeps L L :=
  ⟨fun _ _ h => h, fun _ _ h => h, fun _ _ h => h, fun _ _ => rfl, fun _ _ _ _ h => h⟩

theorem Keeps.trans (h : Keeps L L') (h' : Keeps L' L'') : Keeps L L'' where
  spec t spec hs := h'.spec t spec (h.spec t spec hs)
  binding t b hb := h'.binding t b (h.binding t b hb)
  definition j d hd := h'.definition j d (h.definition j d hd)
  progress t hp := by
    have hsame := h.progress t hp
    rw [h'.progress t (hsame ▸ hp), hsame]
  role j r status hs hr := h'.role j r status hs (h.role j r status hs hr)

/-! ## Updates -/

/-- The role is neither completed nor uncertain. -/
def Unfinished (L : Ledger F) (j : JobId) (r : String) : Prop :=
  ∀ status, L.role j r = some status → status.terminal = false

theorem unfinished_of_eq {status : CooperativeRoleStatus} (h : L.role j r = some status)
    (hs : status.terminal = false) : Unfinished L j r := by
  intro status' h'
  rw [h] at h'
  cases h'
  exact hs

theorem NotStarted.unfinished (h : NotStarted (L.role j r)) : Unfinished L j r := by
  rcases h with h | h
  · exact unfinished_of_eq h rfl
  · exact unfinished_of_eq h rfl

theorem keeps_setProgress (hw : L.progress t = .working) (p : Progress) : Keeps L (L.setProgress t p) := by
  refine ⟨fun _ _ h => h, fun _ _ h => h, fun _ _ h => h, fun t' ht' => ?_, fun _ _ _ _ h => h⟩
  rw [setProgress_progress, if_neg]
  rintro rfl
  exact ht' hw

theorem keeps_setRoles {names : List String} {status : String → CooperativeRoleStatus}
    (h : ∀ r ∈ names, Unfinished L j r) : Keeps L (L.setRoles j names status) := by
  refine ⟨fun _ _ h => h, fun _ _ h => h, fun _ _ h => h, fun _ _ => rfl, fun j' r' old hold hrole => ?_⟩
  rw [setRoles_role, if_neg]
  · exact hrole
  · rintro ⟨rfl, hr⟩
    rw [h r' hr old hrole] at hold
    cases hold

theorem keeps_setRole {status : CooperativeRoleStatus} (h : Unfinished L j r) : Keeps L (L.setRole j r status) := by
  refine ⟨fun _ _ h => h, fun _ _ h => h, fun _ _ h => h, fun _ _ => rfl, fun j' r' old hold hrole => ?_⟩
  rw [setRole_role, if_neg]
  · exact hrole
  · rintro ⟨rfl, rfl⟩
    rw [h old hrole] at hold
    cases hold

theorem keeps_setReduction (reduction : Option ActiveReduction) : Keeps L (L.setReduction j r reduction) :=
  ⟨fun _ _ h => h, fun _ _ h => h, fun _ _ h => h, fun _ _ => rfl, fun _ _ _ _ h => h⟩

theorem keeps_setPlanned (planned : TaskId → Prop) : Keeps L (L.setPlanned planned) :=
  ⟨fun _ _ h => h, fun _ _ h => h, fun _ _ h => h, fun _ _ => rfl, fun _ _ _ _ h => h⟩

theorem keeps_add {spec : TaskSpec F} (hnew : L.spec spec.id = none) : Keeps L (L.add spec) := by
  refine ⟨fun t old hold => ?_, fun _ _ h => h, fun _ _ h => h, fun _ _ => rfl, fun _ _ _ _ h => h⟩
  rw [add_spec, if_neg]
  · exact hold
  · rintro rfl
    rw [hnew] at hold
    cases hold

variable [F64 F]

theorem keeps_addAll (h : Sound strict L) {specs : List (TaskSpec F)} (hnew : ∀ spec ∈ specs, L.spec spec.id = none)
    (b : TaskRoleBinding) : Keeps L (L.addAll specs b) := by
  refine ⟨fun t old hold => ?_, fun t b' hb' => ?_, fun _ _ h => h, fun _ _ => rfl, fun _ _ _ _ h => h⟩
  · have hnone : specs.find? (fun spec => spec.id = t) = none := by
      rw [List.find?_eq_none]
      intro spec hspec hid
      obtain rfl : spec.id = t := by simpa using hid
      rw [hnew spec hspec] at hold
      cases hold
    rw [addAll_spec, hnone, Option.none_or]
    exact hold
  · rw [addAll_binding, if_neg]
    · exact hb'
    · intro hmem
      obtain ⟨spec, hspec, rfl⟩ := List.mem_map.mp hmem
      obtain ⟨old, hold⟩ := h.known _ b' hb'
      rw [hnew spec hspec] at hold
      cases hold

theorem keeps_accept (h : Sound strict L) {definition : JobDefinition F} (hnew : L.definition j = none) :
    Keeps L (L.accept j definition) := by
  refine ⟨fun _ _ h => h, fun _ _ h => h, fun j' old hold => ?_, fun _ _ => rfl, fun j' r' status _ hrole => ?_⟩
  · rw [accept_definition, if_neg]
    · exact hold
    · rintro rfl
      rw [hnew] at hold
      cases hold
  · rw [accept_role, if_neg]
    · exact hrole
    · rintro ⟨rfl, -⟩
      obtain ⟨old, hold, -⟩ := (h.domain j' r').mp (by rw [hrole]; rfl)
      rw [hnew] at hold
      cases hold

omit [F64 F] in
/-- Marking the roles of a lost task finishes some, and no finished role is another's. -/
theorem keeps_mark (h : ∀ j r outputs, L.Bound t j r → L.role j r ≠ some (.completed outputs)) :
    Keeps L (L.mark t) := by
  refine ⟨fun _ _ h => h, fun _ _ h => h, fun _ _ h => h, fun _ _ => rfl, fun j r status hstatus hrole => ?_⟩
  rw [mark_role]
  split
  · rename_i hbound
    cases status with
    | completed outputs => exact absurd hrole (h j r outputs hbound)
    | uncertain => rw [hrole, Option.map_some]
    | _ => cases hstatus
  · exact hrole

/-! ## Steps -/

/-- The roles of a working task are not completed. -/
theorem Sound.not_completed (h : Sound strict L) (hw : L.progress t = .working) (hb : L.Bound t j r)
    (outputs : List ObjectId) : L.role j r ≠ some (.completed outputs) := by
  intro hrole
  have hok := h.roleOk j r
  rw [hrole] at hok
  obtain ⟨outputs', hdone⟩ := hok.done t hb
  rw [hw] at hdone
  cases hdone

/-- The roles of a working task that does all their work are not finished. -/
theorem Sound.unfinished_of_serves (h : Sound strict L) (hserves : L.Serves t j r) (hw : L.progress t = .working) :
    Unfinished L j r := unfinished_of_eq (h.submitted hserves hw).1 rfl

theorem Sound.unfinished_of_active (h : Sound strict L) {active : ActiveReduction}
    (hactive : L.reduction j r = some active) : Unfinished L j r := by
  obtain ⟨n, hrole, -⟩ := h.reducing_of_active hactive
  exact unfinished_of_eq hrole rfl

omit [F64 F] in
/-- The task of a role or of a chain does all the work of each of its roles. -/
theorem serves_of_conclude {front : List String} {last : String}
    (hb : L.binding t = some (.single j last) ∧ front = [] ∨ L.binding t = some (.fusedChain j (front ++ [last])))
    (hr : r ∈ front ++ [last]) : L.Serves t j r := by
  rcases hb with ⟨hb, rfl⟩ | hb
  · rw [List.nil_append, List.mem_singleton] at hr
    exact .inl (hr ▸ hb)
  · exact .inr ⟨_, hb, hr⟩

/-- **What a step keeps.** -/
theorem Step.keeps (hstep : Step strict L L') (h : Sound strict L) : Keeps L L' := by
  cases hstep with
  | submit spec hnew => exact keeps_add hnew
  | @lose t spec hspec hretry hw =>
    refine (keeps_setProgress hw .uncertain).trans (keeps_mark fun j r outputs hb => ?_)
    exact h.not_completed hw hb outputs
  | accept hnew _ => exact keeps_accept h hnew
  | ready hn => exact keeps_setRole hn.unfinished
  | single hl _ =>
    have hidle := (hl.notStarted _ (List.mem_cons_self ..)).unfinished
    exact ((keeps_addAll h hl.new _).trans (keeps_setRole hidle)).trans (keeps_setPlanned _)
  | fused hl _ _ _ _ _ =>
    have hidle := fun r hr => (hl.notStarted r hr).unfinished
    exact ((keeps_addAll h hl.new _).trans (keeps_setRoles hidle)).trans (keeps_setPlanned _)
  | sharded hl _ _ _ =>
    have hidle := (hl.notStarted _ (List.mem_cons_self ..)).unfinished
    exact ((keeps_addAll h hl.new _).trans (keeps_setRole hidle)).trans (keeps_setPlanned _)
  | level hactive _ hnew _ _ _ _ _ _ =>
    exact ((keeps_addAll h hnew _).trans (keeps_setReduction _)).trans (keeps_setRole (h.unfinished_of_active hactive))
  | reduced hactive _ _ => exact (keeps_setReduction _).trans (keeps_setRole (h.unfinished_of_active hactive))
  | finish _ hw _ _ => exact keeps_setProgress hw _
  | conclude hb hw =>
    refine (keeps_setProgress hw _).trans (keeps_setRoles fun r hr => ?_)
    exact h.unfinished_of_serves (serves_of_conclude hb hr) hw
  | shardWaits _ hw hrole hL' _ =>
    subst hL'
    exact (keeps_setProgress hw _).trans (keeps_setRole (unfinished_of_eq hrole rfl))
  | shardsComplete _ hw hrole hL' _ _ _ =>
    subst hL'
    exact (keeps_setProgress hw _).trans (keeps_setRole (unfinished_of_eq hrole rfl))
  | shardsReduce _ hw hrole hL' _ _ _ _ =>
    subst hL'
    exact ((keeps_setProgress hw _).trans (keeps_setReduction _)).trans (keeps_setRole (unfinished_of_eq hrole rfl))
  | reducerWaits _ hw hactive hL' _ =>
    subst hL'
    exact (keeps_setProgress hw _).trans (keeps_setRole (h.unfinished_of_active hactive))
  | levelComplete _ hw hactive hL' _ =>
    subst hL'
    exact ((keeps_setProgress hw _).trans (keeps_setReduction _)).trans (keeps_setRole (h.unfinished_of_active hactive))

theorem Steps.keeps (hsteps : Steps strict L L') (h : Sound strict L) : Keeps L L' := by
  induction hsteps with
  | refl => exact .refl _
  | tail hsteps hstep ih => exact ih.trans (hstep.keeps (Steps.sound hsteps h))

end Plurifold
