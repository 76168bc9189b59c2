import Plurifold.Coordinator.Calls
import Plurifold.Fabric.Custody

/-!
# The attempts at a task

An agent learns of a lease from the answer to a poll or to a renewal. The answer may be late or lost, but what it says is
what a call on the fabric returned. So the attempts at a task that agents have heard of do not overlap in time
(`attempts_apart`): each lease of a new attempt begins when all leases of the others have run out. Of a task that may not
be retried, there is only one attempt (`handsOut_once`).
-/

namespace Plurifold

open Lib Attempt Fabric CoordinatorState

variable {F : Type} [F64 F] {c : CoordinatorState F}

/-- The lease that the answer to a request hands out. -/
def Served.handsOut (served : Served F) : Option ExecutionLease :=
  match (respond served.env served.request served.before).1 with
  | .ok answer => answer.reply.bind fun
    | .lease lease => some lease
    | _ => none
  | .error _ => none

theorem handsOut_reply {served : Served F} {lease : ExecutionLease} (h : served.handsOut = some lease) :
    ∃ answer, (respond served.env served.request served.before).1 = .ok answer ∧ answer.reply = some (.lease lease) := by
  unfold Served.handsOut at h
  split at h
  · rename_i answer hanswer
    obtain ⟨reply, hreply, hlease⟩ := Option.bind_eq_some_iff.mp h
    cases reply with
    | lease lease' =>
      cases hlease
      exact ⟨answer, hanswer, hreply⟩
    | _ => cases hlease
  · cases h

/-- The call behind a lease that is handed out. -/
theorem Served.Calls.issued {served : Served F} {events : List (Event F)} (h : served.Calls events)
    {lease : ExecutionLease} (hlease : served.handsOut = some lease) : ∃ ev ∈ events, ev.issued = some lease := by
  obtain ⟨answer, hanswer, hreply⟩ := handsOut_reply hlease
  obtain ⟨ev, hev, hok⟩ := h.reports answer _ hanswer hreply
  exact ⟨ev, hev, by rw [Event.issued, hok]⟩

/-- The coordinator reaps at the time that it reads first. -/
theorem Served.Calls.timely {served : Served F} {events : List (Event F)} (h : served.Calls events)
    (hsteady : served.env.Steady) {ev : Event F} (hev : ev ∈ events) : ev.Timely := by
  intro unixMs hop
  obtain ⟨part, henv⟩ := h.lent ev hev
  have hmakes := h.makes ev hev
  have hclock : served.env.clock ≤ ev.env.clock := by
    rw [henv]
    exact hsteady [] (part ++ []) trivial
  rw [hop] at hmakes
  generalize served.request = request at hmakes
  cases request with
  | maintenanceTick =>
    rcases hmakes with hexpire | hreap
    · cases hexpire
    · cases hreap
      exact hclock
  | pollWork r epoch =>
    rcases hmakes with hrefresh | ⟨t, hbegin⟩
    · cases hrefresh
    · cases hbegin
  | reportLinkMeasurement reporter epoch peer measurement =>
    rcases hmakes with ⟨rtt, bandwidth, hupsert⟩ | hremove
    · cases hupsert
    · cases hremove
  | _ => cases hmakes

theorem history_steady (e : Env) (c : CoordinatorState F) (requests : List (Request F)) (he : e.Steady) {served : Served F}
    (hmem : served ∈ history e c requests) : served.env.Steady := by
  have hstep : ∀ (e : Env) (c : CoordinatorState F) (request : Request F), e.Steady → (e.sub 1).Steady :=
    fun e _ _ h => h.sub 1
  obtain ⟨e', hserved, hsteady, -⟩ := (history_rule (I := fun e _ => e.Steady) hstep requests e c he).1 served hmem
  rw [hserved]
  exact hsteady.sub 0

/-! ## Work that may not be retried -/

/-- Request number `k` is a poll that is answered with an attempt at task `t`. -/
def HandsOut (e : Env) (c : CoordinatorState F) (requests : List (Request F)) (t : TaskId) (k : Nat) : Prop :=
  ∃ r epoch a, requests[k]? = some (.pollWork r epoch) ∧ a.lease.taskId = t ∧
    (respond (turnEnv e k) (.pollWork r epoch) (run e c (requests.take k))).1 = .ok (.work (some a))

/-- An attempt that a poll is answered with has been begun. -/
theorem Served.Calls.begun {served : Served F} {events : List (Event F)} (h : served.Calls events) {r : ResourceId}
    {epoch : UInt64} {a : WorkAssignment F} (hrequest : served.request = .pollWork r epoch)
    (hanswer : (respond served.env served.request served.before).1 = .ok (.work (some a)))
    (hevents : ∀ ev ∈ events, ∃ e s, ev = Event.of e s ev.op) :
    ∃ ev ∈ events, ev.begun a.lease.taskId = some a.lease := by
  obtain ⟨ev, hev, hreply⟩ := h.reports _ (.lease a.lease) hanswer rfl
  obtain ⟨e, s, hof⟩ := hevents ev hev
  have hmakes := h.makes ev hev
  rw [hrequest] at hmakes
  rcases hmakes with hop | ⟨t, hop⟩
  · rw [hof, hop] at hreply
    simp only [Event.of, exec_refreshReadyRoles] at hreply
    cases hr : (refreshReadyRoles e s).1 with
    | error err =>
      rw [hr] at hreply
      cases hreply
    | ok u =>
      rw [hr] at hreply
      cases hreply
  · have hbegun : ev.begun t = some a.lease := by
      rw [Event.begun, hop, hreply]
      exact if_pos rfl
    have htask : a.lease.taskId = t := by
      rw [hof] at hbegun
      obtain ⟨-, -, -, -, -, -, -, htask⟩ := begun_cases hbegun
      exact htask
    exact ⟨ev, hev, by rw [htask, hbegun]⟩

/-- **Work that may not be retried is handed out once.** -/
theorem handsOut_once (e : Env) (m x : UInt64) (requests : List (Request F)) {t : TaskId} {spec : TaskSpec F}
    (hspec : (run e (CoordinatorState.new m x) requests).fabric.taskSpec t = some spec)
    (honce : spec.effects.automaticallyRetryable = false) {k k' : Nat}
    (hk : HandsOut e (CoordinatorState.new m x) requests t k) (hk' : HandsOut e (CoordinatorState.new m x) requests t k') :
    k = k' := by
  obtain ⟨calls, segments, hlent, hevents, hperform, hsegments⟩ := run_calls requests e (CoordinatorState.new m x)
  obtain ⟨htrace, hfinal⟩ := trace_splice (e := e) calls [] (CoordinatorState.new m x : CoordinatorState F).fabric
  rw [hperform] at hfinal
  obtain ⟨record, hrecord, rfl⟩ : ∃ record, (run e (CoordinatorState.new m x) requests).fabric.tasks.lookup t = some record ∧
      record.spec = spec := Option.map_eq_some_iff.mp hspec
  -- only one event begins the task, so no two segments have one that does
  have hbegins := (final_leaseHistory (e.splice [] (calls.map (·.part))) m x (calls.map (·.op))).exclusive t record
    (by rw [← hrecord]; exact congrArg (fun s => s.tasks.lookup t) hfinal) honce
  have hpairwise : (begins t segments.flatten).Pairwise fun _ _ => False := by
    have hlength : (begins t segments.flatten).length ≤ 1 := by
      rw [← hevents, ← htrace]
      exact hbegins.1
    match begins t segments.flatten, hlength with
    | [], _ => exact .nil
    | [_], _ => exact List.pairwise_singleton ..
  have hapart := (List.pairwise_flatten.mp (List.pairwise_filterMap.mp hpairwise)).2
  have begun : ∀ {k : Nat}, HandsOut e (CoordinatorState.new m x) requests t k → ∃ segment, segments[k]? = some segment ∧
      ∃ ev ∈ segment, ∃ lease, ev.begun t = some lease := by
    intro k hk
    obtain ⟨r, epoch, a, hrequest, rfl, hanswer⟩ := hk
    obtain ⟨segment, hsegment, hcalls⟩ := forall₂_getElem? hsegments (history_turn e _ hrequest)
    obtain ⟨ev, hev, hbegun⟩ := hcalls.begun rfl hanswer fun ev hev => by
      obtain ⟨call, -, s, hof⟩ := mem_events (hevents ▸ List.mem_flatten.mpr ⟨segment, List.mem_of_getElem? hsegment, hev⟩)
      exact ⟨_, s, by rw [hof]; rfl⟩
    exact ⟨segment, hsegment, ev, hev, _, hbegun⟩
  have never : ∀ {k k' : Nat}, HandsOut e (CoordinatorState.new m x) requests t k →
      HandsOut e (CoordinatorState.new m x) requests t k' → ¬k < k' := by
    intro k k' hk hk' hlt
    obtain ⟨segment, hsegment, ev, hev, lease, hbegun⟩ := begun hk
    obtain ⟨segment', hsegment', ev', hev', lease', hbegun'⟩ := begun hk'
    obtain ⟨hi, rfl⟩ := List.getElem?_eq_some_iff.mp hsegment
    obtain ⟨hj, rfl⟩ := List.getElem?_eq_some_iff.mp hsegment'
    exact List.pairwise_iff_getElem.mp hapart k k' hi hj hlt ev hev ev' hev' lease hbegun lease' hbegun'
  exact Nat.le_antisymm (Nat.not_lt.mp (never hk' hk)) (Nat.not_lt.mp (never hk hk'))

/-! ## Attempts in time -/

/-- **Attempts do not overlap.** In every run of the coordinator whose clock does not go back: when an answer hands out a
lease, the lease begins at a time `now` that the request has read, and every lease of another attempt at the same task
that was handed out before, to whichever agent, has run out at that time. -/
theorem attempts_apart (e : Env) (m x : UInt64) (requests : List (Request F)) (he : e.Steady)
    {pre post : List (Served F)} {served : Served F} {lease : ExecutionLease}
    (hhistory : history e (CoordinatorState.new m x) requests = pre ++ served :: post)
    (hlease : served.handsOut = some lease) :
    ∃ now, (∃ p, served.env.now p = now) ∧ lease.expiresAtUnixMs = saturatingAdd now x ∧
      ∀ served' ∈ pre, ∀ earlier, served'.handsOut = some earlier → earlier.taskId = lease.taskId →
        earlier.executionId ≠ lease.executionId → earlier.expiresAtUnixMs ≤ now := by
  obtain ⟨calls, segments, hlent, hevents, -, hsegments⟩ := run_calls requests e (CoordinatorState.new m x)
  obtain ⟨htrace, -⟩ := trace_splice (e := e) calls [] (CoordinatorState.new m x : CoordinatorState F).fabric
  rw [hevents] at htrace
  have hsteady : (e.splice [] (calls.map (·.part))).Steady := he.splice hlent
  have htimely : ∀ ev ∈ trace (e.splice [] (calls.map (·.part))) (Fabric.new m x) (calls.map (·.op)), ev.Timely := by
    intro ev hev
    obtain ⟨segment, hsegment, hev⟩ := List.mem_flatten.mp (htrace ▸ hev)
    obtain ⟨of, hof, hcalls⟩ := forall₂_mem_right hsegments hsegment
    exact hcalls.timely (history_steady e _ requests he hof) hev
  rw [hhistory] at hsegments
  obtain ⟨before, own, after, rfl, hbefore, hown⟩ := forall₂_split hsegments
  obtain ⟨ev, hev, hissued⟩ := hown.issued hlease
  obtain ⟨front, back, rfl⟩ := List.append_of_mem hev
  have hsplit : trace (e.splice [] (calls.map (·.part))) (Fabric.new m x) (calls.map (·.op)) =
      (before.flatten ++ front) ++ ev :: (back ++ after.flatten) := by
    refine htrace.trans ?_
    rw [List.flatten_append, List.flatten_cons, List.append_assoc, List.append_assoc, List.cons_append]
  obtain ⟨hdeadline, hapart⟩ := trace_custody hsteady htimely hsplit hissued
  obtain ⟨part, henv⟩ := hown.lent ev (List.mem_append_right _ (List.mem_cons_self ..))
  refine ⟨ev.env.clock, ⟨part ++ [], by rw [henv]; rfl⟩, hdeadline, fun served' hserved' earlier hearlier => ?_⟩
  obtain ⟨segment, hsegment, hcalls⟩ := forall₂_mem_left hbefore hserved'
  obtain ⟨ev', hev', hissued'⟩ := hcalls.issued hearlier
  exact hapart ev' (List.mem_append_left _ (List.mem_flatten.mpr ⟨segment, hsegment, hev'⟩)) earlier hissued'

/-- A resource registers, polls a task, and polls it again once the lease has run out. -/
def retriedRequests : List (Request ℚ) :=
  [.registerResource (Sample.resource 1) "http://a", .submitTask (Sample.task 7), .pollWork ⟨1⟩ 1, .maintenanceTick,
    .pollWork ⟨1⟩ 1]

theorem attempts_apart_retried :
    ∃ (served : Served ℚ) (lease earlier : ExecutionLease), served.handsOut = some lease ∧ earlier.executionId = ⟨5684⟩ ∧
      lease.executionId = ⟨90964⟩ ∧ ∃ now, (∃ p, served.env.now p = now) ∧
        lease.expiresAtUnixMs = saturatingAdd now 0 ∧ earlier.expiresAtUnixMs ≤ now := by
  have hsteady : (Env.numbered fun _ => 0).Steady := fun _ _ _ => UInt64.le_refl 0
  have hfirst : ((history (Env.numbered fun _ => 0) (CoordinatorState.new 100 0) retriedRequests)[2]?.bind
      Served.handsOut).map (fun lease => (lease.taskId, lease.executionId)) = some (⟨7⟩, ⟨5684⟩) := by decide +kernel
  have hsecond : ((history (Env.numbered fun _ => 0) (CoordinatorState.new 100 0) retriedRequests)[4]?.bind
      Served.handsOut).map (fun lease => (lease.taskId, lease.executionId)) = some (⟨7⟩, ⟨90964⟩) := by decide +kernel
  obtain ⟨earlier, hbind, hids⟩ := Option.map_eq_some_iff.mp hfirst
  obtain ⟨served', hserved', hearlier⟩ := Option.bind_eq_some_iff.mp hbind
  obtain ⟨lease, hbind', hids'⟩ := Option.map_eq_some_iff.mp hsecond
  obtain ⟨served, hserved, hlease⟩ := Option.bind_eq_some_iff.mp hbind'
  obtain ⟨htask, hid⟩ := Prod.mk.inj hids
  obtain ⟨htask', hid'⟩ := Prod.mk.inj hids'
  obtain ⟨hlt, hat⟩ := List.getElem?_eq_some_iff.mp hserved
  have hsplit := (List.take_append_drop 4 (history (Env.numbered fun _ => 0) (CoordinatorState.new 100 0)
    retriedRequests)).symm
  rw [List.drop_eq_getElem_cons hlt, hat] at hsplit
  obtain ⟨now, hnow, hdeadline, hapart⟩ := attempts_apart _ 100 0 retriedRequests hsteady hsplit hlease
  have hbefore : served' ∈ (history (Env.numbered fun _ => 0) (CoordinatorState.new 100 0) retriedRequests).take 4 :=
    List.mem_of_getElem? (by rw [List.getElem?_take_of_lt (show 2 < 4 by decide)]; exact hserved')
  refine ⟨served, lease, earlier, hlease, hid, hid', now, hnow, hdeadline,
    hapart served' hbefore earlier hearlier (htask.trans htask'.symm) ?_⟩
  rw [hid, hid']
  decide

end Plurifold
