import Plurifold.Fabric.Objects
import Plurifold.Fabric.Lease

/-!
# What the table of objects says

The fabric believes what it is told about objects: that a digest is one of a blob, and that an agent holds a copy. So what
is true of everything that is published and announced is true of everything in the table (`event_table`), whatever else is
called. A task that is completed has its one output in the table (`event_completes`).
-/

namespace Plurifold

open Lib Attempt Fabric

variable {F : Type}

/-- What is true of objects by their identity, and of an identity and a location. -/
structure Holdings where
  known : ObjectMetadata → Prop
  held : ObjectMetadata → ResourceId → Prop

namespace Holdings

variable (H : Holdings)

structure Lists (object : ObjectMetadata) : Prop where
  known : H.known object.identity
  held : ∀ r ∈ object.locations, H.held object.identity r

/-- The table is true, and objects are stored under their own identifier. -/
def Table (s : Fabric F) : Prop := ∀ o object, s.objects.lookup o = some object → object.id = o ∧ H.Lists object

/-- What the call tells the fabric is true. -/
def Told (s : Fabric F) : Op F → Prop
  | .publishObject object => H.Lists object
  | .addObjectLocation o r => ∀ known, s.identityOf o = some known → H.held known r
  | .completeExecution _ outputs => ∀ object ∈ outputs, H.Lists object
  | _ => True

/-- The table stays true. -/
def Keeps (s s' : Fabric F) : Prop := H.Table s → H.Table s'

instance : IsPreorder (Fabric F) H.Keeps where
  refl _ h := h
  trans _ _ _ hab hbc h := hbc (hab h)

end Holdings

variable {H : Holdings} {s s' : Fabric F}

theorem Holdings.Table.of_eq (h : s'.objects = s.objects) : H.Keeps s s' := by
  intro hs o object ho
  rw [h] at ho
  exact hs o object ho

theorem mem_addLocations_or {existing : ObjectMetadata} {locations : List ResourceId} {r : ResourceId}
    (h : r ∈ (addLocations existing locations).locations) : r ∈ existing.locations ∨ r ∈ locations := by
  have hfold : ∀ (locations known : List ResourceId),
      r ∈ locations.foldl (fun known location => if known.contains location then known else known ++ [location]) known →
      r ∈ known ∨ r ∈ locations := by
    intro locations
    induction locations with
    | nil => exact fun known hr => .inl hr
    | cons location locations ih =>
      intro known hr
      rcases ih _ hr with hr | hr
      · dsimp only at hr
        split at hr
        · exact .inl hr
        · rcases List.mem_append.mp hr with hr | hr
          · exact .inl hr
          · exact .inr (List.mem_cons.mpr (.inl (List.mem_singleton.mp hr)))
      · exact .inr (List.mem_cons_of_mem _ hr)
  exact hfold locations existing.locations h

/-- Adding true locations to a stored object. -/
theorem table_addLocations {o : ObjectId} {existing : ObjectMetadata} (ho : s.objects.lookup o = some existing)
    {locations : List ResourceId} (hheld : ∀ r ∈ locations, H.held existing.identity r) :
    H.Keeps s { s with objects := s.objects.insert o (addLocations existing locations) } := by
  intro hs o' object ho'
  simp only [Map.lookup_insert_eq] at ho'
  split at ho'
  · rename_i heq
    subst heq
    cases ho'
    obtain ⟨hid, hlists⟩ := hs _ existing ho
    refine ⟨hid, hlists.known, fun r hr => ?_⟩
    rcases mem_addLocations_or hr with hr | hr
    · exact hlists.held r hr
    · exact hheld r hr
  · exact hs o' object ho'

theorem publishObject_table {object : ObjectMetadata} (hobject : H.Lists object) :
    (publishObject (F := F) object).Along H.Keeps := by
  intro s
  unfold publishObject
  rw [state_bind]
  cases hl : s.objects.lookup object.id with
  | none =>
    intro hs o stored ho
    simp only [update_apply, Map.lookup_insert_eq] at ho
    split at ho
    · rename_i heq
      subst heq
      cases ho
      exact ⟨rfl, hobject⟩
    · exact hs o stored ho
  | some existing =>
    dsimp only
    by_cases hsame : sameObjectIdentity existing object = true
    · rw [if_neg (by simp [hsame])]
      refine table_addLocations hl fun r hr => ?_
      rw [sameObjectIdentity_iff.mp hsame]
      exact hobject.held r hr
    · rw [if_pos (by simpa using hsame)]
      exact refl_of H.Keeps s

theorem addObjectLocation_table {o : ObjectId} {r : ResourceId}
    (hheld : ∀ known, s.identityOf o = some known → H.held known r) :
    H.Keeps s (addObjectLocation o r s).2 := by
  unfold addObjectLocation
  rw [state_bind]
  cases ho : s.objects.lookup o with
  | none => exact refl_of H.Keeps s
  | some existing =>
    refine table_addLocations ho fun r' hr => ?_
    obtain rfl := List.mem_singleton.mp hr
    exact hheld _ (by rw [Fabric.identityOf, ho]; rfl)

theorem removeResource_table (r : ResourceId) (s : Fabric F) : H.Keeps s (s.removeResource r) := by
  intro hs o object ho
  simp only [removeResource, Map.lookup_mapVals] at ho
  obtain ⟨existing, hexisting, rfl⟩ := Option.map_eq_some_iff.mp ho
  obtain ⟨hid, hlists⟩ := hs o existing hexisting
  exact ⟨hid, hlists.known, fun r hr => hlists.held r (List.mem_filter.mp hr).1⟩

variable [F64 F]

/-- **What everyone tells the truth about, the table says.** -/
theorem event_table (e : Env) {op : Op F} (htold : H.Told s op) : H.Keeps s (Event.of e s op).after := by
  have same : ∀ {α : Type} {m : FabricM F α} {g : α → Reply}, m.Along SameObjects →
      exec e op = (m >>= fun a => pure (g a)) → H.Keeps s (Event.of e s op).after := by
    intro α m g hm hx
    refine Holdings.Table.of_eq ?_
    simp only [Event.of, hx, bind_pure_apply]
    exact hm s
  cases op with
  | setTopology | upsertLink | removeLink | registerResource => exact .of_eq rfl
  | heartbeat r epoch => exact same (heartbeat_along (fun _ _ => rfl) e r epoch) rfl
  | unregisterResource r => exact removeResource_table r s
  | expireResourcesAt unixMs =>
    have hfold : ∀ (ids : List ResourceId) (s : Fabric F), H.Keeps s (ids.foldl (fun s id => s.removeResource id) s) := by
      intro ids
      induction ids with
      | nil => exact fun s => refl_of H.Keeps s
      | cons id ids ih => exact fun s => trans_of H.Keeps (removeResource_table id s) (ih _)
    exact hfold _ s
  | publishObject object =>
    have hx := exec_publishObject e s object
    simp only [Event.of, hx]
    exact publishObject_table htold s
  | addObjectLocation o r =>
    have hx : exec e (.addObjectLocation o r) s = _ := bind_pure_apply (Fabric.addObjectLocation o r) (fun _ => Reply.unit) s
    simp only [Event.of, hx]
    exact addObjectLocation_table htold
  | submit task => exact same (keptByRoles_sameObjects.submit task) rfl
  | submitCooperative job => exact same (submitCooperative_along (fun _ _ => rfl) keptByRoles_sameObjects e job) rfl
  | submitLogical job => exact same (submitLogical_along (fun _ _ => rfl) keptByRoles_sameObjects e job) rfl
  | beginExecution t r => exact same (beginExecution_along (fun _ _ _ => rfl) e t r) rfl
  | renewExecution lease => exact same (renewExecution_along (fun _ _ _ => rfl) e lease) rfl
  | reapExpiredExecutionsAt unixMs => exact .of_eq (reapExpiredExecutionsAt_objects e unixMs s)
  | refreshReadyRoles => exact same (g := fun _ => .unit) (refreshReadyRoles_along keptByRoles_sameObjects e) rfl
  | completeExecution lease outputs =>
    have hx := exec_completeExecution e s lease outputs
    simp only [Event.of, hx]
    rcases completeExecution_cases e lease outputs s with ⟨err, h⟩ | ⟨current, -, -, -, h⟩
    · rw [h]
      exact refl_of H.Keeps s
    · rw [h]
      have hset : H.Keeps s (s.setStatus lease.taskId (.completed (outputs.map (·.id)))) := .of_eq rfl
      have hpublish : ∀ (outputs : List ObjectMetadata) (i : Nat) (s : Fabric F), (∀ object ∈ outputs, H.Lists object) →
          H.Keeps s (eachFrom (fun _ object => Fabric.publishObject object) i outputs s).2 := by
        intro outputs
        induction outputs with
        | nil => exact fun i s _ => refl_of H.Keeps s
        | cons object outputs ih =>
          intro i s hall
          have hone := publishObject_table (hall object (List.mem_cons_self ..)) s
          rw [eachFrom, bind_apply]
          cases hr : Fabric.publishObject object s with
          | mk result s₁ =>
            rw [hr] at hone
            cases result with
            | error err => exact hone
            | ok u => exact trans_of H.Keeps hone (ih (i + 1) s₁ fun o ho => hall o (List.mem_cons_of_mem _ ho))
      refine trans_of H.Keeps hset ?_
      unfold commitOutputs each
      have hall := hpublish outputs 0 (s.setStatus lease.taskId (.completed (outputs.map (·.id)))) htold
      rw [bind_apply]
      cases hr : eachFrom (fun _ object => Fabric.publishObject object) 0 outputs
          (s.setStatus lease.taskId (.completed (outputs.map (·.id)))) with
      | mk result s₁ =>
        rw [hr] at hall
        cases result with
        | error err => exact hall
        | ok u => exact trans_of H.Keeps hall (.of_eq (completeCooperativeRole_objects _ _ _ s₁))

/-- A task that is completed was, or is so by this call, and then its only output is in the table. -/
theorem event_completes (e : Env) (s : Fabric F) (op : Op F) {t : TaskId} {outputs : List ObjectId}
    (h : (Event.of e s op).after.taskStatus t = some (.completed outputs)) :
    s.taskStatus t = some (.completed outputs) ∨
    ∃ lease objects, op = .completeExecution lease objects ∧ lease.taskId = t ∧ outputs = objects.map (·.id) ∧
      ∀ object, objects = [object] → (Event.of e s op).after.identityOf object.id = some object.identity := by
  obtain ⟨spec, hl⟩ := taskStatus_eq h
  have hmoves := event_moves e s op t
  rw [hl] at hmoves
  generalize hb : s.tasks.lookup t = before at hmoves
  cases hmoves with
  | stays => exact .inl (taskStatus_of_lookup hb)
  | commits spec lease current objects hop htask hcurrent =>
    refine .inr ⟨lease, objects, hop, htask, rfl, ?_⟩
    rintro object rfl
    cases hop
    have hx := exec_completeExecution e s lease [object]
    simp only [Event.of, hx]
    rcases completeExecution_cases e lease [object] s with ⟨err, hrun⟩ | ⟨current', -, -, hconflict, hrun⟩
    · -- the task was not completed
      simp only [Event.of, hx, hrun] at h
      rw [taskStatus_of_lookup hb] at h
      cases h
    · rw [hrun, commitOutputs_identityOf, eachFrom]
      rcases publishObject_cases object (s.setStatus lease.taskId (.completed ([object].map (·.id)))) with
        ⟨-, existing, hexisting, hother⟩ | ⟨s', hok, -, hstored, -⟩
      · -- an output that conflicts is refused before
        exfalso
        have hfound := List.find?_eq_none.mp hconflict object (List.mem_singleton_self object)
        rw [setStatus_objects] at hexisting
        have hsame : sameObjectIdentity existing object = true := by simpa [hexisting] using hfound
        exact hother (sameObjectIdentity_iff.mp hsame)
      · rw [bind_ok hok]
        exact hstored

end Plurifold
