import Plurifold.Fabric.Graph
import Plurifold.Fabric.Lifecycle

/-!
# The object table over whole runs

Three operations write the table of objects: a publication, a new location, and a completion that publishes its
outputs; the removal of a resource drops it from the locations. What is known of an object besides its locations is its
`identity`. Every call leaves it alone (`event_evolves`), and so does every run; the first publication decides it.

A logical job declares the record offsets of an object when it is submitted, and the offsets are used when the role is
ready. Since the size of the object has not changed, they still fit (`RecordsFit`).
-/

namespace Plurifold

open Lib Attempt Fabric

variable {F : Type} {s s' : Fabric F}

/-! ## Identities -/

/-- What is known of an object besides its locations. -/
def ObjectMetadata.identity (self : ObjectMetadata) : ObjectMetadata := { self with locations := [] }

theorem sameObjectIdentity_iff {a b : ObjectMetadata} : sameObjectIdentity a b = true ↔ a.identity = b.identity := by
  cases a
  cases b
  simp only [sameObjectIdentity, Bool.and_eq_true, decide_eq_true_eq, ObjectMetadata.identity, ObjectMetadata.mk.injEq,
    true_and]
  tauto

/-- The identity stored under an identifier. -/
def Fabric.identityOf (s : Fabric F) (o : ObjectId) : Option ObjectMetadata := (s.objects.lookup o).map (·.identity)

/-- Objects stay with their identity, and lose no location but those of removed resources. -/
def Evolves (removed : ResourceId → Prop) (s s' : Fabric F) : Prop :=
  ∀ o object, s.objects.lookup o = some object → ∃ object', s'.objects.lookup o = some object' ∧
    object'.identity = object.identity ∧ ∀ r ∈ object.locations, r ∈ object'.locations ∨ removed r

instance (removed : ResourceId → Prop) : IsPreorder (Fabric F) (Evolves removed) where
  refl _ _ object ho := ⟨object, ho, rfl, fun _ hr => .inl hr⟩
  trans _ _ _ hab hbc o object ho := by
    obtain ⟨object', ho', hid, hloc⟩ := hab o object ho
    obtain ⟨object'', ho'', hid', hloc'⟩ := hbc o object' ho'
    refine ⟨object'', ho'', hid'.trans hid, fun r hr => ?_⟩
    rcases hloc r hr with hr | hr
    · exact hloc' r hr
    · exact .inr hr

theorem Evolves.mono {removed removed' : ResourceId → Prop} (h : Evolves removed s s')
    (himp : ∀ r, removed r → removed' r) : Evolves removed' s s' := by
  intro o object ho
  obtain ⟨object', ho', hid, hloc⟩ := h o object ho
  exact ⟨object', ho', hid, fun r hr => (hloc r hr).imp id (himp r)⟩

theorem Evolves.identityOf {removed : ResourceId → Prop} (h : Evolves removed s s') {o : ObjectId} {known : ObjectMetadata}
    (hknown : s.identityOf o = some known) : s'.identityOf o = some known := by
  obtain ⟨object, ho, rfl⟩ := Option.map_eq_some_iff.mp hknown
  obtain ⟨object', ho', hid, -⟩ := h o object ho
  rw [Fabric.identityOf, ho', Option.map_some, hid]

theorem evolves_of_eq {removed : ResourceId → Prop} (h : s'.objects = s.objects) : Evolves removed s s' := by
  intro o object ho
  exact ⟨object, h ▸ ho, rfl, fun r hr => .inl hr⟩

/-- No resource is removed. -/
abbrev Retains : Fabric F → Fabric F → Prop := Evolves fun _ => False

/-! ## Writers of the table -/

theorem mem_addLocations {known : List ResourceId} {r : ResourceId} (hr : r ∈ known) : ∀ locations : List ResourceId,
    r ∈ locations.foldl (fun known location => if known.contains location then known else known ++ [location]) known := by
  intro locations
  induction locations generalizing known with
  | nil => exact hr
  | cons location locations ih =>
    rw [List.foldl_cons]
    apply ih
    split
    · exact hr
    · exact List.mem_append_left _ hr

/-- Writing an entry with the identity and the locations that were there. -/
theorem retains_insert {o : ObjectId} {object : ObjectMetadata}
    (h : ∀ existing, s.objects.lookup o = some existing →
      object.identity = existing.identity ∧ existing.locations ⊆ object.locations) :
    Retains s { s with objects := s.objects.insert o object } := by
  intro o' existing ho'
  simp only [Map.lookup_insert_eq]
  split
  · rename_i heq
    subst heq
    obtain ⟨hid, hloc⟩ := h existing ho'
    exact ⟨object, rfl, hid, fun r hr => .inl (hloc hr)⟩
  · exact ⟨existing, ho', rfl, fun r hr => .inl hr⟩

theorem retains_addLocations {o : ObjectId} {existing : ObjectMetadata} (ho : s.objects.lookup o = some existing)
    (locations : List ResourceId) :
    Retains s { s with objects := s.objects.insert o (addLocations existing locations) } := by
  apply retains_insert
  intro stored hstored
  rw [ho] at hstored
  cases hstored
  exact ⟨rfl, fun r hr => mem_addLocations hr locations⟩

/-- A publication is refused without effect, or the identity published is the one stored. -/
theorem publishObject_cases (object : ObjectMetadata) (s : Fabric F) :
    (publishObject object s = (.error (.objectConflict object.id), s) ∧
      ∃ existing, s.objects.lookup object.id = some existing ∧ existing.identity ≠ object.identity) ∨
    ∃ s', publishObject object s = (.ok (), s') ∧ Retains s s' ∧ s'.identityOf object.id = some object.identity ∧
      ∀ o, o ≠ object.id → s'.objects.lookup o = s.objects.lookup o := by
  unfold publishObject
  rw [state_bind]
  cases hl : s.objects.lookup object.id with
  | none =>
    refine .inr ⟨_, rfl, ?_, ?_, ?_⟩
    · apply retains_insert
      intro existing hexisting
      rw [hl] at hexisting
      cases hexisting
    · simp [Fabric.identityOf]
    · intro o ho
      simp [ho]
  | some existing =>
    dsimp only
    by_cases hsame : sameObjectIdentity existing object = true
    · rw [if_neg (by simp [hsame])]
      refine .inr ⟨_, rfl, retains_addLocations hl _, ?_, ?_⟩
      · rw [← sameObjectIdentity_iff.mp hsame]
        simp [Fabric.identityOf, addLocations, ObjectMetadata.identity]
      · intro o ho
        simp [ho]
    · rw [if_pos (by simpa using hsame)]
      exact .inl ⟨rfl, existing, rfl, fun hid => hsame (sameObjectIdentity_iff.mpr hid)⟩

theorem publishObject_retains (object : ObjectMetadata) : (publishObject (F := F) object).Along Retains := by
  intro s
  rcases publishObject_cases object s with ⟨h, -⟩ | ⟨s', h, hretains, -⟩
  · rw [h]
    exact refl_of Retains s
  · rw [h]
    exact hretains

theorem addObjectLocation_retains (o : ObjectId) (r : ResourceId) : (addObjectLocation (F := F) o r).Along Retains := by
  intro s
  unfold addObjectLocation
  rw [state_bind]
  cases ho : s.objects.lookup o with
  | none => exact refl_of Retains s
  | some object => exact retains_addLocations ho [r]

theorem removeResource_evolves (id : ResourceId) (s : Fabric F) : Evolves (· = id) s (s.removeResource id) := by
  intro o object ho
  refine ⟨{ object with locations := object.locations.filter fun location => location ≠ id }, ?_, rfl, ?_⟩
  · simp [removeResource, ho]
  · intro r hr
    by_cases heq : r = id
    · exact .inr heq
    · exact .inl (List.mem_filter.mpr ⟨hr, by simpa using heq⟩)

theorem expireResourcesAt_evolves (e : Env) (unixMs : UInt64) (s : Fabric F) :
    Evolves (· ∈ (s.expireResourcesAt e unixMs).1) s (s.expireResourcesAt e unixMs).2 := by
  refine List.foldlRecOn (motive := Evolves (· ∈ (s.expireResourcesAt e unixMs).1) s) _ _ (refl_of _ s) ?_
  intro s' h id hid
  refine trans_of (Evolves _) h ((removeResource_evolves id s').mono ?_)
  rintro r rfl
  exact hid

/-! ## Everything else -/

/-- The table is the same. -/
def SameObjects (s s' : Fabric F) : Prop := s'.objects = s.objects

instance : IsPreorder (Fabric F) SameObjects where
  refl _ := rfl
  trans _ _ _ hab hbc := hbc.trans hab

theorem retains_of_sameObjects {α : Type} {m : FabricM F α} (h : m.Along SameObjects) : m.Along Retains :=
  fun s => evolves_of_eq (h s)

theorem keptByRoles_sameObjects : KeptByRoles (SameObjects (F := F)) where
  submit task := submit_along task fun _ _ => rfl
  bind _ _ _ := rfl
  job _ _ _ _ := rfl

theorem completeExecution_retains [F64 F] (e : Env) (lease : ExecutionLease) (outputs : List ObjectMetadata) :
    (completeExecution (F := F) e lease outputs).Along Retains :=
  completeExecution_along (fun _ _ _ => evolves_of_eq rfl) publishObject_retains
    (keptByRoles_sameObjects.mono fun _ _ => evolves_of_eq) e lease outputs

theorem reapExpiredExecutionsAt_objects (e : Env) (unixMs : UInt64) (s : Fabric F) :
    (s.reapExpiredExecutionsAt e unixMs).2.objects = s.objects := by
  unfold reapExpiredExecutionsAt
  have hmark := markCooperativeRoleUncertain_keeps (F := F) Fabric.objects fun _ _ _ => rfl
  simp only [foldl_keeps Fabric.objects _ fun s t => hmark t s]

/-! ## What one call does -/

/-- The call removes the resource. -/
def Event.Removes (ev : Event F) (r : ResourceId) : Prop :=
  ev.op = .unregisterResource r ∨
    ∃ unixMs ids, ev.op = .expireResourcesAt unixMs ∧ ev.reply = .ok (.resources ids) ∧ r ∈ ids

/-- **One call** leaves the identities alone, and the locations but for those of removed resources. -/
theorem event_evolves [F64 F] (e : Env) (s : Fabric F) (op : Op F) :
    Evolves (Event.of e s op).Removes s (Event.of e s op).after := by
  have retained : ∀ {α : Type} {m : FabricM F α} {g : α → Reply}, m.Along Retains →
      exec e op = (m >>= fun a => pure (g a)) → Evolves (Event.of e s op).Removes s (Event.of e s op).after := by
    intro α m g hm hx
    have hretains : Retains s (exec e op s).2 := by
      rw [hx]
      exact along_bind hm (fun _ => along_pure _) s
    exact hretains.mono fun _ h => h.elim
  have same : ∀ {α : Type} {m : FabricM F α} {g : α → Reply}, m.Along SameObjects →
      exec e op = (m >>= fun a => pure (g a)) → Evolves (Event.of e s op).Removes s (Event.of e s op).after :=
    fun hm hx => retained (retains_of_sameObjects hm) hx
  cases op with
  | setTopology topology => exact evolves_of_eq rfl
  | upsertLink link => exact evolves_of_eq rfl
  | removeLink a b => exact evolves_of_eq rfl
  | registerResource descriptor => exact evolves_of_eq rfl
  | heartbeat r epoch => exact same (heartbeat_along (fun _ _ => rfl) e r epoch) rfl
  | unregisterResource r =>
    refine (removeResource_evolves r s).mono ?_
    rintro r' rfl
    exact .inl rfl
  | expireResourcesAt unixMs =>
    refine (expireResourcesAt_evolves e unixMs s).mono ?_
    intro r hr
    exact .inr ⟨unixMs, _, rfl, rfl, hr⟩
  | publishObject object => exact retained (g := fun _ => .unit) (publishObject_retains object) rfl
  | addObjectLocation o r => exact retained (g := fun _ => .unit) (addObjectLocation_retains o r) rfl
  | submit task => exact same (keptByRoles_sameObjects.submit task) rfl
  | submitCooperative job => exact same (submitCooperative_along (fun _ _ => rfl) keptByRoles_sameObjects e job) rfl
  | submitLogical job => exact same (submitLogical_along (fun _ _ => rfl) keptByRoles_sameObjects e job) rfl
  | beginExecution t r => exact same (beginExecution_along (fun _ _ _ => rfl) e t r) rfl
  | renewExecution lease => exact same (renewExecution_along (fun _ _ _ => rfl) e lease) rfl
  | completeExecution lease outputs =>
    exact retained (g := fun _ => .unit) (completeExecution_retains e lease outputs) rfl
  | reapExpiredExecutionsAt unixMs => exact evolves_of_eq (reapExpiredExecutionsAt_objects e unixMs s)
  | refreshReadyRoles => exact same (g := fun _ => .unit) (refreshReadyRoles_along keptByRoles_sameObjects e) rfl

/-! ## Publications -/

/-- The objects that a call publishes. -/
def Op.published : Op F → List ObjectMetadata
  | .publishObject object => [object]
  | .completeExecution _ outputs => outputs
  | _ => []

/-- After a loop that did not fail, every output is stored with its identity. -/
theorem publishAll_stored : ∀ (outputs : List ObjectMetadata) (i : Nat) (s s' : Fabric F),
    eachFrom (fun _ object => publishObject object) i outputs s = (.ok (), s') →
    ∀ output ∈ outputs, s'.identityOf output.id = some output.identity
  | [], _, _, _, _, output, hmem => (List.not_mem_nil hmem).elim
  | object :: outputs, i, s, s', h, output, hmem => by
    rw [eachFrom] at h
    rcases publishObject_cases object s with ⟨hfail, -⟩ | ⟨s₁, hok, -, hstored, -⟩
    · rw [bind_error hfail] at h
      cases h
    · rw [bind_ok hok] at h
      have hrest : Retains s₁ s' := by
        have := along_eachFrom (fun _ object => publishObject_retains (F := F) object) outputs (i + 1) s₁
        rwa [h] at this
      rcases List.mem_cons.mp hmem with rfl | hmem
      · exact hrest.identityOf hstored
      · exact publishAll_stored outputs (i + 1) s₁ s' h output hmem

/-- Whatever the loop has stored anew is what the first output of that identifier says. -/
theorem publishAll_first : ∀ (outputs : List ObjectMetadata) (i : Nat) (s : Fabric F) (o : ObjectId)
    (known : ObjectMetadata), s.identityOf o = none →
    (eachFrom (fun _ object => publishObject object) i outputs s).2.identityOf o = some known →
    ∃ first, outputs.find? (fun output => output.id = o) = some first ∧ known = first.identity
  | [], _, s, o, known, hnone, h => by
    change s.identityOf o = some known at h
    rw [hnone] at h
    cases h
  | object :: outputs, i, s, o, known, hnone, h => by
    rw [eachFrom] at h
    rcases publishObject_cases object s with ⟨hfail, -⟩ | ⟨s₁, hok, -, hstored, hothers⟩
    · rw [bind_error hfail, hnone] at h
      cases h
    · rw [bind_ok hok] at h
      by_cases ho : object.id = o
      · subst ho
        have hrest := along_eachFrom (fun _ object => publishObject_retains (F := F) object) outputs (i + 1) s₁
        refine ⟨object, by simp, ?_⟩
        exact Option.some.inj (h.symm.trans (hrest.identityOf hstored))
      · have hnone₁ : s₁.identityOf o = none := by
          rw [Fabric.identityOf, hothers o (Ne.symm ho)]
          exact hnone
        obtain ⟨first, hfirst, hknown⟩ := publishAll_first outputs (i + 1) s₁ o known hnone₁ h
        exact ⟨first, by simp [ho, hfirst], hknown⟩

variable [F64 F]

theorem completeCooperativeRole_objects (e : Env) (t : TaskId) (outputs : List ObjectId) (s : Fabric F) :
    (completeCooperativeRole e t outputs s).2.objects = s.objects :=
  completeCooperativeRole_along keptByRoles_sameObjects e t outputs s

section Event

variable {e : Env} {op : Op F} {output : ObjectMetadata}

/-- A call that carries another identity than the stored one is refused and changes nothing. -/
theorem published_refused (hmem : output ∈ op.published) {existing : ObjectMetadata}
    (hexisting : s.objects.lookup output.id = some existing) (hdiffers : existing.identity ≠ output.identity) :
    (∃ err, (Event.of e s op).reply = .error err) ∧ (Event.of e s op).after = s := by
  cases op with
  | publishObject object =>
    obtain rfl : output = object := List.mem_singleton.mp hmem
    have hx := exec_publishObject e s output
    rcases publishObject_cases output s with ⟨h, -⟩ | ⟨s', -, hretains, hstored, -⟩
    · rw [h] at hx
      exact ⟨⟨_, congrArg Prod.fst hx⟩, congrArg Prod.snd hx⟩
    · obtain ⟨object', ho', hid, -⟩ := hretains output.id existing hexisting
      rw [Fabric.identityOf, ho', Option.map_some, Option.some.injEq] at hstored
      exact absurd (hid.symm.trans hstored) hdiffers
  | completeExecution lease outputs =>
    have hx := exec_completeExecution e s lease outputs
    rcases completeExecution_cases e lease outputs s with ⟨err, h⟩ | ⟨current, -, -, hfree, -⟩
    · rw [h] at hx
      exact ⟨⟨_, congrArg Prod.fst hx⟩, congrArg Prod.snd hx⟩
    · have hnot := List.find?_eq_none.mp hfree output hmem
      rw [hexisting] at hnot
      have hsame : sameObjectIdentity existing output = true := by simpa using hnot
      exact absurd (sameObjectIdentity_iff.mp hsame) hdiffers
  | _ => exact (List.not_mem_nil hmem).elim

/-- What follows the acceptance of a completion, for the table: the outputs are published. -/
theorem commitOutputs_identityOf (t : TaskId) (outputs : List ObjectMetadata) (o : ObjectId) :
    (commitOutputs e t outputs s).2.identityOf o =
      (eachFrom (fun _ object => publishObject object) 0 outputs s).2.identityOf o := by
  unfold commitOutputs each
  cases hp : eachFrom (fun _ object => publishObject object) 0 outputs s with
  | mk result s₁ =>
    cases result with
    | error err => rw [bind_error hp]
    | ok u =>
      rw [bind_ok hp, Fabric.identityOf, completeCooperativeRole_objects]
      rfl

/-- A call that succeeds has stored what it published. -/
theorem published_stored (hmem : output ∈ op.published) {reply : Reply} (hok : (Event.of e s op).reply = .ok reply) :
    (Event.of e s op).after.identityOf output.id = some output.identity := by
  cases op with
  | publishObject object =>
    obtain rfl : output = object := List.mem_singleton.mp hmem
    have hx := exec_publishObject e s output
    simp only [Event.of, hx] at hok ⊢
    rcases publishObject_cases output s with ⟨h, -⟩ | ⟨s', h, -, hstored, -⟩
    · rw [h] at hok
      cases hok
    · rw [h]
      exact hstored
  | completeExecution lease outputs =>
    have hx := exec_completeExecution e s lease outputs
    simp only [Event.of, hx] at hok ⊢
    rcases completeExecution_cases e lease outputs s with ⟨err, h⟩ | ⟨current, -, -, -, h⟩
    · rw [h] at hok
      cases hok
    · rw [h] at hok ⊢
      rw [commitOutputs_identityOf]
      generalize s.setStatus lease.taskId (.completed (outputs.map (·.id))) = s₁ at hok ⊢
      unfold commitOutputs each at hok
      cases hp : eachFrom (fun _ object => publishObject object) 0 outputs s₁ with
      | mk result s₂ =>
        cases result with
        | error err =>
          rw [bind_error hp] at hok
          cases hok
        | ok u => exact publishAll_stored outputs 0 s₁ s₂ hp output hmem
  | _ => exact (List.not_mem_nil hmem).elim

/-- Of several objects that a call publishes under a new identifier, the first one decides. -/
theorem published_first (hmem : output ∈ op.published) (hnew : s.identityOf output.id = none) {known : ObjectMetadata}
    (hknown : (Event.of e s op).after.identityOf output.id = some known) :
    ∃ first, op.published.find? (fun object => object.id = output.id) = some first ∧ known = first.identity := by
  cases op with
  | publishObject object =>
    obtain rfl : output = object := List.mem_singleton.mp hmem
    refine ⟨output, by simp [Op.published], ?_⟩
    have hx := exec_publishObject e s output
    simp only [Event.of, hx] at hknown
    rcases publishObject_cases output s with ⟨h, -⟩ | ⟨s', h, -, hstored, -⟩
    · rw [h, hnew] at hknown
      cases hknown
    · rw [h] at hknown
      exact Option.some.inj (hknown.symm.trans hstored)
  | completeExecution lease outputs =>
    have hx := exec_completeExecution e s lease outputs
    simp only [Event.of, hx] at hknown
    rcases completeExecution_cases e lease outputs s with ⟨err, h⟩ | ⟨current, -, -, -, h⟩
    · rw [h, hnew] at hknown
      cases hknown
    · rw [h, commitOutputs_identityOf] at hknown
      have hnew' : (s.setStatus lease.taskId (.completed (outputs.map (·.id)))).identityOf output.id = none := hnew
      exact publishAll_first outputs 0 _ output.id known hnew' hknown
  | _ => exact (List.not_mem_nil hmem).elim

end Event

/-! ## Records -/

/-- Every implementation of a role partitioned by records reads one object, and the declared offsets fit it. -/
def RecordsFit (role : LogicalRoleSpec F) (objects : Objects) : Prop :=
  ∀ policy input offsets, role.shards.auto = some policy → policy.partition = .records input offsets →
    ∃ o object, role.implementations.head?.bind (·.task.inputs[input]?) = some o ∧
      (∀ implementation ∈ role.implementations, implementation.task.inputs[input]? = some o) ∧
      objects.lookup o = some object ∧ validRecordOffsets offsets object.sizeBytes = true

/-- The planner can cut the records of the role into any number of parts. -/
def RecordsReady (role : LogicalRoleSpec F) (objects : Objects) : Prop :=
  ∀ policy input offsets, role.shards.auto = some policy → policy.partition = .records input offsets →
    (∃ records, partitionUnits role policy.partition objects = some records ∧ records.toNat = offsets.length - 1) ∧
    ∀ implementation ∈ role.implementations, ∀ index count : UInt32, index < count → count.toNat ≤ offsets.length - 1 →
      (concretePartition implementation.task policy.partition index count objects).isSome = true

theorem recordsFit_of_valid {role : LogicalRoleSpec F} {objects : Objects} (hrole : validateLogicalRole role = .ok ())
    (hobjects : validateRoleObjects objects role = .ok ()) : RecordsFit role objects := by
  intro policy input offsets hauto hpartition
  obtain ⟨o, hhead, hall⟩ := partitionInput_of_valid hrole hauto
  rw [hpartition] at hhead hall
  change role.implementations.head?.bind (·.task.inputs[input]?) = some o at hhead
  simp only [validateRoleObjects, hauto, hpartition] at hobjects
  rw [hhead] at hobjects
  dsimp only at hobjects
  split at hobjects
  · cases hobjects
  · rename_i object hobject
    exact ⟨o, object, hhead, hall, hobject, ensure_ok hobjects⟩

omit [F64 F] in
/-- Offsets that fit an object fit it as long as it keeps its size. -/
theorem RecordsFit.evolves {removed : ResourceId → Prop} {role : LogicalRoleSpec F} (h : RecordsFit role s.objects)
    (hevolves : Evolves removed s s') : RecordsFit role s'.objects := by
  intro policy input offsets hauto hpartition
  obtain ⟨o, object, hhead, hall, hobject, hvalid⟩ := h policy input offsets hauto hpartition
  obtain ⟨object', hobject', hid, -⟩ := hevolves o object hobject
  refine ⟨o, object', hhead, hall, hobject', ?_⟩
  have hsize := congrArg ObjectMetadata.sizeBytes hid
  change object'.sizeBytes = object.sizeBytes at hsize
  rwa [hsize]

omit [F64 F] in
theorem RecordsFit.ready {role : LogicalRoleSpec F} {objects : Objects} (h : RecordsFit role objects) :
    RecordsReady role objects := by
  intro policy input offsets hauto hpartition
  obtain ⟨o, object, hhead, hall, hobject, hvalid⟩ := h policy input offsets hauto hpartition
  rw [hpartition]
  constructor
  · refine ⟨UInt64.ofNat (offsets.length - 1), ?_, (recordOffsets_of_valid hvalid).toNat_records⟩
    obtain ⟨implementation, himplementation, ho⟩ := Option.bind_eq_some_iff.mp hhead
    simp [partitionUnits, himplementation, ShardPartitionSpec.input, ho, hobject, hvalid]
  · intro implementation hmem index count hlt _
    obtain ⟨recordStart, recordCount, offset, length, hpart, -⟩ :=
      concretePartition_records (hall implementation hmem) hobject hvalid hlt
    rw [hpart]
    rfl

/-- The records of an accepted job fit the table it was submitted to. -/
theorem recordsFit_of_submitted {e : Env} {job : LogicalJobSpec F} {reply : Reply}
    (hok : (Event.of e s (.submitLogical job)).reply = .ok reply) : ∀ role ∈ job.roles, RecordsFit role s.objects := by
  simp only [Event.of, exec_submitLogical] at hok
  unfold submitLogical at hok
  cases hjob : validateLogicalJob job with
  | error err =>
    rw [hjob] at hok
    cases hok
  | ok u =>
    rw [hjob] at hok
    cases hobjects : validateLogicalJobObjects job s.objects with
    | error err =>
      simp only [Except.mapError, lift_ok, pure_bind', state_bind, hobjects, lift_error, fail_bind] at hok
      cases hok
    | ok u =>
      exact fun role hrole =>
        recordsFit_of_valid (validateLogicalJob_role hjob hrole) (forM_ok_iff.mp hobjects role hrole)

/-! ## Runs -/

/-- The resource is removed by one of these calls. -/
def RemovedIn (history : List (Event F)) (r : ResourceId) : Prop := ∃ ev ∈ history, ev.Removes r

/-- **What a run does to the table**: the calls so far have led from one state to the next. -/
theorem final_evolves (e : Env) (s : Fabric F) (ops : List (Op F)) :
    Evolves (RemovedIn (trace e s ops)) s (final e s ops) ∧
    ∀ ev ∈ trace e s ops, ev = Event.of ev.env ev.before ev.op ∧
      Evolves (RemovedIn (trace e s ops)) ev.before (final e s ops) := by
  let I (_ : Env) (history : List (Event F)) (now : Fabric F) : Prop :=
    Evolves (RemovedIn history) s now ∧
      ∀ ev ∈ history, ev = Event.of ev.env ev.before ev.op ∧ Evolves (RemovedIn history) ev.before now
  have hstep : ∀ e history now op, I e history now → True →
      I (e.sub 1) (history ++ [Event.of (e.sub 0) now op]) (Event.of (e.sub 0) now op).after := by
    intro e history now op h _
    have hnow : Evolves (RemovedIn (history ++ [Event.of (e.sub 0) now op])) now (Event.of (e.sub 0) now op).after :=
      (event_evolves (e.sub 0) now op).mono fun r hr => ⟨_, List.mem_append_right _ (List.mem_singleton_self _), hr⟩
    have hlater : ∀ r, RemovedIn history r → RemovedIn (history ++ [Event.of (e.sub 0) now op]) r :=
      fun r ⟨ev, hmem, hr⟩ => ⟨ev, List.mem_append_left _ hmem, hr⟩
    refine ⟨trans_of (Evolves _) (h.1.mono hlater) hnow, fun ev hev => ?_⟩
    rcases List.mem_append.mp hev with hev | hev
    · exact ⟨(h.2 ev hev).1, trans_of (Evolves _) ((h.2 ev hev).2.mono hlater) hnow⟩
    · rw [List.mem_singleton.mp hev]
      exact ⟨rfl, hnow⟩
  have hstart : I e [] s := ⟨refl_of _ s, fun _ hmem => (List.not_mem_nil hmem).elim⟩
  obtain ⟨_, h⟩ := final_rule (C := fun _ => True) hstep ops e [] s hstart fun _ _ => trivial
  exact h

/-- **Objects do not change.** In every run, an object once stored stays with its identity, and a location is lost only
with its resource, in each call and over the run. A call that carries another identity than the stored one is refused
and changes nothing; one that succeeds has stored what it published, and the first publication decides. So the records
of a job that was accepted can be cut in every later state. -/
theorem objects_immutable (e : Env) (s : Fabric F) (ops : List (Op F)) :
    Evolves (RemovedIn (trace e s ops)) s (final e s ops) ∧
    ∀ ev ∈ trace e s ops,
      Evolves ev.Removes ev.before ev.after ∧
      (∀ output ∈ ev.op.published, ∀ existing, ev.before.objects.lookup output.id = some existing →
        existing.identity ≠ output.identity → (∃ err, ev.reply = .error err) ∧ ev.after = ev.before) ∧
      (∀ output ∈ ev.op.published, ∀ reply, ev.reply = .ok reply →
        ev.after.identityOf output.id = some output.identity) ∧
      (∀ output ∈ ev.op.published, ∀ known, ev.before.identityOf output.id = none →
        ev.after.identityOf output.id = some known →
        ∃ first, ev.op.published.find? (fun object => object.id = output.id) = some first ∧ known = first.identity) ∧
      ∀ job reply, ev.op = .submitLogical job → ev.reply = .ok reply → ∀ role ∈ job.roles,
        RecordsReady role ev.before.objects ∧ RecordsReady role (final e s ops).objects := by
  obtain ⟨hrun, hevents⟩ := final_evolves e s ops
  refine ⟨hrun, fun ev hmem => ?_⟩
  obtain ⟨hev, hlater⟩ := hevents ev hmem
  generalize ev.env = e', ev.before = before, ev.op = op at hev hlater
  subst hev
  refine ⟨event_evolves e' before op, fun output hmem existing hexisting hdiffers => ?_,
    fun output hmem reply hok => published_stored hmem hok,
    fun output hmem known hnew hknown => published_first hmem hnew hknown, ?_⟩
  · exact published_refused hmem hexisting hdiffers
  · rintro job reply rfl hok role hrole
    have hfit := recordsFit_of_submitted hok role hrole
    exact ⟨hfit.ready, (hfit.evolves hlater).ready⟩

end Plurifold
