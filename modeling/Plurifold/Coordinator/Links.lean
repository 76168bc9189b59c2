import Plurifold.Coordinator.Requests
import Plurifold.Fabric.Lifecycle

/-!
# Links set by hand

The fabric keeps one list of links, the coordinator a set of the ordered pairs that an operator has set. A link counts
for both directions, so the promises are about unordered pairs: the list never has two links of one pair
(`TopologyOk`), and what an operator last said about a pair stays in force, whatever is measured, until one of the two
resources expires (`Overrides`).
-/

namespace Plurifold

open Lib Attempt CoordinatorState

variable {F : Type} {c : CoordinatorState F} {a b : ResourceId}

/-! ## Links of a pair -/

/-- The link is one of the unordered pair. -/
def LinkProfile.Joins (link : LinkProfile F) (a b : ResourceId) : Prop :=
  (link.fromResource = a ∧ link.toResource = b) ∨ (link.fromResource = b ∧ link.toResource = a)

instance (link : LinkProfile F) (a b : ResourceId) : Decidable (link.Joins a b) := inferInstanceAs (Decidable (_ ∨ _))

theorem LinkProfile.Joins.swap {link : LinkProfile F} (h : link.Joins a b) : link.Joins b a := Or.symm h

/-- Links that share a pair with a third one are of one pair. -/
theorem LinkProfile.Joins.trans {link link' : LinkProfile F} (h : link.Joins link'.fromResource link'.toResource)
    (h' : link.Joins a b) : link'.Joins a b := by
  unfold LinkProfile.Joins at h h' ⊢
  rcases h with ⟨hf, ht⟩ | ⟨hf, ht⟩
  · rwa [hf, ht] at h'
  · rw [hf, ht] at h'
    exact h'.symm.imp And.symm And.symm

theorem joins_eq (link : LinkProfile F) (a b : ResourceId) :
    ((decide (link.fromResource = a) && decide (link.toResource = b)) ||
      (decide (link.fromResource = b) && decide (link.toResource = a))) = decide (link.Joins a b) := by
  rw [Bool.eq_iff_iff]
  simp only [Bool.or_eq_true, Bool.and_eq_true, decide_eq_true_eq]
  rfl

theorem link_eq_find (topology : TopologySnapshot F) (a b : ResourceId) :
    topology.link a b = topology.links.find? fun link => decide (link.Joins a b) := by
  simp only [TopologySnapshot.link, joins_eq]

/-- The topology does not tell the directions apart. -/
theorem link_swap (topology : TopologySnapshot F) (a b : ResourceId) : topology.link a b = topology.link b a := by
  rw [link_eq_find, link_eq_find]
  congr 1
  funext link
  exact decide_eq_decide.mpr ⟨LinkProfile.Joins.swap, LinkProfile.Joins.swap⟩

/-- Dropping links of other pairs changes nothing for this pair. -/
theorem find_filter {links : List (LinkProfile F)} {p q : LinkProfile F → Bool} (h : ∀ link, p link = true → q link = true) :
    (links.filter q).find? p = links.find? p := by
  rw [List.find?_filter]
  congr 1
  funext link
  cases hp : p link with
  | false => simp
  | true => simp [h link hp]

theorem removeLink_links (a b : ResourceId) (s : Fabric F) :
    (s.removeLink a b).topology.links = s.topology.links.filter fun link => !decide (link.Joins a b) := by
  simp only [Fabric.removeLink, joins_eq]

theorem upsertLink_links (link : LinkProfile F) (s : Fabric F) : (s.upsertLink link).topology.links =
    (s.removeLink link.fromResource link.toResource).topology.links ++ [link] := rfl

/-- A link that is set is the one found for its pair. -/
theorem link_upsertLink {link : LinkProfile F} (h : link.Joins a b) (s : Fabric F) :
    (s.upsertLink link).topology.link a b = some link := by
  rw [link_eq_find, upsertLink_links, removeLink_links, List.find?_append, List.find?_eq_none.mpr]
  · simp [h]
  · intro other hother
    have hnot : ¬other.Joins link.fromResource link.toResource := by simpa using (List.mem_filter.mp hother).2
    have hab : ¬other.Joins a b := fun hjoins => by
      refine hnot ?_
      rcases h with ⟨rfl, rfl⟩ | ⟨rfl, rfl⟩
      · exact hjoins
      · exact hjoins.swap
    simpa using hab

/-- Removing the link of another pair. -/
theorem link_removeLink {a' b' : ResourceId} (s : Fabric F)
    (h : ∀ link : LinkProfile F, link.Joins a b → ¬link.Joins a' b') :
    (s.removeLink a' b').topology.link a b = s.topology.link a b := by
  rw [link_eq_find, link_eq_find, removeLink_links]
  refine find_filter fun link hlink => ?_
  simpa using h link (of_decide_eq_true hlink)

/-- Setting the link of another pair. -/
theorem link_upsertLink_other {link : LinkProfile F} (s : Fabric F) (h : ¬link.Joins a b) :
    (s.upsertLink link).topology.link a b = s.topology.link a b := by
  have hremove : (s.removeLink link.fromResource link.toResource).topology.link a b = s.topology.link a b :=
    link_removeLink s fun other hother hshared => h (hshared.trans hother)
  rw [link_eq_find] at hremove ⊢
  rw [upsertLink_links, List.find?_append, hremove]
  simp [h]

/-! ## What a request does to the links -/

/-- The resources that a maintenance tick expires. -/
def expiredBy (e : Env) (c : CoordinatorState F) : List ResourceId := (c.fabric.expireResourcesAt (e.sub 0) e.clock).1

/-- No endpoint of the pair is among these resources. -/
def Spares (ids : List ResourceId) (a b : ResourceId) : Bool := !ids.contains a && !ids.contains b

theorem spares_cons (id : ResourceId) (ids : List ResourceId) (a b : ResourceId) :
    Spares (id :: ids) a b = (Spares ids a b && (decide (a ≠ id) && decide (b ≠ id))) := by
  rw [Bool.eq_iff_iff]
  simp only [Spares, Bool.and_eq_true, Bool.not_eq_true', List.contains_eq_mem, decide_eq_false_iff_not,
    List.mem_cons, decide_eq_true_eq, not_or]
  tauto

theorem removeAll_links : ∀ (ids : List ResourceId) (s : Fabric F),
    (ids.foldl (fun s id => s.removeResource id) s).topology.links =
      s.topology.links.filter fun link => Spares ids link.fromResource link.toResource
  | [], s => (List.filter_eq_self.mpr fun _ _ => rfl).symm
  | id :: ids, s => by
    rw [List.foldl_cons, removeAll_links ids]
    simp only [Fabric.removeResource, List.filter_filter, spares_cons]

theorem removeAll_manualLinks : ∀ (ids : List ResourceId) (c : CoordinatorState F),
    (ids.foldl (fun c id =>
      { c with
        dataEndpoints := c.dataEndpoints.erase id
        manualLinks := c.manualLinks.filter fun link => link.1 ≠ id ∧ link.2 ≠ id }) c).manualLinks =
      c.manualLinks.filter fun link => Spares ids link.1 link.2 = true
  | [], c => by
    ext link
    simp [Spares]
  | id :: ids, c => by
    rw [List.foldl_cons, removeAll_manualLinks ids]
    ext link
    simp only [Finset.mem_filter, spares_cons, Bool.and_eq_true, decide_eq_true_eq]
    tauto

theorem removeAll_fabric : ∀ (ids : List ResourceId) (c : CoordinatorState F),
    (ids.foldl (fun c id =>
      { c with
        dataEndpoints := c.dataEndpoints.erase id
        manualLinks := c.manualLinks.filter fun link => link.1 ≠ id ∧ link.2 ≠ id }) c).fabric = c.fabric
  | [], _ => rfl
  | _ :: ids, _ => by rw [List.foldl_cons, removeAll_fabric ids]

theorem reap_topology (e : Env) (unixMs : UInt64) (s : Fabric F) :
    (s.reapExpiredExecutionsAt e unixMs).2.topology = s.topology := by
  unfold Fabric.reapExpiredExecutionsAt
  have hmark := Fabric.markCooperativeRoleUncertain_keeps (F := F) Fabric.topology fun _ _ _ => rfl
  simp only [Fabric.foldl_keeps Fabric.topology _ fun s a => hmark a s]

theorem maintenanceTick_links (e : Env) (c : CoordinatorState F) :
    (maintenanceTick e c).fabric.topology.links =
      c.fabric.topology.links.filter fun link => Spares (expiredBy e c) link.fromResource link.toResource := by
  simp only [maintenanceTick, reap_topology, removeAll_fabric]
  exact removeAll_links _ _

theorem maintenanceTick_manualLinks (e : Env) (c : CoordinatorState F) :
    (maintenanceTick e c).manualLinks = c.manualLinks.filter fun link => Spares (expiredBy e c) link.1 link.2 = true :=
  removeAll_manualLinks _ _

/-- The pair has been set by hand. -/
def Manual (c : CoordinatorState F) (a b : ResourceId) : Prop := (a, b) ∈ c.manualLinks ∨ (b, a) ∈ c.manualLinks

/-- What a request can do to the links. -/
inductive LinkChange [F64 F] (e : Env) (request : Request F) (c c' : CoordinatorState F) : Prop
  | same : c'.fabric.topology = c.fabric.topology → c'.manualLinks = c.manualLinks → LinkChange e request c c'
  | override (link : LinkProfile F) : request = .updateLink link → validateLink link = .ok () →
      c'.fabric.topology = (c.fabric.upsertLink link).topology →
      c'.manualLinks = insert (link.fromResource, link.toResource) c.manualLinks → LinkChange e request c c'
  | measured (link : LinkProfile F) : ¬Manual c link.fromResource link.toResource → validateLink link = .ok () →
      c'.fabric.topology = (c.fabric.upsertLink link).topology → c'.manualLinks = c.manualLinks →
      LinkChange e request c c'
  | withdrawn (a b : ResourceId) : ¬Manual c a b → c'.fabric.topology = (c.fabric.removeLink a b).topology →
      c'.manualLinks = c.manualLinks → LinkChange e request c c'
  | expired : request = .maintenanceTick →
      c'.fabric.topology.links =
        c.fabric.topology.links.filter (fun link => Spares (expiredBy e c) link.fromResource link.toResource) →
      c'.manualLinks = c.manualLinks.filter (fun link => Spares (expiredBy e c) link.1 link.2 = true) →
      LinkChange e request c c'

/-- The links and the pairs set by hand are the same. -/
def SameLinks (c c' : CoordinatorState F) : Prop :=
  c'.fabric.topology = c.fabric.topology ∧ c'.manualLinks = c.manualLinks

instance : IsPreorder (CoordinatorState F) SameLinks where
  refl _ := ⟨rfl, rfl⟩
  trans _ _ _ hab hbc := ⟨hbc.1.trans hab.1, hbc.2.trans hab.2⟩

/-- The topology of the fabric is the same. -/
def SameTopology (s s' : Fabric F) : Prop := s'.topology = s.topology

instance : IsPreorder (Fabric F) SameTopology where
  refl _ := rfl
  trans _ _ _ hab hbc := hbc.trans hab

theorem onFabric_sameLinks {α : Type} {m : FabricM F α} (h : m.Along SameTopology) : (onFabric m).Along SameLinks := by
  intro c
  have hm := h c.fabric
  unfold onFabric zoom
  cases hr : m c.fabric with
  | mk r s =>
    rw [hr] at hm
    cases r <;> exact ⟨hm, rfl⟩

open Fabric in
theorem keptByRoles_sameTopology : KeptByRoles (SameTopology (F := F)) where
  submit task := submit_along task fun _ _ => rfl
  bind _ _ _ := rfl
  job _ _ _ _ := rfl

theorem publishObject_sameTopology (object : ObjectMetadata) :
    (Fabric.publishObject (F := F) object).Along SameTopology := Fabric.publishObject_along (fun _ _ => rfl) object

theorem submitLogical_sameTopology [F64 F] (e : Env) (job : LogicalJobSpec F) :
    (Fabric.submitLogical e job).Along SameTopology :=
  Fabric.submitLogical_along (fun _ _ => rfl) keptByRoles_sameTopology e job

theorem registerResource_sameLinks (e : Env) (descriptor : ResourceDescriptor F) (dataEndpoint : String) :
    (CoordinatorState.registerResource e descriptor dataEndpoint).Along SameLinks := by
  intro c
  unfold CoordinatorState.registerResource
  cases normalizeEndpoint dataEndpoint with
  | error err => exact ⟨rfl, rfl⟩
  | ok endpoint => exact ⟨rfl, rfl⟩

theorem offerWork_sameLinks [F64 F] (e : Env) (r : ResourceId) : ∀ (tasks : List TaskId) (i : Nat),
    (offerWork (F := F) e r i tasks).Along SameLinks
  | [], _ => along_pure _
  | t :: tasks, i => by
    refine along_bind along_state fun c => ?_
    split
    · exact offerWork_sameLinks e r tasks (i + 1)
    · split
      · exact offerWork_sameLinks e r tasks (i + 1)
      · exact along_bind (along_okOr _ _) fun _ => along_bind (along_lift _) fun _ =>
          along_bind (onFabric_sameLinks (Fabric.beginExecution_along (fun _ _ _ => rfl) _ t r)) fun _ => along_pure _

theorem pollWork_sameLinks [F64 F] (e : Env) (r : ResourceId) (epoch : UInt64) :
    (pollWork (F := F) e r epoch).Along SameLinks := by
  refine along_bind along_state fun c => along_bind (along_okOr _ _) fun currentEpoch => ?_
  split
  · exact along_fail _
  · exact along_bind (onFabric_sameLinks (Fabric.refreshReadyRoles_along keptByRoles_sameTopology _)) fun _ =>
      along_bind along_state fun c => offerWork_sameLinks _ r _ _

theorem registerReplica_sameLinks (e : Env) (o : ObjectId) (r : ResourceId) :
    (registerReplica (F := F) e o r).Along SameLinks := by
  refine along_bind along_state fun c => ?_
  split
  · exact along_fail _
  · exact onFabric_sameLinks (Fabric.addObjectLocation_along (fun _ _ => rfl) o r)

theorem publishObject_sameLinks (object : ObjectMetadata) :
    (CoordinatorState.publishObject (F := F) object).Along SameLinks := by
  unfold CoordinatorState.publishObject
  split
  · exact along_fail _
  · exact onFabric_sameLinks (publishObject_sameTopology object)

variable [F64 F]

theorem submitPlannedJob_sameLinks (e : Env) (preview : Except PlanError Unit) (job : LogicalJobSpec F) :
    (submitPlannedJob e preview job).Along SameLinks := by
  unfold submitPlannedJob
  split
  · exact along_fail _
  · exact onFabric_sameLinks (submitLogical_sameTopology e job)
  · exact onFabric_sameLinks (submitLogical_sameTopology e job)

theorem reportLinkMeasurement_change (e : Env) (reporter : ResourceId) (epoch : UInt64) (peer : ResourceId)
    (measurement : LinkMeasurement F) (request : Request F) (c : CoordinatorState F) :
    LinkChange e request c (reportLinkMeasurement e reporter epoch peer measurement c).2 := by
  unfold reportLinkMeasurement
  split
  · exact .same rfl rfl
  rw [state_bind]
  cases c.fabric.resourceEpoch (e.sub 0) reporter with
  | none => exact .same rfl rfl
  | some currentEpoch =>
    rw [okOr_some, pure_bind']
    split
    · exact .same rfl rfl
    split
    · exact .same rfl rfl
    split
    · exact .same rfl rfl
    rename_i hmanual
    cases measurement with
    | unreachable => exact .withdrawn reporter peer hmanual rfl rfl
    | reachable rttMs bandwidthMbps =>
      dsimp only
      cases hv : validateLink { fromResource := reporter, toResource := peer, rttMs, bandwidthMbps } with
      | error err => exact .same rfl rfl
      | ok u => exact .measured { fromResource := reporter, toResource := peer, rttMs, bandwidthMbps } hmanual hv rfl rfl

/-- **What one request does to the links.** -/
theorem serve_linkChange (e : Env) (request : Request F) (c : CoordinatorState F) :
    LinkChange e request c (serve e request c).2 := by
  have same : ∀ {α : Type} {m : CoordinatorM F α}, m.Along SameLinks → LinkChange e request c (m c).2 :=
    fun hm => .same (hm c).1 (hm c).2
  have wrapped : ∀ {α : Type} {m : CoordinatorM F α}, m.Along SameLinks → serve e request = (m >>= fun _ => pure ()) →
      LinkChange e request c (serve e request c).2 := fun hm hx => hx ▸ same (along_bind hm fun _ => along_pure _)
  cases request with
  | registerResource descriptor dataEndpoint =>
    exact wrapped (registerResource_sameLinks e descriptor dataEndpoint) rfl
  | heartbeat resource epoch =>
    exact wrapped (onFabric_sameLinks (Fabric.heartbeat_along (fun _ _ => rfl) e resource epoch)) rfl
  | pollWork resource epoch => exact wrapped (pollWork_sameLinks e resource epoch) rfl
  | renewExecution lease =>
    exact wrapped (onFabric_sameLinks (Fabric.renewExecution_along (fun _ _ _ => rfl) e lease)) rfl
  | completeExecution lease outputs =>
    exact same (onFabric_sameLinks (Fabric.completeExecution_along (fun _ _ _ => rfl) publishObject_sameTopology
      keptByRoles_sameTopology e lease outputs))
  | publishObject object => exact same (publishObject_sameLinks object)
  | registerReplica object resource => exact same (registerReplica_sameLinks e object resource)
  | submitTask task => exact wrapped (onFabric_sameLinks (keptByRoles_sameTopology.submit task)) rfl
  | submitCooperativeJob job =>
    exact wrapped (onFabric_sameLinks
      (Fabric.submitCooperative_along (fun _ _ => rfl) keptByRoles_sameTopology e job)) rfl
  | submitPlannedJob preview job => exact wrapped (submitPlannedJob_sameLinks e preview job) rfl
  | updateLink link =>
    show LinkChange e _ c (updateLink link c).2
    unfold updateLink
    cases hv : validateLink link with
    | error err => exact .same rfl rfl
    | ok u => exact .override link rfl hv rfl rfl
  | reportLinkMeasurement reporter epoch peer measurement => exact reportLinkMeasurement_change e reporter epoch peer measurement _ c
  | maintenanceTick => exact .expired rfl (maintenanceTick_links e c) (maintenanceTick_manualLinks e c)

/-! ## One link of each pair -/

/-- At most one link of each unordered pair, and every link is valid. -/
structure TopologyOk (links : List (LinkProfile F)) : Prop where
  single : links.Pairwise fun link link' => ¬link.Joins link'.fromResource link'.toResource
  valid : ∀ link ∈ links, validateLink link = .ok ()

theorem TopologyOk.filter {links : List (LinkProfile F)} (h : TopologyOk links) (p : LinkProfile F → Bool) :
    TopologyOk (links.filter p) :=
  ⟨h.single.filter p, fun link hlink => h.valid link (List.mem_filter.mp hlink).1⟩

theorem TopologyOk.upsertLink {s : Fabric F} (h : TopologyOk s.topology.links) {link : LinkProfile F}
    (hv : validateLink link = .ok ()) : TopologyOk (s.upsertLink link).topology.links := by
  rw [upsertLink_links, removeLink_links]
  refine ⟨List.pairwise_append.mpr ⟨h.single.filter _, List.pairwise_singleton _ _, fun other hother link' hlink' => ?_⟩,
    fun other hother => ?_⟩
  · rw [List.mem_singleton.mp hlink']
    simpa using (List.mem_filter.mp hother).2
  · rcases List.mem_append.mp hother with hother | hother
    · exact h.valid other (List.mem_filter.mp hother).1
    · rw [List.mem_singleton.mp hother]
      exact hv

theorem LinkChange.topologyOk {e : Env} {request : Request F} {c' : CoordinatorState F}
    (h : LinkChange e request c c') (hok : TopologyOk c.fabric.topology.links) :
    TopologyOk c'.fabric.topology.links := by
  cases h with
  | same ht _ =>
    rw [ht]
    exact hok
  | override link _ hv ht _ =>
    rw [ht]
    exact hok.upsertLink hv
  | measured link _ hv ht _ =>
    rw [ht]
    exact hok.upsertLink hv
  | withdrawn a b _ ht _ =>
    rw [ht, removeLink_links]
    exact hok.filter _
  | expired _ ht _ =>
    rw [ht]
    exact hok.filter _

/-! ## Overrides -/

/-- The link is in force for the pair, and the pair counts as set by hand. -/
structure Overrides (c : CoordinatorState F) (a b : ResourceId) (link : LinkProfile F) : Prop where
  link : c.fabric.topology.link a b = some link
  manual : Manual c a b

/-- The request ends what an operator said about the pair: by an accepted override, or by the expiry of an endpoint. -/
def Served.Supersedes (served : Served F) (a b : ResourceId) : Prop :=
  (∃ link, served.request = .updateLink link ∧ served.reply = .ok () ∧ link.Joins a b) ∨
    (served.request = .maintenanceTick ∧
      (a ∈ expiredBy served.env served.before ∨ b ∈ expiredBy served.env served.before))

omit [F64 F] in
theorem Manual.of_joins {link : LinkProfile F} (h : Manual c a b) (hj : link.Joins a b) :
    Manual c link.fromResource link.toResource := by
  rcases hj with ⟨rfl, rfl⟩ | ⟨rfl, rfl⟩
  · exact h
  · exact h.symm

theorem updateLink_ok {e : Env} {link : LinkProfile F} (hv : validateLink link = .ok ()) :
    (serve e (.updateLink link) c).1 = .ok () := by
  show (updateLink link c).1 = .ok ()
  unfold updateLink
  rw [hv]
  rfl

theorem spares_of_not {ids : List ResourceId} (h : ¬(a ∈ ids ∨ b ∈ ids)) : Spares ids a b = true ∧ Spares ids b a = true := by
  rw [not_or] at h
  simp [Spares, h.1, h.2]

/-- **What keeps an override in force**: everything but a new override and an expiry. -/
theorem LinkChange.overrides {e : Env} {request : Request F} {c' : CoordinatorState F} {link : LinkProfile F}
    (h : LinkChange e request c c') (ho : Overrides c a b link) (hkeep : ¬(Served.of e c request).Supersedes a b) :
    Overrides c' a b link := by
  cases h with
  | same ht hm =>
    refine ⟨by rw [ht]; exact ho.link, ?_⟩
    unfold Manual
    rw [hm]
    exact ho.manual
  | override link' hrequest hv ht hm =>
    have hother : ¬link'.Joins a b := by
      intro hj
      refine hkeep (.inl ⟨link', hrequest, ?_, hj⟩)
      rw [hrequest]
      exact updateLink_ok hv
    refine ⟨?_, ?_⟩
    · rw [ht, link_upsertLink_other _ hother]
      exact ho.link
    · unfold Manual
      rw [hm]
      exact ho.manual.imp Finset.mem_insert_of_mem Finset.mem_insert_of_mem
  | measured link' hnot hv ht hm =>
    have hother : ¬link'.Joins a b := fun hj => hnot (ho.manual.of_joins hj)
    refine ⟨?_, ?_⟩
    · rw [ht, link_upsertLink_other _ hother]
      exact ho.link
    · unfold Manual
      rw [hm]
      exact ho.manual
  | withdrawn a' b' hnot ht hm =>
    refine ⟨?_, ?_⟩
    · rw [ht, link_removeLink _ fun other hj hj' => hnot ?_]
      · exact ho.link
      · -- a link of both pairs: they are the same pair
        have hmanual := ho.manual.of_joins hj
        rcases hj' with ⟨rfl, rfl⟩ | ⟨rfl, rfl⟩
        · exact hmanual
        · exact hmanual.symm
    · unfold Manual
      rw [hm]
      exact ho.manual
  | expired hrequest ht hm =>
    have hspared : ¬(a ∈ expiredBy e c ∨ b ∈ expiredBy e c) := fun hexpired => hkeep (.inr ⟨hrequest, hexpired⟩)
    obtain ⟨hab, hba⟩ := spares_of_not hspared
    refine ⟨?_, ?_⟩
    · rw [link_eq_find, ht, find_filter fun other hother => ?_, ← link_eq_find]
      · exact ho.link
      · rcases of_decide_eq_true hother with ⟨hf, hto⟩ | ⟨hf, hto⟩
        · rw [hf, hto]
          exact hab
        · rw [hf, hto]
          exact hba
    · unfold Manual
      rw [hm]
      exact ho.manual.imp (fun hmem => Finset.mem_filter.mpr ⟨hmem, hab⟩) fun hmem => Finset.mem_filter.mpr ⟨hmem, hba⟩

/-- An accepted override is in force. -/
theorem overrides_updateLink {e : Env} {link : LinkProfile F} (hj : link.Joins a b)
    (hreply : (serve e (.updateLink link) c).1 = .ok ()) : Overrides (serve e (.updateLink link) c).2 a b link := by
  change (updateLink link c).1 = .ok () at hreply
  show Overrides (updateLink link c).2 a b link
  unfold updateLink at hreply ⊢
  cases hv : validateLink link with
  | error err =>
    rw [hv] at hreply
    cases hreply
  | ok u =>
    refine ⟨link_upsertLink hj c.fabric, ?_⟩
    rcases hj with ⟨rfl, rfl⟩ | ⟨rfl, rfl⟩
    · exact .inl (Finset.mem_insert_self _ _)
    · exact .inr (Finset.mem_insert_self _ _)

/-! ## Rejected requests -/

section

omit [F64 F]

/-- The requests about membership and links. -/
def Request.OfTopology : Request F → Prop
  | .registerResource _ _ | .heartbeat _ _ | .updateLink _ | .reportLinkMeasurement _ _ _ _ | .maintenanceTick => True
  | _ => False

/-- A computation whose value is dropped fails as it does alone. -/
theorem discard_error {α : Type} {m : CoordinatorM F α} {err : ApiError}
    (h : ((m >>= fun _ => (pure () : CoordinatorM F Unit)) c).1 = .error err) :
    (m c).1 = .error err ∧ ((m >>= fun _ => (pure () : CoordinatorM F Unit)) c).2 = (m c).2 := by
  rw [bind_apply] at h ⊢
  cases hr : m c with
  | mk r c' =>
    rw [hr] at h
    cases r with
    | ok a => cases h
    | error e =>
      cases h
      exact ⟨rfl, rfl⟩

theorem registerResource_rejected {e : Env} {descriptor : ResourceDescriptor F} {dataEndpoint : String} {err : ApiError}
    (h : (CoordinatorState.registerResource e descriptor dataEndpoint c).1 = .error err) :
    (CoordinatorState.registerResource e descriptor dataEndpoint c).2 = c := by
  unfold CoordinatorState.registerResource at h ⊢
  cases hn : normalizeEndpoint dataEndpoint with
  | error err => rfl
  | ok endpoint =>
    rw [hn] at h
    cases h

theorem heartbeat_rejected {e : Env} {r : ResourceId} {epoch : UInt64} {err : ApiError}
    (h : (onFabric (Fabric.heartbeat e r epoch) c).1 = .error err) :
    (onFabric (Fabric.heartbeat e r epoch) c).2 = c := by
  unfold onFabric zoom Fabric.heartbeat at h ⊢
  simp only [state_bind] at h ⊢
  cases hr : c.fabric.resources.lookup r with
  | none => rfl
  | some registered =>
    by_cases hepoch : registered.descriptor.epoch = epoch
    · simp only [hr, okOr_some, pure_bind', hepoch, ne_eq, not_true_eq_false, if_false] at h
      cases h
    · simp only [okOr_some, pure_bind', ne_eq, hepoch, not_false_eq_true, if_true]
      rfl

end

theorem updateLink_rejected {link : LinkProfile F} {err : ApiError} (h : (updateLink link c).1 = .error err) :
    (updateLink link c).2 = c := by
  unfold updateLink at h ⊢
  cases hv : validateLink link with
  | error err => rfl
  | ok u =>
    rw [hv] at h
    cases h

theorem reportLinkMeasurement_rejected {e : Env} {reporter peer : ResourceId} {epoch : UInt64}
    {measurement : LinkMeasurement F} {err : ApiError}
    (h : (reportLinkMeasurement e reporter epoch peer measurement c).1 = .error err) :
    (reportLinkMeasurement e reporter epoch peer measurement c).2 = c := by
  unfold reportLinkMeasurement at h ⊢
  split
  · rfl
  rename_i hne
  rw [if_neg hne, state_bind] at h
  rw [state_bind]
  cases hepoch : c.fabric.resourceEpoch (e.sub 0) reporter with
  | none => rfl
  | some currentEpoch =>
    rw [hepoch, okOr_some, pure_bind'] at h
    rw [okOr_some, pure_bind']
    split
    · rfl
    rename_i hcurrent
    rw [if_neg hcurrent] at h
    split
    · rfl
    rename_i hpeer
    rw [if_neg hpeer] at h
    split
    · rfl
    rename_i hmanual
    rw [if_neg hmanual] at h
    cases measurement with
    | unreachable => cases h
    | reachable rttMs bandwidthMbps =>
      dsimp only at h ⊢
      cases hv : validateLink { fromResource := reporter, toResource := peer, rttMs, bandwidthMbps } with
      | error err => rfl
      | ok u =>
        rw [hv] at h
        cases h

theorem rejected_unchanged {e : Env} {request : Request F} (hkind : request.OfTopology) {err : ApiError}
    (hreply : (serve e request c).1 = .error err) : (serve e request c).2 = c := by
  cases request with
  | registerResource descriptor dataEndpoint =>
    have hx : serve e (.registerResource descriptor dataEndpoint) =
        (CoordinatorState.registerResource e descriptor dataEndpoint >>= fun _ => pure ()) := rfl
    rw [hx] at hreply ⊢
    obtain ⟨herr, hsame⟩ := discard_error hreply
    rw [hsame]
    exact registerResource_rejected herr
  | heartbeat r epoch =>
    have hx : serve (F := F) e (.heartbeat r epoch) = (onFabric (Fabric.heartbeat e r epoch) >>= fun _ => pure ()) := rfl
    rw [hx] at hreply ⊢
    obtain ⟨herr, hsame⟩ := discard_error hreply
    rw [hsame]
    exact heartbeat_rejected herr
  | updateLink link => exact updateLink_rejected hreply
  | reportLinkMeasurement reporter epoch peer measurement => exact reportLinkMeasurement_rejected hreply
  | maintenanceTick => cases hreply
  | _ => exact hkind.elim

/-! ## Runs -/

theorem topologyOk_new (m x : UInt64) : TopologyOk (CoordinatorState.new (F := F) m x).fabric.topology.links :=
  ⟨.nil, fun _ h => (List.not_mem_nil h).elim⟩

/-- **Links set by hand are authoritative.** In every run, the topology has at most one link of each pair and only valid
ones; an accepted override is the link of its pair in both directions until it is superseded or an endpoint expires; and
a rejected request about membership or links changes nothing. -/
theorem manual_links_authoritative (e : Env) (m x : UInt64) (requests : List (Request F)) :
    TopologyOk (run e (CoordinatorState.new m x) requests).fabric.topology.links ∧
    (∀ a b pre served post link, history e (CoordinatorState.new m x) requests = pre ++ served :: post →
      served.request = .updateLink link → served.reply = .ok () → link.Joins a b →
      (∀ later ∈ post, ¬later.Supersedes a b) →
      (run e (CoordinatorState.new m x) requests).fabric.topology.link a b = some link ∧
        (run e (CoordinatorState.new m x) requests).fabric.topology.link b a = some link) ∧
    ∀ served ∈ history e (CoordinatorState.new m x) requests, served.request.OfTopology →
      ∀ err, served.reply = .error err → served.after = served.before := by
  refine ⟨?_, ?_, ?_⟩
  · exact run_rule (J := fun c => TopologyOk c.fabric.topology.links) (C := fun _ => True)
      (fun e c request hok _ => (serve_linkChange e request c).topologyOk hok) requests e _ (topologyOk_new m x)
      fun _ _ => trivial
  · intro a b pre served post link hhistory hrequest hreply hjoins hkept
    obtain ⟨e', later, hserved, rfl, hrun⟩ := history_split requests e _ pre post served hhistory
    have hset : Overrides served.after a b link := by
      rw [hserved, hrequest] at hreply ⊢
      exact overrides_updateLink hjoins hreply
    have hend : Overrides (run e (CoordinatorState.new m x) requests) a b link := by
      rw [hrun]
      exact run_rule (J := fun c => Overrides c a b link) (C := fun later => ¬later.Supersedes a b)
        (fun e c request ho hnot => (serve_linkChange e request c).overrides ho hnot) later _ _ hset hkept
    refine ⟨hend.link, ?_⟩
    rw [link_swap]
    exact hend.link
  · intro served hserved hkind err hreply
    obtain ⟨pre, post, hhistory⟩ := List.append_of_mem hserved
    obtain ⟨e', later, hof, -, -⟩ := history_split requests e _ pre post served hhistory
    rw [hof] at hreply ⊢
    exact rejected_unchanged hkind hreply

end Plurifold
