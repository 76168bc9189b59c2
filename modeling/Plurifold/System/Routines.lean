import Plurifold.System.Rules

/-!
# The routines of the processes are sound

One lemma for each routine of `Plurifold.Agent`, from requests to the coordinator up to a round of a process.
-/

namespace Plurifold

open Lib Attempt Fabric CoordinatorState Threads Site

variable {F : Type} {d : Deployment F} {e ids : Env} {m x : UInt64} {i : Party} {site s s' : Site F} {α β : Type}

/-! ## Requests -/

/-- What has come back for an exchange is what it was answered. -/
theorem reception_answered {chance : Chance F} {n : Nat} {exchange : Exchange F} {body : ResponseBody F}
    (hx : s.exchanges[n]? = some exchange) (h : s.reception chance n = some (.answered body)) :
    ∃ turn, exchange.answer = some (turn, .ok body) := by
  unfold reception at h
  rw [hx] at h
  cases htransport : chance.transport with
  | error error =>
    rw [htransport] at h
    cases h
  | ok u =>
    rw [htransport, Option.bind_some] at h
    dsimp only at h
    cases hanswer : exchange.answer with
    | none =>
      rw [hanswer] at h
      cases h
    | some entry =>
      obtain ⟨turn, result⟩ := entry
      rw [hanswer] at h
      cases result with
      | error error => cases h
      | ok body' =>
        cases hbody : chance.body with
        | error error =>
          rw [hbody] at h
          cases h
        | ok u =>
          rw [hbody] at h
          cases h
          exact ⟨turn, rfl⟩

variable [F64 F]

/-- A request, up to what has come back for it. The exchange is named by a number that no execution has. -/
theorem exchange_quietly {request : Request F} {f : Nat → Reception F → Routine F α}
    {Q : Except Abort α → Site F → Prop} (hentitled : site.Entitled d i request)
    (h : ∀ s, Ok d e m x s → Sane d.sha s → Since i site s → ∀ n reception,
      (∃ answer, s.exchanges[n]? = some ⟨i, request, answer⟩ ∧
        ∀ body, reception = .answered body → ∃ turn, answer = some (turn, .ok body)) →
      (∀ r, i = .worker r → s.cells n = none) → Quietly d e ids m x i Q (f n reception) s) :
    Quietly d e ids m x i Q (Agent.ask (.send request) >>= fun n => Agent.ask (.receive n) >>= f n) site := by
  refine Quietly.ask fun s hok hsane hsince chance n s' hsend => ?_
  cases hsend
  refine ⟨send_kept hok (hentitled.later hsince.later), fun hok' hsane' hsince' => ?_⟩
  refine Quietly.look trivial fun s₂ hok₂ hsane₂ hsince₂ chance₂ reception hreceive => ?_
  obtain ⟨reception', hreception, heq⟩ := Option.map_eq_some_iff.mp hreceive
  cases heq
  have hsent : ({ s with exchanges := s.exchanges ++ [⟨i, request, none⟩] } : Site F).exchanges[s.exchanges.length]? =
      some ⟨i, request, none⟩ := List.getElem?_concat_length
  obtain ⟨answer, hx, -⟩ := hsince₂.later.exchanges _ _ hsent
  refine (h s₂ hok₂ hsane₂ (hsince'.trans hsince₂) _ reception ⟨answer, hx, fun body hbody => ?_⟩ fun r hr => ?_)
  · rw [hbody] at hreception
    exact reception_answered hx hreception
  · subst hr
    refine hsince₂.no_cell hok₂ hsent rfl ?_
    -- an execution has the number of an exchange that was there before
    cases hcell : s.cells s.exchanges.length with
    | none => rfl
    | some cell =>
      obtain ⟨epoch, turn, hold⟩ := (hok.cells _ cell hcell).exchange
      exact absurd (List.getElem?_eq_some_iff.mp hold).1 (lt_irrefl _)

theorem post_quietly {request : Request F} (hentitled : site.Entitled d i request) :
    Quietly d e ids m x i (fun r s => ∃ reception, r = .ok reception ∧
      ∀ body, reception = .answered body → Answers s.coordinator.fabric request body) (Agent.post request) site := by
  refine exchange_quietly (f := fun _ reception => pure reception) hentitled
    fun s hok hsane hsince n reception hx _ => Quietly.pure fun s' hok' hsane' hsince' => ?_
  refine ⟨reception, rfl, fun body hbody => ?_⟩
  obtain ⟨answer, hx, hanswer⟩ := hx
  obtain ⟨turn, rfl⟩ := hanswer body hbody
  exact ((hok.answers n _ turn _ hx rfl).tells body rfl).mono hsince'.later.remembers

/-- A request, and what is made of what comes back. -/
theorem post_bind_quietly {request : Request F} {f : Reception F → Routine F α} {Q : Except Abort α → Site F → Prop}
    (hok : Ok d e m x site) (hentitled : site.Entitled d i request)
    (h : ∀ s, Ok d e m x s → Sane d.sha s → Since i site s → ∀ reception,
      (∀ body, reception = .answered body → Answers s.coordinator.fabric request body) →
      Quietly d e ids m x i Q (f reception) s) :
    Quietly d e ids m x i Q (Agent.post request >>= f) site := by
  refine Quietly.bind hok (post_quietly hentitled) (fun reception s hok hsane hsince hpost => ?_)
    fun error s hok hsane hpost => ?_
  · obtain ⟨reception', heq, hanswers⟩ := hpost
    cases heq
    exact h s hok hsane hsince reception hanswers
  · obtain ⟨reception, heq, -⟩ := hpost
    cases heq

omit [F64 F] in
theorem parseJson_ok {showStatus : Nat → String} {select : ResponseBody F → Option α} {reception : Reception F} {a : α}
    (h : Agent.parseJson showStatus select reception = .ok a) : ∃ body, reception = .answered body ∧ select body = some a := by
  cases reception with
  | lost error => cases h
  | rejected status message => cases h
  | garbled error => cases h
  | answered body =>
    unfold Agent.parseJson at h
    dsimp only at h
    cases hselect : select body with
    | none =>
      rw [hselect] at h
      cases h
    | some b =>
      rw [hselect] at h
      cases h
      exact ⟨body, rfl, hselect⟩

/-- An error of the source that is not a panic ends the routine, or nothing does. -/
theorem orFail_quietly {result : Except String α} {Q : Except Abort α → Site F → Prop}
    (hok : ∀ a s, Ok d e m x s → Sane d.sha s → Since i site s → result = .ok a → Q (.ok a) s)
    (herror : ∀ error s, Ok d e m x s → Sane d.sha s → Since i site s → Q (.error (.error error)) s) :
    Quietly d e ids m x i Q (Agent.orFail result) site := by
  cases result with
  | ok a => exact Quietly.pure fun s hs hsane hsince => hok a s hs hsane hsince rfl
  | error error => exact Quietly.fail fun s hs hsane hsince => herror error s hs hsane hsince

/-! ## The worker -/

section Worker

variable {r : ResourceId} {lease : MembershipLease}

theorem register_quietly (hok : Ok d e m x site) : Quietly d e ids m x (.worker r)
    (fun res _ => ∃ result, res = .ok result ∧ ∀ lease, result = .ok lease → lease.resourceId = r)
    (Agent.register d.showStatus (d.descriptor r) (d.advertise r)) site := by
  refine post_bind_quietly hok ⟨r, rfl, rfl⟩ fun s hok hsane hsince reception hanswers =>
    Quietly.pure fun s' _ _ _ => ⟨_, rfl, fun lease hlease => ?_⟩
  obtain ⟨body, hbody, hselect⟩ := parseJson_ok hlease
  have hanswer := hanswers body hbody
  cases body with
  | membership lease' =>
    cases hselect
    exact hanswer.trans (d.descriptor_id r)
  | _ => cases hselect

theorem sendHeartbeat_quietly (hok : Ok d e m x site) (hlease : lease.resourceId = r) : Quietly d e ids m x (.worker r)
    (fun res _ => ∃ result, res = .ok result ∧ ∀ lease, result = .ok lease → lease.resourceId = r)
    (Agent.sendHeartbeat d.showStatus lease) site := by
  subst hlease
  refine post_bind_quietly hok rfl fun s hok hsane hsince reception hanswers =>
    Quietly.pure fun s' _ _ _ => ⟨_, rfl, fun lease hlease => ?_⟩
  obtain ⟨body, hbody, hselect⟩ := parseJson_ok hlease
  have hanswer := hanswers body hbody
  cases body with
  | membership lease' =>
    cases hselect
    exact hanswer
  | _ => cases hselect

theorem heartbeatTick_quietly (hok : Ok d e m x site) (hlease : lease.resourceId = r) : Quietly d e ids m x (.worker r)
    (fun res _ => ∃ updated, res = .ok updated ∧ updated.resourceId = r)
    (Agent.heartbeatTick d.showStatus (d.descriptor r) (d.advertise r) lease) site := by
  refine Quietly.bind hok (sendHeartbeat_quietly hok hlease) (fun result s hok hsane hsince hpost => ?_)
    fun error s hok hsane hpost => ?_
  · obtain ⟨result', heq, hresult⟩ := hpost
    cases heq
    cases result with
    | ok updated => exact Quietly.pure fun s' _ _ _ => ⟨updated, rfl, hresult updated rfl⟩
    | error error =>
      refine Quietly.bind hok (register_quietly hok) (fun result s hok hsane hsince hpost => ?_)
        fun error s hok hsane hpost => ?_
      · obtain ⟨result', heq, hresult⟩ := hpost
        cases heq
        cases result with
        | ok updated => exact Quietly.pure fun s' _ _ _ => ⟨updated, rfl, hresult updated rfl⟩
        | error error => exact Quietly.pure fun s' _ _ _ => ⟨lease, rfl, hlease⟩
      · obtain ⟨result, heq, -⟩ := hpost
        cases heq
  · obtain ⟨result, heq, -⟩ := hpost
    cases heq

/-- A poll brings nothing, or an assignment with the exchange that it came by. -/
theorem pollWork_quietly (hlease : lease.resourceId = r) : Quietly d e ids m x (.worker r)
    (fun res s => ∃ n result, res = .ok (n, result) ∧ ∀ a, result = .ok (some a) → s.cells n = none ∧
      ∃ epoch turn, s.exchanges[n]? = some ⟨.worker r, .pollWork r epoch, some (turn, .ok (.work (some a)))⟩)
    (Agent.pollWork d.showStatus lease) site := by
  subst hlease
  have hentitled : site.Entitled d (.worker lease.resourceId) (.pollWork lease.resourceId lease.epoch) := rfl
  refine exchange_quietly (f := fun n reception => pure (n, Agent.parseJson d.showStatus Agent.asWork reception)) hentitled
    fun s hok hsane hsince n reception hx hcell => Quietly.pure fun s' hok' hsane' hsince' => ?_
  refine ⟨n, _, rfl, fun a ha => ?_⟩
  obtain ⟨body, hbody, hselect⟩ := parseJson_ok ha
  obtain ⟨answer, hx, hanswer⟩ := hx
  obtain ⟨turn, rfl⟩ := hanswer body hbody
  cases body with
  | work assignment =>
    cases hselect
    obtain ⟨answer', hx', hkept⟩ := hsince'.later.exchanges n _ hx
    refine ⟨hsince'.no_cell hok' hx rfl (hcell _ rfl), lease.epoch, turn, ?_⟩
    rw [hx', hkept _ rfl]
  | _ => cases hselect

theorem pollTick_safely (hlease : lease.resourceId = r) : Safely d e ids m x (.worker r)
    (fun res _ => res = .ok ()) (Agent.pollTick d.showStatus lease) site := by
  refine Safely.ask fun s hok hsane hsince chance busy s' hbusy => ?_
  have hlooks : Looks (.busy : Question F) := trivial
  obtain rfl := answer_looks hlooks hbusy
  have hshown : s'.busy r = busy := (Prod.mk.inj (Option.some.inj hbusy)).1
  refine ⟨.refl hok, fun _ => ?_⟩
  cases busy with
  | true => exact Safely.pure fun _ _ _ _ => rfl
  | false =>
    refine Safely.bind hok (pollWork_quietly hlease) (fun polled s hok hsane hpost => ?_) fun error s hok hsane hpost => ?_
    · obtain ⟨hsince, n, result, heq, hassigned⟩ := hpost
      cases heq
      cases result with
      | error error => exact Safely.pure fun _ _ _ _ => rfl
      | ok assignment =>
        cases assignment with
        | none => exact Safely.pure fun _ _ _ _ => rfl
        | some a =>
          obtain ⟨hcell, epoch, turn, hx⟩ := hassigned a rfl
          refine Safely.ask_last fun s₂ hok₂ hsane₂ hsince₂ chance₂ answer s₃ hspawn => ?_
          cases hspawn
          obtain ⟨answer', hx', hkept⟩ := hsince₂.later.exchanges n _ hx
          rw [hkept _ rfl] at hx'
          exact ⟨spawn_kept hok₂ (hsince₂.undisturbed.1 (hsince.undisturbed.1 hshown)) hx'
            (hsince₂.no_cell hok₂ hx rfl hcell), fun _ => Safely.pure fun _ _ _ _ => rfl⟩
    · obtain ⟨-, n, result, heq, -⟩ := hpost
      cases heq

end Worker

/-! ## Links -/

section Links

variable {r : ResourceId} {lease : MembershipLease}

theorem measureRtt_quietly (endpoint : String) : ∀ (samples : Nat) (rttMs : F) {site : Site F}, Ok d e m x site →
    Quietly d e ids m x i (fun _ _ => True) (Agent.measureRtt endpoint samples rttMs) site
  | 0, _, _, _ => Quietly.pure fun _ _ _ _ => trivial
  | samples + 1, _, _, _ => Quietly.look trivial fun _ hok _ _ _ _ _ =>
    Quietly.bind hok (orFail_quietly (Q := fun _ _ => True) (fun _ _ _ _ _ _ => trivial) fun _ _ _ _ _ => trivial)
      (fun _ _ hok _ _ _ => measureRtt_quietly endpoint samples _ hok) fun _ _ _ _ _ => trivial

theorem measurePeer_quietly (endpoint : String) (hok : Ok d e m x site) :
    Quietly d e ids m x i (fun _ _ => True) (Agent.measurePeer (F := F) endpoint) site := by
  refine Quietly.bind hok (measureRtt_quietly _ _ _ hok) (fun rttMs s hok _ _ _ => ?_) fun _ _ _ _ _ => trivial
  refine Quietly.look trivial fun s hok _ _ _ elapsed _ => ?_
  refine Quietly.bind hok (orFail_quietly (Q := fun _ _ => True) (fun _ _ _ _ _ _ => trivial) fun _ _ _ _ _ => trivial)
    (fun _ _ _ _ _ _ => ?_) fun _ _ _ _ _ => trivial
  exact Quietly.pure fun _ _ _ _ => trivial

/-- **An agent reports its own links only**, and of two agents only one does. -/
theorem measurePeers_quietly (hlease : lease.resourceId = r) : ∀ (peers : List (ResourceView F)) {site : Site F},
    Ok d e m x site → Quietly d e ids m x (.discovery r) (fun _ _ => True) (Agent.measurePeers d.showStatus lease peers) site
  | [], _, _ => Quietly.pure fun _ _ _ _ => trivial
  | peer :: rest, site, hok => by
    rw [Agent.measurePeers]
    split
    · exact measurePeers_quietly hlease rest hok
    rename_i hmeasures
    rw [not_or, not_not] at hmeasures
    split
    · exact measurePeers_quietly hlease rest hok
    refine Quietly.bind hok ((measurePeer_quietly _ hok).attempt (Q := fun _ _ => True) fun _ _ _ _ _ => trivial)
      (fun measured s hok _ _ _ => ?_) fun _ _ _ _ _ => trivial
    have hentitled : ∀ measurement, s.Entitled d (.discovery r)
        (.reportLinkMeasurement lease.resourceId lease.epoch peer.descriptor.id measurement) := fun _ =>
      ⟨by rw [hlease], hmeasures.2⟩
    refine post_bind_quietly hok (hentitled _) fun s hok _ _ reception _ => ?_
    exact Quietly.bind hok (orFail_quietly (Q := fun _ _ => True) (fun _ _ _ _ _ _ => trivial) fun _ _ _ _ _ => trivial)
      (fun _ _ hok _ _ _ => measurePeers_quietly hlease rest hok) fun _ _ _ _ _ => trivial

theorem discoverTopology_quietly (hlease : lease.resourceId = r) : Quietly d e ids m x (.discovery r) (fun _ _ => True)
    (Agent.discoverTopology d.showStatus lease : Routine F Unit) site := by
  refine Quietly.look trivial fun s hok _ _ _ resources _ => ?_
  exact Quietly.bind hok (orFail_quietly (Q := fun _ _ => True) (fun _ _ _ _ _ _ => trivial) fun _ _ _ _ _ => trivial)
    (fun _ _ hok _ _ _ => measurePeers_quietly hlease _ hok) fun _ _ _ _ _ => trivial

end Links

/-! ## Clients -/

namespace Site

/-- An object that an agent stores for a client is as it says. -/
theorem putObject_kept {disk : Except String Unit} {r : ResourceId} {bytes : Bytes}
    {result : Except DataError ObjectMetadata} (hok : Ok d e m x site)
    (h : site.putObject d ids disk r bytes = (result, s)) :
    (Kept d e m x i site s ∧ ∀ j, Undisturbed j site s) ∧ ∀ object, result = .ok object → (s.holdings d).Lists object := by
  unfold putObject at h
  cases hput : site.putBlob d disk r bytes with
  | mk stored s₁ =>
    obtain ⟨hkept, hundisturbed, hstored⟩ := putBlob_kept (i := i) hok hput
    rw [hput] at h
    cases stored with
    | error error =>
      cases h
      exact ⟨⟨hkept, hundisturbed⟩, fun object hobject => (by cases hobject)⟩
    | ok stored =>
      obtain ⟨rfl, hwritten, hcontains⟩ := hstored stored rfl
      cases h
      obtain ⟨hkept₂, hundisturbed₂⟩ := kept_of_same (i := i) hkept.ok (s₁.objectIds + 1) hkept.ok.probing
      refine ⟨⟨hkept.trans hkept₂, fun j => (hundisturbed j).trans (hundisturbed₂ j)⟩, fun object hobject => ?_⟩
      cases hobject
      refine ⟨⟨bytes, hwritten, rfl, rfl⟩, fun r' hr' digest hdigest => ?_⟩
      obtain rfl := List.mem_singleton.mp hr'
      cases hdigest
      exact hcontains

/-- So is one that a client uploads. -/
theorem upload_kept {agent : String} {bytes : Bytes} {result : Except String ObjectMetadata} {chance : Chance F}
    (hok : Ok d e m x site) (h : site.upload d ids chance agent bytes = (result, s)) :
    (Kept d e m x i site s ∧ ∀ j, Undisturbed j site s) ∧ ∀ object, result = .ok object → (s.holdings d).Lists object := by
  unfold upload at h
  split at h
  · cases h
    exact ⟨⟨.refl hok, fun j => .refl j site⟩, fun object hobject => (by cases hobject)⟩
  · cases h
    exact ⟨⟨.refl hok, fun j => .refl j site⟩, fun object hobject => (by cases hobject)⟩
  · rename_i r _ _
    cases hput : site.putObject d ids chance.disk r bytes with
    | mk stored s₁ =>
      rw [hput] at h
      obtain ⟨hkept, hlists⟩ := putObject_kept (i := i) hok hput
      cases stored with
      | error error =>
        cases h
        exact ⟨hkept, fun object hobject => (by cases hobject)⟩
      | ok stored =>
        cases h
        refine ⟨hkept, fun object hobject => hlists object ?_⟩
        cases hbody : chance.body with
        | error error =>
          rw [hbody] at hobject
          cases hobject
        | ok u =>
          rw [hbody] at hobject
          cases hobject
          rfl

end Site

/-- The result of a command, or its error. -/
def Site.Returns (res : Except Abort α) (_ : Site F) : Prop :=
  ∀ error, res = .error error → ∃ message, error = .error message

theorem orFail_returns (result : Except String α) :
    Quietly d e ids m x i Returns (Agent.orFail result : Routine F α) site :=
  orFail_quietly (fun _ _ _ _ _ _ _ h => (by cases h)) fun error _ _ _ _ _ h => ⟨error, (Except.error.inj h).symm⟩

theorem putFile_quietly {n : Nat} (agent : String) (bytes : Bytes) : Quietly d e ids m x (.client n) Returns
    (Agent.putFile d.showStatus agent bytes : Routine F Unit) site := by
  refine Quietly.ask fun s hok hsane hsince chance uploaded s' hupload => ?_
  have hanswer : s.upload d ids chance (Agent.trimEndSlashes agent) bytes = (uploaded, s') := Option.some.inj hupload
  have hkept := upload_kept (i := .client n) hok hanswer
  refine ⟨hkept.1, fun hok' hsane' hsince' => ?_⟩
  refine Quietly.bind (M := fun res s => Returns res s ∧ ∀ object, res = .ok object → (s.holdings d).Lists object) hok'
    (orFail_quietly (fun object s₂ _ _ hsince₂ heq => ⟨fun _ h => (by cases h), fun object' hobject => ?_⟩)
      fun error _ _ _ _ => ⟨fun _ h => ⟨error, (Except.error.inj h).symm⟩, fun _ h => (by cases h)⟩)
    (fun object s₂ hok₂ _ _ hmid => ?_) fun error s₂ _ _ hmid _ h => hmid.1 _ (by cases h; rfl)
  · cases hobject
    exact (hkept.2 object heq).mono hsince₂.later.known hsince₂.later.held
  · have hentitled : s₂.Entitled d (.client n) (.publishObject object) := ⟨⟨n, rfl⟩, hmid.2 object rfl⟩
    exact post_bind_quietly hok₂ hentitled fun s₃ _ _ _ reception _ => orFail_returns _

/-- A command publishes what an agent has stored, or submits. -/
theorem runCommand_quietly {n : Nat} (command : Command F) (hok : Ok d e m x site) : Quietly d e ids m x (.client n)
    Returns (Agent.runCommand d.showStatus command) site := by
  have submit : ∀ {γ : Type} (request : Request F) (select : ResponseBody F → Option γ),
      site.Entitled d (.client n) request → Quietly d e ids m x (.client n) Returns (Agent.post request >>= fun reception =>
        Agent.orFail (Agent.checkedJson d.showStatus select reception) >>= fun _ => pure ()) site := by
    intro γ request select hentitled
    refine post_bind_quietly hok hentitled fun s hok _ _ reception _ => ?_
    exact Quietly.bind hok (orFail_returns _) (fun _ _ _ _ _ _ => Quietly.pure fun _ _ _ _ _ h => (by cases h))
      fun error _ _ _ hmid _ h => hmid _ (by cases h; rfl)
  cases command with
  | put agent bytes => exact putFile_quietly agent bytes
  | submit task => exact submit (.submitTask task) Agent.asTask ⟨n, rfl⟩
  | submitJob job => exact submit (.submitCooperativeJob job) Agent.asJob ⟨n, rfl⟩
  | autoSubmit preview job => exact submit (.submitPlannedJob preview job) Agent.asJob ⟨n, rfl⟩
  | link link =>
    have hentitled : site.Entitled d (.client n) (.updateLink link) := ⟨n, rfl⟩
    exact post_bind_quietly hok hentitled fun _ _ _ _ _ _ => orFail_returns _

end Plurifold
