import Plurifold.System.Invariant

/-!
# What a question does to a deployment

For each question of `Site.answer`: it keeps the invariant, things only grow, and the other processes are left undisturbed
(`Kept`), if the question is one that the process may ask then.
-/

namespace Plurifold

open Lib Attempt Fabric CoordinatorState

variable {F : Type} {d : Deployment F} {e ids : Env} {m x : UInt64} {i : Party} {chance : Chance F}
  {site site' : Site F} {sha : Sha256} {store store' : LocalObjectStore}

/-! ## Digests and URLs -/

theorem digest_eq_iff {b b' : Bytes} : sha.digest b = sha.digest b' ↔ sha.hex b = sha.hex b' := by
  constructor
  · intro h
    have hstrip : stripLeading "sha256:" (sha.digest b) = stripLeading "sha256:" (sha.digest b') := congrArg _ h
    have hexed : ∀ b, stripLeading "sha256:" (sha.digest b) = some (sha.hex b) := fun b => stripLeading_append _ _
    rw [hexed, hexed] at hstrip
    exact Option.some.inj hstrip
  · intro h
    simp only [Sha256.digest, h]

theorem Site.Sane.digest_inj (h : Site.Sane sha site) {b b' : Bytes} (hb : b ∈ site.written) (hb' : b' ∈ site.written)
    (hdigest : sha.digest b = sha.digest b') : b = b' := h.hex_inj b hb b' hb' (digest_eq_iff.mp hdigest)

variable [F64 F]

/-- What a store gives out has the digest that was asked for. -/
theorem get_ok {digest : String} {bytes : Bytes} (h : store.get sha digest = .ok bytes) :
    sha.digest bytes = digest ∧ ∃ path, store.files.lookup path = some (.ok bytes) := by
  unfold LocalObjectStore.get at h
  cases hpath : LocalObjectStore.pathForDigest digest with
  | error error =>
    rw [hpath] at h
    cases h
  | ok path =>
    rw [hpath] at h
    simp only [bind, Except.bind] at h
    split at h
    · cases h
    · cases h
    · rename_i content hfile
      split at h
      · cases h
      · rename_i hverify
        cases h
        unfold LocalObjectStore.verify at hverify
        dsimp only at hverify
        split at hverify
        · rename_i hdigest
          exact ⟨hdigest, path, hfile⟩
        · cases hverify

/-- What storing a blob does. -/
theorem put_ok {write : Except String Unit} {bytes : Bytes} {stored : String}
    (h : store.put sha write bytes = .ok (stored, store')) :
    stored = sha.digest bytes ∧ store'.contains stored = true ∧
    (∀ name file, store.files.lookup name = some file → store'.files.lookup name = some file) ∧
    ∀ name file, store'.files.lookup name = some file →
      store.files.lookup name = some file ∨ name = sha.hex bytes ∧ file = .ok bytes := by
  unfold LocalObjectStore.put at h
  split at h
  · rename_i hthere
    cases h
    exact ⟨rfl, by rw [contains_digest]; exact hthere, fun _ _ hfile => hfile, fun _ _ hfile => .inl hfile⟩
  · rename_i habsent
    cases write with
    | error message => cases h
    | ok u =>
      cases h
      refine ⟨rfl, by rw [contains_digest, AList.lookup_insert]; rfl, fun name file hfile => ?_, fun name file hfile => ?_⟩
      · have hname : name ≠ sha.hex bytes := by
          rintro rfl
          rw [hfile] at habsent
          exact habsent rfl
        exact (AList.lookup_insert_ne hname).trans hfile
      · by_cases hname : name = sha.hex bytes
        · subst hname
          rw [AList.lookup_insert] at hfile
          exact .inr ⟨rfl, (Option.some.inj hfile).symm⟩
        · rw [AList.lookup_insert_ne hname] at hfile
          exact .inl hfile

/-- A URL that the coordinator makes leads to the endpoint and the digest that it was made of. -/
theorem splitBlobUrl_url {suffix : String} (hsuffix : '/' ∉ suffix.toList) (endpoint : String) :
    splitBlobUrl s!"{endpoint}/v1/blobs/{suffix}" = some (endpoint, suffix) := by
  have hurl : (s!"{endpoint}/v1/blobs/{suffix}" : String).toList.reverse =
      suffix.toList.reverse ++ ("/v1/blobs/".toList.reverse ++ endpoint.toList.reverse) := by
    have happend : (s!"{endpoint}/v1/blobs/{suffix}" : String) = endpoint ++ "/v1/blobs/" ++ suffix := rfl
    rw [happend]
    simp only [String.toList_append, List.reverse_append]
  have hpass : ∀ c ∈ suffix.toList.reverse, decide (c ≠ '/') = true := by
    intro c hc
    have hne : c ≠ '/' := fun heq => hsuffix (heq ▸ List.mem_reverse.mp hc)
    exact decide_eq_true hne
  have hpath : "/v1/blobs/".toList.reverse = '/' :: "v1/blobs".toList.reverse ++ ['/'] := by decide
  unfold splitBlobUrl
  dsimp only
  have hdrop : (suffix.toList.reverse ++ ("/v1/blobs/".toList.reverse ++ endpoint.toList.reverse)).dropWhile
      (fun c => decide (c ≠ '/')) = "/v1/blobs/".toList.reverse ++ endpoint.toList.reverse := by
    rw [List.dropWhile_append_of_pos hpass, hpath]
    simp
  have htake : (suffix.toList.reverse ++ ("/v1/blobs/".toList.reverse ++ endpoint.toList.reverse)).takeWhile
      (fun c => decide (c ≠ '/')) = suffix.toList.reverse := by
    rw [List.takeWhile_append_of_pos hpass, hpath]
    simp
  rw [hurl, hdrop, htake, if_pos (by simp), List.drop_left, List.reverse_reverse, List.reverse_reverse,
    String.ofList_toList, String.ofList_toList]

theorem slash_not_mem_hex (b : Bytes) : '/' ∉ (sha.hex b).toList := by
  intro hmem
  have hdigit := List.all_eq_true.mp (sha.hex_digits b).2 _ hmem
  revert hdigit
  decide

namespace Site

/-! ## Steps -/

/-- A step of process `i`. -/
structure Kept (d : Deployment F) (e : Env) (m x : UInt64) (i : Party) (site site' : Site F) : Prop where
  ok : Ok d e m x site'
  later : Later site site'
  undisturbed : ∀ j, j ≠ i → Undisturbed j site site'

theorem Kept.refl (h : Ok d e m x site) : Kept d e m x i site site := ⟨h, refl_of Later site, fun j _ => .refl j site⟩

theorem Kept.trans {site'' : Site F} (h : Kept d e m x i site site') (h' : Kept d e m x i site' site'') :
    Kept d e m x i site site'' :=
  ⟨h'.ok, trans_of Later h.later h'.later, fun j hj => (h.undisturbed j hj).trans (h'.undisturbed j hj)⟩

/-! ### Blobs -/

omit [F64 F] in
theorem later_putBlob {dir : String} (bytes : Bytes)
    (hfiles : ∀ name file, (site.stores dir).files.lookup name = some file → store'.files.lookup name = some file) :
    Later site { site with stores := Function.update site.stores dir store', written := bytes :: site.written } where
  remembers := refl_of Remembers _
  log := List.prefix_refl _
  written := List.subset_cons_self ..
  files dir' name file hfile := by
    by_cases hdir : dir' = dir
    · subst hdir
      simp only [Function.update_self]
      exact hfiles name file hfile
    · simp only [Function.update_of_ne hdir]
      exact hfile
  exchanges n exchange hx := ⟨exchange.answer, hx, fun _ h => h⟩
  cells n cell hcell := ⟨cell, hcell, rfl, rfl, id⟩
  executed := List.Subset.refl _

/-- Storing a blob. -/
theorem putBlob_kept {disk : Except String Unit} {r : ResourceId} {bytes : Bytes} {result : Except StoreError String}
    (hok : Ok d e m x site) (h : site.putBlob d disk r bytes = (result, site')) :
    Kept d e m x i site site' ∧ (∀ j, Undisturbed j site site') ∧ ∀ stored, result = .ok stored →
      stored = d.sha.digest bytes ∧ bytes ∈ site'.written ∧ (site'.storeOf d r).contains stored = true := by
  unfold putBlob at h
  cases hput : (site.storeOf d r).put d.sha disk bytes with
  | error error =>
    rw [hput] at h
    cases h
    exact ⟨.refl hok, fun j => .refl j site, fun stored hstored => (by cases hstored)⟩
  | ok entry =>
    obtain ⟨stored, store⟩ := entry
    rw [hput] at h
    cases h
    obtain ⟨hstored, hcontains, hkeeps, hnew⟩ := put_ok hput
    have hlater := later_putBlob bytes hkeeps
    have hundisturbed : ∀ j, Undisturbed j site { site with
        stores := Function.update site.stores (d.storeDir r) store, written := bytes :: site.written } := fun j =>
      .of_same j rfl rfl rfl
    refine ⟨⟨?_, hlater, fun j _ => hundisturbed j⟩, hundisturbed, fun stored' hresult => ?_⟩
    · exact {
        coordinator := hok.coordinator
        named := hok.named
        files := by
          intro dir name file hfile
          by_cases hdir : dir = d.storeDir r
          · subst hdir
            simp only [Function.update_self] at hfile
            rcases hnew name file hfile with hold | ⟨rfl, rfl⟩
            · obtain ⟨b, hb, hcontent⟩ := hok.files _ name file hold
              exact ⟨b, List.mem_cons_of_mem _ hb, hcontent⟩
            · exact ⟨bytes, List.mem_cons_self .., rfl, rfl⟩
          · simp only [Function.update_of_ne hdir] at hfile
            obtain ⟨b, hb, hcontent⟩ := hok.files dir name file hfile
            exact ⟨b, List.mem_cons_of_mem _ hb, hcontent⟩
        table := hok.table.mono hlater.known hlater.held
        completed := fun t outputs ht => (hok.completed t outputs ht).later hlater
        requests := fun n exchange hx => (hok.requests n exchange hx).later hlater
        answers := fun n exchange turn result hx ha => (hok.answers n exchange turn result hx ha).later hlater
        turns := hok.turns
        cells := fun n cell hcell => (hok.cells n cell hcell).later hlater rfl rfl (hok.cells n cell hcell).owns
        idle := hok.idle
        busy := hok.busy
        alone := hok.alone
        executed := hok.executed
        once := hok.once
        probing := hok.probing }
    · cases hresult
      refine ⟨hstored, List.mem_cons_self .., ?_⟩
      rw [storeOf]
      simp only [Function.update_self]
      exact hcontains

/-- What concerns nothing but fresh identifiers and the probing flags. -/
theorem kept_of_same (hok : Ok d e m x site) (objectIds : Nat) {probing : ResourceId → Option MembershipLease}
    (hprobing : ∀ r lease, probing r = some lease → lease.resourceId = r) :
    Kept d e m x i site { site with objectIds, probing } ∧ ∀ j, Undisturbed j site { site with objectIds, probing } := by
  have hundisturbed : ∀ j, Undisturbed j site { site with objectIds, probing } := fun j => .of_same j rfl rfl rfl
  have hlater : Later site { site with objectIds, probing } := {
    remembers := refl_of Remembers _
    log := List.prefix_refl _
    written := List.Subset.refl _
    files := fun _ _ _ h => h
    exchanges := fun n exchange h => ⟨exchange.answer, h, fun _ h => h⟩
    cells := fun n cell h => ⟨cell, h, rfl, rfl, id⟩
    executed := List.Subset.refl _ }
  refine ⟨⟨?_, hlater, fun j _ => hundisturbed j⟩, hundisturbed⟩
  exact {
    coordinator := hok.coordinator
    named := hok.named
    files := hok.files
    table := hok.table
    completed := fun t outputs ht => (hok.completed t outputs ht).later hlater
    requests := fun n exchange hx => (hok.requests n exchange hx).later hlater
    answers := fun n exchange turn result hx ha => (hok.answers n exchange turn result hx ha).later hlater
    turns := hok.turns
    cells := fun n cell hcell => (hok.cells n cell hcell).later hlater rfl rfl (hok.cells n cell hcell).owns
    idle := hok.idle
    busy := hok.busy
    alone := hok.alone
    executed := hok.executed
    once := hok.once
    probing := hprobing }

/-! ### Exchanges -/

theorem getElem?_snoc {α : Type} {l : List α} {a b : α} {n : Nat} (h : (l ++ [a])[n]? = some b) :
    l[n]? = some b ∨ n = l.length ∧ b = a := by
  rcases lt_trichotomy n l.length with hlt | rfl | hgt
  · rw [List.getElem?_append_left hlt] at h
    exact .inl h
  · rw [List.getElem?_concat_length] at h
    exact .inr ⟨rfl, (Option.some.inj h).symm⟩
  · rw [List.getElem?_eq_none (by simp; omega)] at h
    cases h

/-- Sending a request. -/
theorem send_kept {request : Request F} (hok : Ok d e m x site) (hentitled : site.Entitled d i request) :
    Kept d e m x i site { site with exchanges := site.exchanges ++ [⟨i, request, none⟩] } ∧
      ∀ j, Undisturbed j site { site with exchanges := site.exchanges ++ [⟨i, request, none⟩] } := by
  have hlater : Later site { site with exchanges := site.exchanges ++ [⟨i, request, none⟩] } := {
    remembers := refl_of Remembers _
    log := List.prefix_refl _
    written := List.Subset.refl _
    files := fun _ _ _ h => h
    exchanges := fun n exchange hx => by
      refine ⟨exchange.answer, ?_, fun _ h => h⟩
      rw [List.getElem?_append_left (List.getElem?_eq_some_iff.mp hx).1]
      exact hx
    cells := fun n cell h => ⟨cell, h, rfl, rfl, id⟩
    executed := List.Subset.refl _ }
  have hundisturbed : ∀ j, Undisturbed j site { site with exchanges := site.exchanges ++ [⟨i, request, none⟩] } := fun j =>
    .of_same j rfl rfl rfl
  refine ⟨⟨?_, hlater, fun j _ => hundisturbed j⟩, hundisturbed⟩
  exact {
    coordinator := hok.coordinator
    named := hok.named
    files := hok.files
    table := hok.table
    completed := fun t outputs ht => (hok.completed t outputs ht).later hlater
    requests := by
      intro n exchange hx
      rcases getElem?_snoc hx with hold | ⟨-, rfl⟩
      · exact (hok.requests n exchange hold).later hlater
      · exact hentitled.later hlater
    answers := by
      intro n exchange turn result hx ha
      rcases getElem?_snoc hx with hold | ⟨-, rfl⟩
      · exact (hok.answers n exchange turn result hold ha).later hlater
      · cases ha
    turns := by
      intro n n' exchange exchange' turn result result' hx hx' ha ha'
      rcases getElem?_snoc hx with hold | ⟨-, rfl⟩
      · rcases getElem?_snoc hx' with hold' | ⟨-, rfl⟩
        · exact hok.turns n n' exchange exchange' turn result result' hold hold' ha ha'
        · cases ha'
      · cases ha
    cells := fun n cell hcell => (hok.cells n cell hcell).later hlater rfl rfl (hok.cells n cell hcell).owns
    idle := hok.idle
    busy := hok.busy
    alone := hok.alone
    executed := hok.executed
    once := hok.once
    probing := hok.probing }

/-! ### The coordinator -/

theorem run_snoc (request : Request F) : ∀ (requests : List (Request F)) (e : Env) (c : CoordinatorState F),
    CoordinatorState.run e c (requests ++ [request]) =
      (respond (turnEnv e requests.length) request (CoordinatorState.run e c requests)).2
  | [], _, _ => (respond_state _ _ _).symm
  | _ :: requests, e, _ => run_snoc request requests (e.sub 1) _

/-- What an execution was assigned. -/
theorem Ok.assigned (hok : Ok d e m x site) {n : Nat} {cell : ExecutionCell F} (hcell : site.cells n = some cell) :
    HandedTo site.coordinator.fabric cell.agent cell.assignment := by
  obtain ⟨epoch, turn, hx⟩ := (hok.cells n cell hcell).exchange
  exact (hok.answers n _ turn _ hx rfl).tells _ rfl

/-- A report that is accepted is right. -/
theorem right_of_report {request : Request F} {sender : Party} {t : TaskId} {outputs : List ObjectId} {env : Env}
    (hok : Ok d e m x site)
    (hentitled : ∀ lease outputs, request = .completeExecution lease outputs → site.Entitled d sender request)
    (hcoordinator : site'.coordinator = (respond env request site.coordinator).2) (hlater : Later site site')
    (h : site'.coordinator.fabric.taskStatus t = some (.completed outputs)) : site'.Right d t outputs := by
  rw [hcoordinator] at h
  rcases respond_completes h with hbefore | ⟨lease, objects, rfl, rfl, rfl, hknown⟩
  · exact (hok.completed t outputs hbefore).later hlater
  · obtain ⟨n, cell, -, hcell, howns, object, output, rfl, -, -, hwritten, hdescribes, hproduces⟩ :=
      hentitled lease objects rfl
    have htask := (hok.assigned hcell).task
    rw [← howns.task] at htask
    refine ⟨cell.assignment.task, object.id, output, cell.agent, hlater.remembers.specs _ _ htask, rfl, ?_,
      hproduces.later hlater⟩
    refine ⟨hlater.written hwritten, object.identity, ?_, hdescribes.digest, hdescribes.size⟩
    rw [hcoordinator]
    exact hknown object rfl

/-- The exchanges after one of them has been answered, or none. -/
structure Fills (site site' : Site F) (request : Request F) (result : Except ApiError (ResponseBody F)) : Prop where
  back : ∀ (n : Nat) exchange, site'.exchanges[n]? = some exchange → site.exchanges[n]? = some exchange ∨
    ∃ sender, site.exchanges[n]? = some ⟨sender, request, none⟩ ∧ exchange = ⟨sender, request, some (site.log.length, result)⟩
  forth : ∀ (n : Nat) (exchange : Exchange F), site.exchanges[n]? = some exchange →
    ∃ answer, site'.exchanges[n]? = some { exchange with answer } ∧ ∀ a, exchange.answer = some a → answer = some a
  one : ∀ (n n' : Nat) (exchange exchange' : Exchange F), site'.exchanges[n]? = some exchange →
    site'.exchanges[n']? = some exchange' → site.exchanges[n]? ≠ some exchange → site.exchanges[n']? ≠ some exchange' →
    n = n'

/-- **The coordinator takes a turn.** -/
theorem turn_kept (request : Request F) (sender : Party) (hok : Ok d e m x site)
    (hhonest : (site.holdings d).Honest site.coordinator.fabric request)
    (hentitled : ∀ lease outputs, request = .completeExecution lease outputs → site.Entitled d sender request)
    (hcoordinator : site'.coordinator = (respond (turnEnv e site.log.length) request site.coordinator).2)
    (hlog : site'.log = site.log ++ [request])
    (hexchanges : Fills site site' request (respond (turnEnv e site.log.length) request site.coordinator).1)
    (hstores : site'.stores = site.stores) (hwritten : site'.written = site.written) (hbusy : site'.busy = site.busy)
    (hcells : site'.cells = site.cells) (hexecuted : site'.executed = site.executed)
    (hprobing : site'.probing = site.probing) : Kept d e m x i site site' := by
  have hlater : Later site site' := {
    remembers := by
      rw [hcoordinator]
      exact respond_remembers _ request site.coordinator
    log := ⟨[request], hlog.symm⟩
    written := by rw [hwritten]; exact List.Subset.refl _
    files := by
      rw [hstores]
      exact fun _ _ _ h => h
    exchanges := hexchanges.forth
    cells := fun n cell h => ⟨cell, by rw [hcells]; exact h, rfl, rfl, id⟩
    executed := by rw [hexecuted]; exact List.Subset.refl _ }
  have htable : (site'.holdings d).Table site'.coordinator.fabric := by
    rw [hcoordinator]
    exact (respond_table hhonest hok.table).mono hlater.known hlater.held
  refine ⟨?_, hlater, fun j _ => .of_same j hbusy hcells hexecuted⟩
  exact {
    coordinator := by rw [hcoordinator, hlog, run_snoc, ← hok.coordinator]
    named := by
      rw [hcoordinator]
      exact respond_tasksNamed _ request hok.named
    files := by
      rw [hstores, hwritten]
      exact hok.files
    table := htable
    completed := fun t outputs => right_of_report hok hentitled hcoordinator hlater
    requests := by
      intro n exchange hx
      rcases hexchanges.back n exchange hx with hold | ⟨sender, hold, rfl⟩
      · exact (hok.requests n exchange hold).later hlater
      · have hbefore : site.Entitled d sender request := hok.requests n ⟨sender, request, none⟩ hold
        exact hbefore.later hlater
    answers := by
      intro n exchange turn result hx ha
      rcases hexchanges.back n exchange hx with hold | ⟨sender, hold, rfl⟩
      · exact (hok.answers n exchange turn result hold ha).later hlater
      · cases ha
        refine ⟨by rw [hlog, List.getElem?_concat_length], ?_, fun body hbody => ?_⟩
        · rw [hlog, List.take_left, ← hok.coordinator]
        · have hnamed : ObjectsNamed site'.coordinator.fabric := fun o object ho => (htable o object ho).1
          rw [hcoordinator] at hnamed ⊢
          exact respond_answers hok.named hnamed hbody
    turns := by
      intro n n' exchange exchange' turn result result' hx hx' ha ha'
      have before : ∀ {n : Nat} {exchange : Exchange F} {result}, site.exchanges[n]? = some exchange →
          exchange.answer = some (turn, result) → turn < site.log.length := fun hold ha =>
        (List.getElem?_eq_some_iff.mp (hok.answers _ _ _ _ hold ha).served).1
      by_cases hold : site.exchanges[n]? = some exchange
      · by_cases hold' : site.exchanges[n']? = some exchange'
        · exact hok.turns n n' exchange exchange' turn result result' hold hold' ha ha'
        · rcases hexchanges.back n' exchange' hx' with hcase | ⟨sender, -, rfl⟩
          · exact absurd hcase hold'
          · cases ha'
            exact absurd (before hold ha) (lt_irrefl _)
      · by_cases hold' : site.exchanges[n']? = some exchange'
        · rcases hexchanges.back n exchange hx with hcase | ⟨sender, -, rfl⟩
          · exact absurd hcase hold
          · cases ha
            exact absurd (before hold' ha') (lt_irrefl _)
        · exact hexchanges.one n n' exchange exchange' hx hx' hold hold'
    cells := by
      intro n cell hcell
      rw [hcells] at hcell
      exact (hok.cells n cell hcell).later hlater rfl rfl (hok.cells n cell hcell).owns
    idle := by
      rw [hbusy, hcells]
      exact hok.idle
    busy := by
      rw [hbusy, hcells]
      exact hok.busy
    alone := by
      rw [hcells]
      exact hok.alone
    executed := by
      rw [hexecuted, hcells]
      exact hok.executed
    once := by
      rw [hexecuted]
      exact hok.once
    probing := by
      rw [hprobing]
      exact hok.probing }

theorem serveExchange_kept (hok : Ok d e m x site) (n : Nat) : Kept d e m x i site (site.serveExchange e n) := by
  unfold serveExchange
  cases hx : site.exchanges[n]? with
  | none => exact .refl hok
  | some exchange =>
    obtain ⟨sender, request, answer⟩ := exchange
    cases answer with
    | some a => exact .refl hok
    | none =>
      have hentitled : site.Entitled d sender request := hok.requests n _ hx
      have hlength := (List.getElem?_eq_some_iff.mp hx).1
      refine turn_kept request sender hok hentitled.honest (fun _ _ _ => hentitled) rfl rfl ?_ rfl rfl rfl rfl rfl rfl
      refine ⟨fun n' exchange' hx' => ?_, fun n' exchange' hx' => ?_, fun n' n'' exchange' exchange'' hx' hx'' hne hne' => ?_⟩
      · dsimp only [serveRequest] at hx'
        by_cases hn : n' = n
        · subst hn
          rw [List.getElem?_set_self hlength] at hx'
          exact .inr ⟨sender, hx, (Option.some.inj hx').symm⟩
        · rw [List.getElem?_set_ne (Ne.symm hn)] at hx'
          exact .inl hx'
      · dsimp only [serveRequest]
        by_cases hn : n' = n
        · subst hn
          rw [hx] at hx'
          cases hx'
          exact ⟨_, by rw [List.getElem?_set_self hlength], fun a ha => (by cases ha)⟩
        · exact ⟨exchange'.answer, by rw [List.getElem?_set_ne (Ne.symm hn)]; exact hx', fun _ h => h⟩
      · have there : ∀ {k exchange}, (site.exchanges.set n ⟨sender, request, some (site.log.length,
            (respond (turnEnv e site.log.length) request site.coordinator).1)⟩)[k]? = some exchange →
            site.exchanges[k]? ≠ some exchange → k = n := by
          intro k exchange hk hold
          by_contra hkn
          rw [List.getElem?_set_ne (Ne.symm hkn)] at hk
          exact hold hk
        rw [there hx' hne, there hx'' hne']

theorem maintain_kept (hok : Ok d e m x site) : Kept d e m x i site (site.serveRequest e .maintenanceTick).2 := by
  refine turn_kept .maintenanceTick .coordinator hok trivial (fun _ _ h => (by cases h)) rfl rfl ?_ rfl rfl rfl rfl rfl rfl
  exact ⟨fun _ _ h => .inl h, fun _ exchange h => ⟨exchange.answer, h, fun _ ha => ha⟩, fun _ _ _ _ h _ hne _ =>
    absurd h hne⟩

/-! ### Executions -/

/-- The changes of the cells, the busy flags and the record of executions by an execution or by its agent. -/
theorem cells_kept (hok : Ok d e m x site) {busy : ResourceId → Bool} {cells : Nat → Option (ExecutionCell F)}
    {executed : List (Nat × TaskId)}
    (hlater : Later site { site with busy, cells, executed })
    (hundisturbed : ∀ j, j ≠ i → Undisturbed j site { site with busy, cells, executed })
    (hcells : ∀ n cell, cells n = some cell → Spawned { site with busy, cells, executed } n cell)
    (hidle : ∀ r n cell, busy r = false → cells n = some cell → cell.agent = r → cell.finished = true)
    (hbusy : ∀ r, busy r = true → ∃ n cell, cells n = some cell ∧ cell.agent = r ∧ cell.finished = false)
    (halone : ∀ n n' cell cell', cells n = some cell → cells n' = some cell' → cell.agent = cell'.agent →
      cell.finished = false → cell'.finished = false → n = n')
    (hexecuted : ∀ n t, (n, t) ∈ executed → ∃ cell, cells n = some cell ∧ cell.assignment.lease.taskId = t)
    (honce : (executed.map Prod.fst).Nodup) : Kept d e m x i site { site with busy, cells, executed } := by
  refine ⟨?_, hlater, hundisturbed⟩
  exact {
    coordinator := hok.coordinator
    named := hok.named
    files := hok.files
    table := hok.table
    completed := fun t outputs ht => (hok.completed t outputs ht).later hlater
    requests := fun n exchange hx => (hok.requests n exchange hx).later hlater
    answers := fun n exchange turn result hx ha => (hok.answers n exchange turn result hx ha).later hlater
    turns := hok.turns
    cells := hcells
    idle := hidle
    busy := hbusy
    alone := halone
    executed := hexecuted
    once := honce
    probing := hok.probing }

omit [F64 F] in
theorem later_cells {busy : ResourceId → Bool} {cells : Nat → Option (ExecutionCell F)} {executed : List (Nat × TaskId)}
    (hcells : ∀ n cell, site.cells n = some cell → ∃ cell', cells n = some cell' ∧ cell'.agent = cell.agent ∧
      cell'.assignment = cell.assignment ∧ (cell.finished = true → cell'.finished = true))
    (hexecuted : site.executed ⊆ executed) : Later site { site with busy, cells, executed } where
  remembers := refl_of Remembers _
  log := List.prefix_refl _
  written := List.Subset.refl _
  files _ _ _ h := h
  exchanges _ exchange h := ⟨exchange.answer, h, fun _ h => h⟩
  cells := hcells
  executed := hexecuted

/-- An idle agent spawns the execution of an assignment that it was given. -/
theorem spawn_kept {r : ResourceId} {exchange : Nat} {assignment : WorkAssignment F} {epoch : UInt64} {turn : Nat}
    (hok : Ok d e m x site) (hbusy : site.busy r = false)
    (hx : site.exchanges[exchange]? =
      some ⟨.worker r, .pollWork r epoch, some (turn, .ok (.work (some assignment)))⟩)
    (hnone : site.cells exchange = none) : Kept d e m x (.worker r) site { site with
      busy := Function.update site.busy r true
      cells := Function.update site.cells exchange (some ⟨r, assignment, assignment.lease, false, false⟩) } := by
  have hcases : ∀ n cell, Function.update site.cells exchange (some ⟨r, assignment, assignment.lease, false, false⟩) n =
      some cell → n = exchange ∧ cell = ⟨r, assignment, assignment.lease, false, false⟩ ∨ site.cells n = some cell := by
    intro n cell hcell
    by_cases hn : n = exchange
    · subst hn
      rw [Function.update_self] at hcell
      exact .inl ⟨rfl, (Option.some.inj hcell).symm⟩
    · rw [Function.update_of_ne hn] at hcell
      exact .inr hcell
  have hlater : Later site { site with
      busy := Function.update site.busy r true
      cells := Function.update site.cells exchange (some ⟨r, assignment, assignment.lease, false, false⟩) } := by
    refine later_cells (fun n cell hcell => ⟨cell, ?_, rfl, rfl, id⟩) (List.Subset.refl _)
    have hn : n ≠ exchange := by
      rintro rfl
      rw [hnone] at hcell
      cases hcell
    rw [Function.update_of_ne hn]
    exact hcell
  have hfinished : ∀ n cell, site.cells n = some cell → cell.agent = r → cell.finished = true := fun n cell =>
    hok.idle r n cell hbusy
  refine cells_kept hok hlater (fun j hj => ?_) ?_ ?_ ?_ ?_ ?_ hok.once
  · cases j with
    | worker r' =>
      have hr : r' ≠ r := fun h => hj (by rw [h])
      refine ⟨fun h => (Function.update_of_ne hr _ _).trans h, fun n cell hcell hagent => ?_⟩
      rcases hcases n cell hcell with ⟨-, rfl⟩ | hold
      · exact absurd hagent.symm hr
      · exact ⟨cell, hold, hagent⟩
    | execution n =>
      refine ⟨fun cell hcell hf => ?_, fun _ h => h⟩
      rcases hcases n cell hcell with ⟨-, rfl⟩ | hold
      · cases hf
      · exact ⟨cell, hold, hf⟩
    | _ => trivial
  · intro n cell hcell
    rcases hcases n cell hcell with ⟨rfl, rfl⟩ | hold
    · exact ⟨⟨epoch, turn, hx⟩, ⟨rfl, rfl, rfl, rfl⟩⟩
    · exact (hok.cells n cell hold).later hlater rfl rfl (hok.cells n cell hold).owns
  · intro r' n cell hidle hcell hagent
    have hr : r' ≠ r := by
      rintro rfl
      rw [Function.update_self] at hidle
      cases hidle
    rw [Function.update_of_ne hr] at hidle
    rcases hcases n cell hcell with ⟨-, rfl⟩ | hold
    · exact absurd hagent.symm hr
    · exact hok.idle r' n cell hidle hold hagent
  · intro r' hbusy'
    by_cases hr : r' = r
    · exact ⟨exchange, _, by rw [Function.update_self], hr.symm, rfl⟩
    · rw [Function.update_of_ne hr] at hbusy'
      obtain ⟨n, cell, hcell, hagent, hf⟩ := hok.busy r' hbusy'
      have hn : n ≠ exchange := by
        rintro rfl
        rw [hnone] at hcell
        cases hcell
      exact ⟨n, cell, by rw [Function.update_of_ne hn]; exact hcell, hagent, hf⟩
  · intro n n' cell cell' hcell hcell' hagent hf hf'
    rcases hcases n cell hcell with ⟨rfl, rfl⟩ | hold
    · rcases hcases n' cell' hcell' with ⟨rfl, rfl⟩ | hold'
      · rfl
      · rw [hfinished n' cell' hold' hagent.symm] at hf'
        cases hf'
    · rcases hcases n' cell' hcell' with ⟨rfl, rfl⟩ | hold'
      · rw [hfinished n cell hold hagent] at hf
        cases hf
      · exact hok.alone n n' cell cell' hold hold' hagent hf hf'
  · intro n t ht
    obtain ⟨cell, hcell, htask⟩ := hok.executed n t ht
    obtain ⟨cell', hcell', -, hassignment, -⟩ := hlater.cells n cell hcell
    exact ⟨cell', hcell', by rw [hassignment]; exact htask⟩

omit [F64 F] in
theorem updateCell_cases {n n' : Nat} {f : ExecutionCell F → ExecutionCell F} {cell' : ExecutionCell F}
    (h : Function.update site.cells n ((site.cells n).map f) n' = some cell') :
    ∃ cell, site.cells n' = some cell ∧ (n' = n ∧ cell' = f cell ∨ n' ≠ n ∧ cell' = cell) := by
  by_cases hn : n' = n
  · subst hn
    rw [Function.update_self] at h
    obtain ⟨cell, hcell, rfl⟩ := Option.map_eq_some_iff.mp h
    exact ⟨cell, hcell, .inl ⟨rfl, rfl⟩⟩
  · rw [Function.update_of_ne hn] at h
    exact ⟨cell', h, .inr ⟨hn, rfl⟩⟩

omit [F64 F] in
theorem updateCell_some {n n' : Nat} {f : ExecutionCell F → ExecutionCell F} {cell : ExecutionCell F}
    (h : site.cells n' = some cell) :
    Function.update site.cells n ((site.cells n).map f) n' = some (if n' = n then f cell else cell) := by
  by_cases hn : n' = n
  · subst hn
    rw [Function.update_self, h, if_pos rfl]
    rfl
  · rw [Function.update_of_ne hn, h, if_neg hn]

/-- An execution or its renewal changes what they share; the lease stays one for the attempt. -/
theorem updateCell_kept {n : Nat} {f : ExecutionCell F → ExecutionCell F} (hok : Ok d e m x site)
    (hf : ∀ cell, (f cell).agent = cell.agent ∧ (f cell).assignment = cell.assignment ∧ (f cell).finished = cell.finished)
    (howns : ∀ cell, site.cells n = some cell → (f cell).Owns (f cell).leaseState) :
    Kept d e m x i site (site.updateCell n f) ∧ ∀ j, Undisturbed j site (site.updateCell n f) := by
  have hlater : Later site (site.updateCell n f) := by
    refine later_cells (fun n' cell hcell => ⟨_, updateCell_some hcell, ?_⟩) (List.Subset.refl _)
    obtain ⟨hagent, hassignment, hfinished⟩ := hf cell
    split
    · exact ⟨hagent, hassignment, fun h => hfinished.trans h⟩
    · exact ⟨rfl, rfl, id⟩
  have same : ∀ n' cell', (site.updateCell n f).cells n' = some cell' → ∃ cell, site.cells n' = some cell ∧
      cell'.agent = cell.agent ∧ cell'.assignment = cell.assignment ∧ cell'.finished = cell.finished := by
    intro n' cell' hcell'
    obtain ⟨cell, hcell, ⟨-, rfl⟩ | ⟨-, rfl⟩⟩ := updateCell_cases hcell'
    · exact ⟨cell, hcell, hf cell⟩
    · exact ⟨cell', hcell, rfl, rfl, rfl⟩
  have hundisturbed : ∀ j, Undisturbed j site (site.updateCell n f) := by
    intro j
    cases j with
    | worker r =>
      refine ⟨id, fun n' cell' hcell' hr => ?_⟩
      obtain ⟨cell, hcell, hagent, -⟩ := same n' cell' hcell'
      exact ⟨cell, hcell, hagent.symm.trans hr⟩
    | execution n' =>
      refine ⟨fun cell' hcell' hfin => ?_, fun _ h => h⟩
      obtain ⟨cell, hcell, -, -, hfinished⟩ := same n' cell' hcell'
      exact ⟨cell, hcell, hfinished ▸ hfin⟩
    | _ => trivial
  refine ⟨cells_kept hok hlater (fun j _ => hundisturbed j) ?_ ?_ ?_ ?_ ?_ hok.once, hundisturbed⟩
  · intro n' cell' hcell'
    obtain ⟨cell, hcell, ⟨rfl, rfl⟩ | ⟨-, rfl⟩⟩ := updateCell_cases hcell'
    · exact (hok.cells n' cell hcell).later hlater (hf cell).1 (hf cell).2.1 (howns cell hcell)
    · exact (hok.cells n' cell' hcell).later hlater rfl rfl (hok.cells n' cell' hcell).owns
  · intro r n' cell' hidle hcell' hagent
    obtain ⟨cell, hcell, hagent', -, hfinished⟩ := same n' cell' hcell'
    exact hfinished.trans (hok.idle r n' cell hidle hcell (hagent'.symm.trans hagent))
  · intro r hbusy
    obtain ⟨n', cell, hcell, hagent, hfin⟩ := hok.busy r hbusy
    refine ⟨n', _, updateCell_some hcell, ?_⟩
    split
    · exact ⟨(hf cell).1.trans hagent, (hf cell).2.2.trans hfin⟩
    · exact ⟨hagent, hfin⟩
  · intro n' n'' cell cell' hcell hcell' hagent hfin hfin'
    obtain ⟨old, hold, hagent₁, -, hfinished₁⟩ := same n' cell hcell
    obtain ⟨old', hold', hagent₂, -, hfinished₂⟩ := same n'' cell' hcell'
    exact hok.alone n' n'' old old' hold hold' (hagent₁.symm.trans (hagent.trans hagent₂)) (hfinished₁.symm.trans hfin)
      (hfinished₂.symm.trans hfin')
  · intro n' t ht
    obtain ⟨cell, hcell, htask⟩ := hok.executed n' t ht
    obtain ⟨cell', hcell', -, hassignment, -⟩ := hlater.cells n' cell hcell
    exact ⟨cell', hcell', by rw [hassignment]; exact htask⟩

/-- An execution that is under way finishes, and its agent is idle again. -/
theorem clearBusy_kept {n : Nat} {cell : ExecutionCell F} (hok : Ok d e m x site) (hcell : site.cells n = some cell)
    (hrunning : cell.finished = false) : Kept d e m x (.execution n) site
      { site.updateCell n (fun cell => { cell with finished := true }) with
        busy := Function.update site.busy cell.agent false } := by
  have hlater : Later site { site.updateCell n (fun cell => { cell with finished := true }) with
      busy := Function.update site.busy cell.agent false } := by
    refine later_cells (fun n' cell hcell => ⟨_, updateCell_some hcell, ?_⟩) (List.Subset.refl _)
    split
    · exact ⟨rfl, rfl, fun _ => rfl⟩
    · exact ⟨rfl, rfl, id⟩
  refine cells_kept hok hlater (fun j hj => ?_) ?_ ?_ ?_ ?_ ?_ hok.once
  · cases j with
    | worker r =>
      refine ⟨fun h => ?_, fun n' cell' hcell' hagent => ?_⟩
      · show Function.update site.busy cell.agent false r = false
        by_cases hr : r = cell.agent
        · rw [hr, Function.update_self]
        · rw [Function.update_of_ne hr]
          exact h
      · obtain ⟨old, hold, ⟨-, rfl⟩ | ⟨-, rfl⟩⟩ := updateCell_cases hcell'
        · exact ⟨old, hold, hagent⟩
        · exact ⟨cell', hold, hagent⟩
    | execution n' =>
      refine ⟨fun cell' hcell' hf => ?_, fun _ h => h⟩
      obtain ⟨old, hold, ⟨rfl, -⟩ | ⟨-, rfl⟩⟩ := updateCell_cases hcell'
      · exact absurd rfl hj
      · exact ⟨cell', hold, hf⟩
    | _ => trivial
  · intro n' cell' hcell'
    obtain ⟨old, hold, ⟨rfl, rfl⟩ | ⟨-, rfl⟩⟩ := updateCell_cases hcell'
    · exact (hok.cells n' old hold).later hlater rfl rfl ⟨(hok.cells n' old hold).owns.task, (hok.cells n' old hold).owns.attempt⟩
    · exact (hok.cells n' cell' hold).later hlater rfl rfl (hok.cells n' cell' hold).owns
  · intro r n' cell' hidle hcell' hagent
    obtain ⟨old, hold, ⟨rfl, rfl⟩ | ⟨hn, rfl⟩⟩ := updateCell_cases hcell'
    · rfl
    · by_cases hr : r = cell.agent
      · -- the other executions of this agent had finished before
        by_contra hf
        rw [Bool.not_eq_true] at hf
        exact hn (hok.alone n' n cell' cell hold hcell (hagent.trans hr) hf hrunning)
      · rw [Function.update_of_ne hr] at hidle
        exact hok.idle r n' cell' hidle hold hagent
  · intro r hbusy
    have hr : r ≠ cell.agent := by
      rintro rfl
      rw [Function.update_self] at hbusy
      cases hbusy
    rw [Function.update_of_ne hr] at hbusy
    obtain ⟨n', cell', hcell', hagent, hf⟩ := hok.busy r hbusy
    have hn : n' ≠ n := by
      rintro rfl
      rw [hcell] at hcell'
      cases hcell'
      exact hr hagent.symm
    exact ⟨n', cell', (Function.update_of_ne hn _ _).trans hcell', hagent, hf⟩
  · intro n' n'' cell₁ cell₂ hcell₁ hcell₂ hagent hf hf'
    obtain ⟨old, hold, ⟨-, rfl⟩ | ⟨-, rfl⟩⟩ := updateCell_cases hcell₁
    · cases hf
    · obtain ⟨old', hold', ⟨-, rfl⟩ | ⟨-, rfl⟩⟩ := updateCell_cases hcell₂
      · cases hf'
      · exact hok.alone n' n'' cell₁ cell₂ hold hold' hagent hf hf'
  · intro n' t ht
    obtain ⟨old, hold, htask⟩ := hok.executed n' t ht
    obtain ⟨cell', hcell', -, hassignment, -⟩ := hlater.cells n' old hold
    exact ⟨cell', hcell', by rw [hassignment]; exact htask⟩

/-- An execution executes its task for the first time. -/
theorem execute_kept {n : Nat} {cell : ExecutionCell F} (hok : Ok d e m x site) (hcell : site.cells n = some cell)
    (hfirst : ∀ t, (n, t) ∉ site.executed) : Kept d e m x (.execution n) site
      { site with executed := (n, cell.assignment.task.id) :: site.executed } := by
  have htask : cell.assignment.task.id = cell.assignment.lease.taskId := hok.named.specs _ _ (hok.assigned hcell).task
  have hlater : Later site { site with executed := (n, cell.assignment.task.id) :: site.executed } :=
    later_cells (fun n cell hcell => ⟨cell, hcell, rfl, rfl, id⟩) (List.subset_cons_self ..)
  refine cells_kept hok hlater (fun j hj => ?_) (fun n cell hcell => ?_) hok.idle hok.busy hok.alone ?_ ?_
  · cases j with
    | worker r => exact ⟨id, fun n cell hcell hr => ⟨cell, hcell, hr⟩⟩
    | execution n' =>
      refine ⟨fun cell hcell hf => ⟨cell, hcell, hf⟩, fun t ht => ?_⟩
      rcases List.mem_cons.mp ht with heq | ht
      · cases heq
        exact absurd rfl hj
      · exact ht
    | _ => trivial
  · exact (hok.cells n cell hcell).later hlater rfl rfl (hok.cells n cell hcell).owns
  · intro n' t ht
    rcases List.mem_cons.mp ht with heq | ht
    · cases heq
      exact ⟨cell, hcell, htask.symm⟩
    · exact hok.executed n' t ht
  · refine List.nodup_cons.mpr ⟨fun hmem => ?_, hok.once⟩
    obtain ⟨entry, hentry, hfst⟩ := List.mem_map.mp hmem
    obtain ⟨n', t⟩ := entry
    cases hfst
    exact hfirst t hentry

/-! ## What is read -/

/-- What an agent reads from its store is the blob that was stored. -/
theorem get_content (hok : Ok d e m x site) (hsane : Sane d.sha site) {r : ResourceId} {b bytes : Bytes}
    (hb : b ∈ site.written) (h : (site.storeOf d r).get d.sha (d.sha.digest b) = .ok bytes) : bytes = b := by
  obtain ⟨hdigest, path, hfile⟩ := get_ok h
  obtain ⟨b', hb', hcontent, -⟩ := hok.files _ path _ hfile
  cases hcontent
  exact hsane.digest_inj hb' hb hdigest

/-- What an agent answers to a request for a range is the range. -/
theorem fetch_range (hok : Ok d e m x site) (hsane : Sane d.sha site) {b bytes : Bytes} (hb : b ∈ site.written)
    {endpoint : String} {offset stop : UInt64} (hlt : offset < stop) (hstop : stop.toNat ≤ b.length) {response : Response}
    (h : site.fetch d chance s!"{endpoint}/v1/blobs/{d.sha.hex b}" (some s!"bytes={offset}-{stop - 1}") = .ok response)
    (hstatus : response.status = 206) (hbody : response.body = .ok bytes) :
    bytes = subslice b offset.toNat stop.toNat := by
  unfold fetch at h
  rw [splitBlobUrl_url (slash_not_mem_hex b)] at h
  cases htransport : chance.transport with
  | error error =>
    rw [htransport] at h
    cases h
  | ok u =>
    rw [htransport] at h
    dsimp only at h
    cases hagent : d.agentAt endpoint with
    | none =>
      rw [hagent] at h
      cases h
    | some r =>
      rw [hagent] at h
      dsimp only at h
      have hserved : (intoResponse (getBlob d.sha (site.storeOf d r) (d.sha.hex b)
          (some s!"bytes={offset}-{stop - 1}"))).status = 206 ∧
          (intoResponse (getBlob d.sha (site.storeOf d r) (d.sha.hex b)
            (some s!"bytes={offset}-{stop - 1}"))).body = .ok bytes := by
        cases hcarried : chance.body with
        | ok u =>
          rw [hcarried] at h
          cases h
          exact ⟨hstatus, hbody⟩
        | error error =>
          rw [hcarried] at h
          cases h
          cases hbody
      obtain ⟨hstatus', hbody'⟩ := hserved
      unfold getBlob at hstatus' hbody'
      have hdigest : (s!"sha256:{d.sha.hex b}" : String) = d.sha.digest b := rfl
      rw [hdigest] at hstatus' hbody'
      cases hget : (site.storeOf d r).get d.sha (d.sha.digest b) with
      | error error =>
        rw [hget] at hstatus'
        cases error with
        | notFound =>
          have hother : (404 : Nat) = 206 := hstatus'
          exact absurd hother (by decide)
        | io | unsupportedDigest | digestMismatch =>
          have hother : (500 : Nat) = 206 := hstatus'
          exact absurd hother (by decide)
      | ok content =>
        obtain rfl := get_content hok hsane hb hget
        rw [hget] at hbody'
        dsimp only at hbody'
        rw [parseByteRange_header hlt hstop] at hbody'
        cases hbody'
        rfl

end Site

end Plurifold
