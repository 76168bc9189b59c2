import Plurifold.System.Routines

/-!
# Executions are sound

An execution reads what it is assigned, executes it once, and reports the output of its task under the lease of its attempt.
It does not panic (`spawned_safely`): what an agent reads from its store is as long as the table says, so no range of it
ends too late. Its renewal keeps to the same attempt.
-/

namespace Plurifold

open Lib Attempt Fabric CoordinatorState Threads Site

variable {F : Type} {d : Deployment F} {e ids : Env} {m x : UInt64} {i : Party} {site s s' : Site F} {α β : Type}
  {n : Nat} {r : ResourceId} {a : WorkAssignment F} {o : ObjectId} {b : Bytes} {input : ResolvedObject}
  {range : Option (UInt64 × UInt64)}

/-! ## The execution of an assignment -/

namespace Site

/-- Execution `n` is agent `r`'s, of the assignment `a`. -/
def Executing (site : Site F) (n : Nat) (r : ResourceId) (a : WorkAssignment F) : Prop :=
  ∃ cell, site.cells n = some cell ∧ cell.agent = r ∧ cell.assignment = a

theorem Executing.later (h : site.Executing n r a) (hlater : Later site s) : s.Executing n r a := by
  obtain ⟨cell, hcell, hagent, hassignment⟩ := h
  obtain ⟨cell', hcell', hagent', hassignment', -⟩ := hlater.cells n cell hcell
  exact ⟨cell', hcell', hagent'.trans hagent, hassignment'.trans hassignment⟩

/-- The execution is under way. -/
def Unfinished (site : Site F) (n : Nat) : Prop := ∀ cell, site.cells n = some cell → cell.finished = false

theorem Unfinished.since (h : site.Unfinished n) (hsince : Since (.execution n) site s) : s.Unfinished n := by
  intro cell hcell
  by_contra hf
  rw [Bool.not_eq_false] at hf
  obtain ⟨old, hold, hfinished⟩ := hsince.undisturbed.1 cell hcell hf
  rw [h old hold] at hfinished
  cases hfinished

/-- The task has not been executed. -/
def Unexecuted (site : Site F) (n : Nat) : Prop := ∀ t, (n, t) ∉ site.executed

theorem Unexecuted.since (h : site.Unexecuted n) (hsince : Since (.execution n) site s) : s.Unexecuted n := fun t ht =>
  h t (hsince.undisturbed.2 t ht)

theorem onAgent_execution (h : site.Executing n r a) (f : ResourceId → α × Site F) :
    site.onAgent (.execution n) f = some (f r) := by
  obtain ⟨cell, hcell, rfl, -⟩ := h
  simp [onAgent, agentOf, hcell]

theorem onCell_execution {cell : ExecutionCell F} (h : site.cells n = some cell) (f : Nat → ExecutionCell F → α × Site F) :
    site.onCell (.execution n) f = some (f n cell) := by
  simp [onCell, cellOf, h]

theorem onCell_renewal {cell : ExecutionCell F} (h : site.cells n = some cell) (f : Nat → ExecutionCell F → α × Site F) :
    site.onCell (.renewal n) f = some (f n cell) := by
  simp [onCell, cellOf, h]

end Site

/-! ## Reading an input -/

variable [F64 F]

/-- The replicas of a blob, by their URLs. -/
def Serving (sha : Sha256) (b : Bytes) (replicas : List ObjectReplica) : Prop :=
  ∀ replica ∈ replicas, ∃ endpoint : String, replica.url = s!"{endpoint}/v1/blobs/{sha.hex b}"

/-- **A range that replicas answer is the range of the blob.** -/
theorem fetchRange_quietly {offset stop length : UInt64} (hlt : offset < stop) (hstop : stop.toNat ≤ b.length) :
    ∀ (replicas : List ObjectReplica) (lastError : String) {site : Site F}, Serving d.sha b replicas → b ∈ site.written →
      Quietly d e ids m x i (fun res _ => (∀ bytes, res = .ok bytes → bytes = subslice b offset.toNat stop.toNat) ∧
        res ≠ .error .panic) (Agent.fetchRange d.sha d.showStatus offset stop length replicas lastError) site
  | [], lastError, site, _, _ => Quietly.fail fun _ _ _ _ => ⟨fun bytes h => (by cases h), fun h => (by cases h)⟩
  | replica :: rest, lastError, site, hserving, hb => by
    have skip : ∀ {s : Site F} (error : String), Since i site s → Quietly d e ids m x i
        (fun res _ => (∀ bytes, res = .ok bytes → bytes = subslice b offset.toNat stop.toNat) ∧ res ≠ .error .panic)
        (Agent.fetchRange d.sha d.showStatus offset stop length rest error) s := fun error hsince =>
      fetchRange_quietly hlt hstop rest error (fun replica' hmem => hserving replica' (List.mem_cons_of_mem _ hmem))
        (hsince.later.written hb)
    rw [Agent.fetchRange]
    refine Quietly.look trivial fun s hok hsane hsince chance answer hfetch => ?_
    cases answer with
    | error error => exact skip error hsince
    | ok response =>
      dsimp only
      split
      · exact skip _ hsince
      rename_i hstatus
      split
      · exact skip _ hsince
      split
      · exact Quietly.fail fun _ _ _ _ => ⟨fun bytes h => (by cases h), fun h => (by cases h)⟩
      rename_i bytes hbody
      split
      · exact skip _ hsince
      split
      · exact skip _ hsince
      · obtain ⟨endpoint, hurl⟩ := hserving replica (List.mem_cons_self ..)
        have hfetched : s.fetch d chance replica.url (some s!"bytes={offset}-{stop - 1}") = .ok response :=
          (Prod.mk.inj (Option.some.inj hfetch)).1
        rw [hurl] at hfetched
        refine Quietly.pure fun _ _ _ _ => ⟨fun bytes' h => ?_, fun h => (by cases h)⟩
        cases h
        exact fetch_range hok hsane (hsince.later.written hb) hlt hstop hfetched (not_not.mp hstatus) hbody

/-- **A blob that an agent fetches is the content of the object**, and the agent holds it then. -/
theorem fetchBlob_quietly : ∀ (replicas : List ObjectReplica) (lastError : String) {site : Site F},
    site.Executing n r a → site.Contents d o b →
      Quietly d e ids m x (.execution n) (fun res _ => (∀ bytes, res = .ok bytes → bytes = b) ∧ res ≠ .error .panic)
        (Agent.fetchBlob d.showStatus r o (d.sha.digest b) replicas lastError) site
  | [], lastError, site, _, _ => Quietly.fail fun _ _ _ _ => ⟨fun bytes h => (by cases h), fun h => (by cases h)⟩
  | replica :: rest, lastError, site, hexec, hcontents => by
    have skip : ∀ {s : Site F} (error : String), Since (.execution n) site s → Quietly d e ids m x (.execution n)
        (fun res _ => (∀ bytes, res = .ok bytes → bytes = b) ∧ res ≠ .error .panic)
        (Agent.fetchBlob d.showStatus r o (d.sha.digest b) rest error) s := fun error hsince =>
      fetchBlob_quietly rest error (hexec.later hsince.later) (hcontents.later hsince.later)
    rw [Agent.fetchBlob]
    refine Quietly.look trivial fun s hok hsane hsince chance answer hfetch => ?_
    cases answer with
    | error error => exact skip error hsince
    | ok response =>
      dsimp only
      split
      · exact skip _ hsince
      split
      · exact Quietly.fail fun _ _ _ _ => ⟨fun bytes h => (by cases h), fun h => (by cases h)⟩
      rename_i bytes hbody
      refine Quietly.ask fun s₁ hok₁ hsane₁ hsince₁ chance₁ answer₁ s₂ hput => ?_
      have hexec₁ := hexec.later (hsince.trans hsince₁).later
      have hanswer : s₁.onAgent (.execution n) (fun r => s₁.putBlob d chance₁.disk r bytes) = some (answer₁, s₂) := hput
      rw [onAgent_execution hexec₁] at hanswer
      obtain ⟨hkept, hundisturbed, hstored⟩ := putBlob_kept hok₁ (Option.some.inj hanswer)
      refine ⟨⟨hkept, hundisturbed⟩, fun hok₂ hsane₂ hsince₂ => ?_⟩
      have hsince' := hsince.trans hsince₂
      cases answer₁ with
      | error error => exact Quietly.fail fun _ _ _ _ => ⟨fun bytes h => (by cases h), fun h => (by cases h)⟩
      | ok stored =>
        obtain ⟨hdigest, hwritten, hcontains⟩ := hstored stored rfl
        dsimp only
        split
        · exact skip _ hsince'
        rename_i hsame
        rw [ne_eq, not_not] at hsame
        have hcontents₂ := hcontents.later hsince'.later
        have hbytes : bytes = b := hsane₂.digest_inj hwritten hcontents₂.written (hdigest.symm.trans hsame)
        obtain ⟨cell, hcell, hagent, -⟩ := hexec.later hsince'.later
        obtain ⟨known, hknown, hdescribes⟩ := hcontents₂.known
        have hentitled : s₂.Entitled d (.execution n) (.registerReplica o r) := by
          refine ⟨⟨n, cell, rfl, hcell, hagent⟩, known, hknown, fun digest hdig => ?_⟩
          rw [hdescribes.digest] at hdig
          cases hdig
          rw [← hsame]
          exact hcontains
        refine post_bind_quietly hok₂ hentitled fun s₃ hok₃ hsane₃ hsince₃ reception hanswers => ?_
        refine Quietly.bind hok₃ (orFail_quietly (Q := fun res _ => res ≠ .error .panic) (fun _ _ _ _ _ _ h => (by cases h))
          fun _ _ _ _ _ h => (by cases h)) (fun _ _ _ _ _ _ => Quietly.pure fun _ _ _ _ => ?_) fun error _ _ _ herror => ?_
        · exact ⟨fun bytes' h => (by cases h; exact hbytes), fun h => (by cases h)⟩
        · exact ⟨fun bytes' h => (by cases h), fun h => herror (by cases h; rfl)⟩

/-- What a resolved input says is the content of the object, and how to ask for it. -/
theorem Resolves.contents (hok : Ok d e m x site) (h : Resolves site.coordinator.fabric o input) :
    ∃ b, site.Contents d o b ∧ Describes d.sha input.metadata b ∧ Serving d.sha b input.replicas := by
  obtain ⟨-, hknown, digest, hnames⟩ := h
  obtain ⟨object, hobject, hidentity⟩ := Option.map_eq_some_iff.mp hknown
  obtain ⟨-, hlists⟩ := hok.table o object hobject
  obtain ⟨b, hb, hdescribes⟩ := hlists.known
  rw [hidentity] at hdescribes
  refine ⟨b, ⟨hb, input.metadata.identity, hknown, hdescribes⟩, ⟨hdescribes.digest, hdescribes.size⟩, fun replica hmem => ?_⟩
  obtain ⟨suffix, hsuffix, hurls⟩ := hnames.urls
  have hdigest : digest = d.sha.digest b := Option.some.inj (hnames.names.symm.trans hdescribes.digest)
  have hhex : stripLeading "sha256:" (d.sha.digest b) = some (d.sha.hex b) := stripLeading_append _ _
  rw [hdigest, hhex] at hsuffix
  rw [Option.some.inj hsuffix]
  exact hurls replica hmem

/-- **What an execution reads is what the object contains.** -/
theorem materializeInput_quietly (hok : Ok d e m x site) (hsane : Sane d.sha site) (hexec : site.Executing n r a)
    (hresolves : Resolves site.coordinator.fabric o input) : Quietly d e ids m x (.execution n)
    (fun res s => (∀ bytes, res = .ok bytes → ∃ b, s.Contents d o b ∧ ReadsAs b range bytes) ∧ res ≠ .error .panic)
    (Agent.materializeInput d.sha d.showStatus r input range) site := by
  obtain ⟨b, hcontents, hdescribes, hserving⟩ := hresolves.contents hok
  have hsize : input.metadata.sizeBytes.toNat = b.length := by
    rw [hdescribes.size]
    exact UInt64.toNat_ofNat_of_lt' (hsane.sizes b hcontents.written)
  have hid : input.metadata.id = o := hresolves.1
  have refuse : ∀ {s : Site F} {error : String}, Quietly d e ids m x (.execution n)
      (fun res s => (∀ bytes, res = .ok bytes → ∃ b, s.Contents d o b ∧ ReadsAs b range bytes) ∧ res ≠ .error .panic)
      (.fail (.error error) : Routine F Bytes) s := fun {_ _} =>
    Quietly.fail fun _ _ _ _ => ⟨fun bytes h => (by cases h), fun h => (by cases h)⟩
  have reads : ∀ {s : Site F} {bytes : Bytes}, Since (.execution n) site s → ReadsAs b range bytes →
      Quietly d e ids m x (.execution n)
        (fun res s => (∀ bytes, res = .ok bytes → ∃ b, s.Contents d o b ∧ ReadsAs b range bytes) ∧ res ≠ .error .panic)
        (pure bytes : Routine F Bytes) s := fun {_ _} hsince hreads =>
    Quietly.pure fun _ _ _ hsince' => ⟨fun bytes h => by
      cases h
      exact ⟨b, hcontents.later (hsince.trans hsince').later, hreads⟩, fun h => (by cases h)⟩
  -- reading from the own store gives the blob
  have stored : ∀ {s s' : Site F} {chance : Chance F} {bytes : Bytes}, Ok d e m x s → Sane d.sha s → Since (.execution n) site s →
      Site.answer d e ids (.execution n) chance (.get (d.sha.digest b)) s = some (.ok bytes, s') → bytes = b := by
    intro s s' chance bytes hok hsane hsince hget
    have hanswer : s.onAgent (.execution n) (fun r => ((s.storeOf d r).get d.sha (d.sha.digest b), s)) = some (.ok bytes, s') :=
      hget
    rw [onAgent_execution (hexec.later hsince.later)] at hanswer
    exact get_content hok hsane (hsince.later.written hcontents.written) (Prod.mk.inj (Option.some.inj hanswer)).1
  unfold Agent.materializeInput
  rw [hdescribes.digest]
  dsimp only
  cases hrange : normalizeRange input.metadata.sizeBytes range with
  | none =>
    have hwhole : ReadsAs b range b := by
      refine ⟨(requested_of_whole hsize hrange).symm, fun offset length hsome => ?_⟩
      by_contra hle
      have hproper : ¬(offset = 0 ∧ length = input.metadata.sizeBytes) := by
        rintro ⟨rfl, rfl⟩
        rw [hsize] at hle
        exact hle (by simp)
      rw [normalizeRange_eq_some.mpr ⟨hsome, hproper⟩] at hrange
      cases hrange
    dsimp only
    refine Quietly.look trivial fun s hok hsane hsince chance there hcontains => ?_
    cases there with
    | true =>
      refine Quietly.look trivial fun s₂ hok₂ hsane₂ hsince₂ chance₂ content hget => ?_
      cases content with
      | error error => exact refuse
      | ok bytes =>
        obtain rfl := stored hok₂ hsane₂ (hsince.trans hsince₂) hget
        exact reads (hsince.trans hsince₂) hwhole
    | false =>
      rw [hid]
      refine (fetchBlob_quietly input.replicas _ (hexec.later hsince.later) (hcontents.later hsince.later)).mono
        fun res s' _ _ hsince' hpost => ⟨fun bytes h => ?_, hpost.2⟩
      rw [hpost.1 bytes h]
      exact ⟨b, hcontents.later (hsince.trans hsince').later, hwhole⟩
  | some part =>
    obtain ⟨offset, length⟩ := part
    obtain ⟨hsome, -⟩ := normalizeRange_eq_some.mp hrange
    dsimp only
    split
    · exact refuse
    rename_i hoverflow
    split
    · exact refuse
    rename_i hsizes
    have hstop : (offset + length).toNat = offset.toNat + length.toNat := by
      rw [UInt64.toNat_add]
      exact Nat.mod_eq_of_lt (Nat.not_le.mp hoverflow)
    have hinside : offset.toNat + length.toNat ≤ b.length := by
      rw [UInt64.lt_iff_toNat_lt, hstop, hsize] at hsizes
      exact Nat.not_lt.mp hsizes
    have hpart : ReadsAs b range (subslice b offset.toNat (offset + length).toNat) := by
      refine ⟨?_, fun offset' length' hsome' => ?_⟩
      · rw [hsome, requested, slice, subslice, hstop, Nat.add_sub_cancel_left]
      · rw [hsome] at hsome'
        cases hsome'
        exact hinside
    split
    · rename_i hempty
      have hnothing : subslice b offset.toNat (offset + length).toNat = [] := by
        rw [hempty, UInt64.add_zero, subslice, Nat.sub_self, List.take_zero]
      rw [hnothing] at hpart
      exact reads (.refl _ _) hpart
    rename_i hlength
    refine Quietly.look trivial fun s hok hsane hsince chance there hcontains => ?_
    cases there with
    | true =>
      refine Quietly.look trivial fun s₂ hok₂ hsane₂ hsince₂ chance₂ content hget => ?_
      cases content with
      | error error => exact refuse
      | ok bytes =>
        obtain rfl := stored hok₂ hsane₂ (hsince.trans hsince₂) hget
        dsimp only
        rw [if_neg (by rw [hstop]; exact Nat.not_lt.mpr hinside)]
        exact reads (hsince.trans hsince₂) hpart
    | false =>
      have hlt : offset < offset + length := by
        rw [UInt64.lt_iff_toNat_lt, hstop]
        exact Nat.lt_add_of_pos_right (UInt64.lt_iff_toNat_lt.mp (UInt64.pos_iff_ne_zero.mpr hlength))
      refine (fetchRange_quietly hlt (by rw [hstop]; exact hinside) input.replicas _ hserving
        (hsince.later.written hcontents.written)).mono fun res s' _ _ hsince' hpost => ⟨fun bytes h => ?_, hpost.2⟩
      rw [hpost.1 bytes h]
      exact ⟨b, hcontents.later (hsince.trans hsince').later, hpart⟩

/-- The inputs of a task from position `i` on. -/
theorem materializeInputs_quietly {task : TaskSpec F} : ∀ {objects : List ObjectId} {inputs : List ResolvedObject} {i : Nat}
    {site : Site F}, Ok d e m x site → Sane d.sha site → site.Executing n r a →
      List.Forall₂ (Resolves site.coordinator.fabric) objects inputs → Quietly d e ids m x (.execution n)
        (fun res s => (∀ read, res = .ok read → List.Forall₂ (fun entry bytes => ∃ b, s.Contents d entry.1 b ∧
          ReadsAs b (task.inputByteRange entry.2) bytes) (objects.zipIdx i) read) ∧ res ≠ .error .panic)
        (Agent.materializeInputs d.sha d.showStatus r task i inputs) site
  | _, _, i, site, _, _, _, .nil =>
    Quietly.pure fun _ _ _ _ => ⟨fun read h => (by cases h; exact .nil), fun h => (by cases h)⟩
  | _, _, i, site, hok, hsane, hexec, .cons hfirst hrest => by
    refine Quietly.bind hok (materializeInput_quietly hok hsane hexec hfirst) (fun bytes s hok hsane hsince hpost => ?_)
      fun error s hok hsane hpost => ⟨fun read h => (by cases h), fun h => hpost.2 (by cases h; rfl)⟩
    refine Quietly.bind hok (materializeInputs_quietly hok hsane (hexec.later hsince.later)
      (hrest.imp fun _ _ h => ⟨h.1, hsince.later.remembers.identities _ _ h.2.1, h.2.2⟩))
      (fun others s' hok' hsane' hsince' hpost' => ?_)
      fun error s hok hsane hpost => ⟨fun read h => (by cases h), fun h => hpost.2 (by cases h; rfl)⟩
    refine Quietly.pure fun s'' _ _ hsince'' => ⟨fun read h => ?_, fun h => (by cases h)⟩
    cases h
    obtain ⟨b, hcontents, hreads⟩ := hpost.1 bytes rfl
    refine .cons ⟨b, hcontents.later (hsince'.trans hsince'').later, hreads⟩ ((hpost'.1 others rfl).imp fun entry bytes h => ?_)
    obtain ⟨b, hcontents, hreads⟩ := h
    exact ⟨b, hcontents.later hsince''.later, hreads⟩

/-! ## The leased task -/

/-- The result of an execution: an object that may be reported as the output of the task. -/
structure Site.Outcome (d : Deployment F) (s : Site F) (n : Nat) (res : Except Abort ObjectMetadata) : Prop where
  unfinished : s.Unfinished n
  reports : ∀ object, res = .ok object → ∃ cell, s.cells n = some cell ∧ s.Reports d cell [object]
  returns : res ≠ .error .panic

/-- **An execution computes the output of its task**, and does so once. -/
theorem workResult_safely (hok : Ok d e m x site) (hsane : Sane d.sha site) (hexec : site.Executing n r a)
    (hunfinished : site.Unfinished n) (hunexecuted : site.Unexecuted n) : Safely d e ids m x (.execution n)
    (fun res s => Later site s ∧ s.Outcome d n res) (Agent.workResult d.sha d.showStatus r a) site := by
  have hassigned : HandedTo site.coordinator.fabric r a := by
    obtain ⟨cell, hcell, rfl, rfl⟩ := hexec
    exact hok.assigned hcell
  refine Safely.bind hok (materializeInputs_quietly hok hsane hexec hassigned.inputs)
    (fun inputs s₁ hok₁ hsane₁ hpost => ?_)
    fun error s _ _ hpost => ⟨hpost.1.later, hunfinished.since hpost.1, fun _ h => (by cases h), fun h => hpost.2.2 (by cases h; rfl)⟩
  obtain ⟨hsince₁, hread, -⟩ := hpost
  refine Safely.ask fun s₂ hok₂ hsane₂ hsince₂ chance₂ result s₃ hexecute => ?_
  have hsince₂' := hsince₁.trans hsince₂
  obtain ⟨cell, hcell, hagent, hassignment⟩ := hexec.later hsince₂'.later
  have hanswer : s₂.onCell (.execution n) (fun n cell => (executeTaskWithPolicy (d.executor cell.agent) a.task inputs,
      { s₂ with executed := (n, a.task.id) :: s₂.executed })) = some (result, s₃) := hexecute
  rw [onCell_execution hcell] at hanswer
  obtain ⟨hresult, hs₃⟩ := Prod.mk.inj (Option.some.inj hanswer)
  rw [hagent] at hresult
  have hkept := execute_kept hok₂ hcell (hunexecuted.since hsince₂')
  rw [hassignment, hs₃] at hkept
  refine ⟨hkept, fun hsane₃ => ?_⟩
  have hunfinished₃ : s₃.Unfinished n := by
    rw [← hs₃]
    have hbefore : s₂.Unfinished n := hunfinished.since hsince₂'
    exact hbefore
  have hlater₃ : Later site s₃ := trans_of Later hsince₂'.later hkept.later
  cases result with
  | error error =>
    exact Safely.fail fun s _ _ hsince => ⟨trans_of Later hlater₃ hsince.later, hunfinished₃.since hsince,
      fun _ h => (by cases h), fun h => (by cases h)⟩
  | ok output =>
    -- the output is what the task gives on the contents of its inputs
    have hproduces : s₃.Produces d r a.task output := by
      refine ⟨inputs, (hread inputs rfl).imp fun entry bytes h => ?_, hresult⟩
      obtain ⟨b, hcontents, hreads⟩ := h
      exact ⟨b, hcontents.later (trans_of Later hsince₂.later hkept.later), hreads⟩
    have hexec₃ := hexec.later hlater₃
    refine Safely.mono (M := fun res s => Since (.execution n) s₃ s ∧ (∀ object, res = .ok object →
      ∃ cell, s.cells n = some cell ∧ s.Reports d cell [object]) ∧ res ≠ .error .panic) ?_
      fun res s _ _ hpost => ⟨trans_of Later hlater₃ hpost.1.later, hunfinished₃.since hpost.1, hpost.2.1, hpost.2.2⟩
    refine Quietly.ask fun s₄ hok₄ hsane₄ hsince₄ chance₄ stored s₅ hput => ?_
    have hanswer : s₄.onAgent (.execution n) (fun r => s₄.putBlob d chance₄.disk r output) = some (stored, s₅) := hput
    rw [onAgent_execution (hexec₃.later hsince₄.later)] at hanswer
    obtain ⟨hkept₅, hundisturbed₅, hstored⟩ := putBlob_kept hok₄ (Option.some.inj hanswer)
    refine ⟨⟨hkept₅, hundisturbed₅⟩, fun hok₅ hsane₅ hsince₅ => ?_⟩
    cases stored with
    | error error => exact Quietly.fail fun _ _ _ _ => ⟨fun _ h => (by cases h), fun h => (by cases h)⟩
    | ok stored =>
      obtain ⟨rfl, hwritten, hcontains⟩ := hstored stored rfl
      refine Quietly.ask fun s₆ hok₆ hsane₆ hsince₆ chance₆ id s₇ hid => ?_
      cases hid
      refine ⟨kept_of_same hok₆ (s₆.objectIds + 1) hok₆.probing, fun hok₇ hsane₇ hsince₇ => ?_⟩
      refine Quietly.pure fun s₈ hok₈ hsane₈ hsince₈ => ⟨fun object h => ?_, fun h => (by cases h)⟩
      cases h
      have hlater₈ : Later s₅ s₈ := trans_of Later hsince₇.later hsince₈.later
      obtain ⟨cell₈, hcell₈, hagent₈, hassignment₈⟩ := hexec₃.later (trans_of Later hsince₅.later hlater₈)
      refine ⟨cell₈, hcell₈, _, output, rfl, by rw [hagent₈],
        ⟨⟨output, hlater₈.written hwritten, rfl, rfl⟩, fun r' hr' digest hdigest => ?_⟩, hlater₈.written hwritten,
        ⟨rfl, rfl⟩, ?_⟩
      · obtain rfl := List.mem_singleton.mp hr'
        cases hdigest
        exact hlater₈.contains hcontains
      · rw [hagent₈, hassignment₈]
        exact hproduces.later (trans_of Later hsince₅.later hlater₈)

/-- What an execution shares with its renewal is a lease for its own attempt. -/
theorem leaseState_look {f : ExecutionLease → Routine F α} {Q : Except Abort α → Site F → Prop}
    (hexec : site.Executing n r a) (h : ∀ s, Ok d e m x s → Sane d.sha s → Since (.execution n) site s → ∀ cell,
      s.cells n = some cell → cell.Owns cell.leaseState →
      Quietly d e ids m x (.execution n) Q (f cell.leaseState) s) :
    Quietly d e ids m x (.execution n) Q (Agent.ask .leaseState >>= f) site := by
  refine Quietly.look trivial fun s hok hsane hsince chance lease hlease => ?_
  obtain ⟨cell, hcell, -, -⟩ := hexec.later hsince.later
  have hanswer : s.onCell (.execution n) (fun _ cell => (cell.leaseState, s)) = some (lease, s) := hlease
  rw [onCell_execution hcell] at hanswer
  cases hanswer
  exact h s hok hsane hsince cell hcell (hok.cells n cell hcell).owns

theorem abortRenewal_quietly {f : Unit → Routine F α} {Q : Except Abort α → Site F → Prop}
    (hexec : site.Executing n r a) (h : ∀ s, Ok d e m x s → Sane d.sha s → Since (.execution n) site s →
      Quietly d e ids m x (.execution n) Q (f ()) s) :
    Quietly d e ids m x (.execution n) Q (Agent.ask .abortRenewal >>= f) site := by
  refine Quietly.ask fun s hok hsane hsince chance answer s' habort => ?_
  obtain ⟨cell, hcell, -, -⟩ := hexec.later hsince.later
  have hanswer : s.onCell (.execution n) (fun n _ => ((), s.updateCell n fun cell => { cell with aborted := true })) =
      some (answer, s') := habort
  rw [onCell_execution hcell] at hanswer
  cases hanswer
  refine ⟨updateCell_kept hok (fun _ => ⟨rfl, rfl, rfl⟩) fun cell hcell => ?_, fun hok' hsane' hsince' => h _ hok' hsane' hsince'⟩
  exact ⟨(hok.cells n cell hcell).owns.task, (hok.cells n cell hcell).owns.attempt⟩

/-- **An execution reports its own output under its own lease**, if it reports any. -/
theorem executeAndCommit_safely (hok : Ok d e m x site) (hsane : Sane d.sha site) (hexec : site.Executing n r a)
    (hunfinished : site.Unfinished n) (hunexecuted : site.Unexecuted n) : Safely d e ids m x (.execution n)
    (fun res s => Later site s ∧ s.Unfinished n ∧ res ≠ .error .panic) (Agent.executeAndCommit d.sha d.showStatus r a) site := by
  have still : ∀ {s : Site F} {p : Routine F Unit}, Later site s → s.Unfinished n →
      Quietly d e ids m x (.execution n) (fun res _ => res ≠ .error .panic) p s →
      Safely d e ids m x (.execution n) (fun res s => Later site s ∧ s.Unfinished n ∧ res ≠ .error .panic) p s :=
    fun hlater hunfinished hp => Safely.mono hp fun res s' _ _ hpost =>
      ⟨trans_of Later hlater hpost.1.later, hunfinished.since hpost.1, hpost.2⟩
  refine Safely.bind (M := fun res s => ∃ result, res = .ok result ∧ Later site s ∧ s.Outcome d n result) hok
    ((workResult_safely hok hsane hexec hunfinished hunexecuted).attempt fun res s _ _ hpost => ⟨res, rfl, hpost⟩)
    (fun result s hok hsane hpost => ?_) fun error s _ _ hpost => ?_
  · obtain ⟨result', heq, hlater, houtcome⟩ := hpost
    cases heq
    have hexec' := hexec.later hlater
    cases result with
    | error error =>
      have failing : error ≠ .panic → Quietly d e ids m x (.execution n) (fun res _ => res ≠ .error .panic)
          (Agent.ask .abortRenewal >>= fun _ => .fail error : Routine F Unit) s := fun herror =>
        abortRenewal_quietly hexec' fun _ _ _ _ => Quietly.fail fun _ _ _ _ h => herror (by cases h; rfl)
      cases error with
      | panic => exact absurd rfl houtcome.returns
      | error message => exact still hlater houtcome.unfinished (failing (fun h => (by cases h)))
      | failed err => exact still hlater houtcome.unfinished (failing (fun h => (by cases h)))
    | ok output =>
      refine still hlater houtcome.unfinished (abortRenewal_quietly hexec' fun s₁ hok₁ hsane₁ hsince₁ => ?_)
      refine leaseState_look (hexec'.later hsince₁.later) fun s₂ hok₂ hsane₂ hsince₂ cell₂ hcell₂ howns => ?_
      obtain ⟨cell, hcell, hreports⟩ := houtcome.reports output rfl
      have hlater₂ : Later s s₂ := trans_of Later hsince₁.later hsince₂.later
      obtain ⟨cell', hcell', hagent, hassignment, -⟩ := hlater₂.cells n cell hcell
      rw [hcell₂] at hcell'
      cases hcell'
      have hentitled : s₂.Entitled d (.execution n) (.completeExecution cell₂.leaseState [output]) :=
        ⟨n, cell₂, rfl, hcell₂, howns, hreports.later hlater₂ hagent hassignment⟩
      refine post_bind_quietly hok₂ hentitled fun s₃ hok₃ hsane₃ hsince₃ reception hanswers => ?_
      exact orFail_quietly (fun _ _ _ _ _ _ h => (by cases h)) fun _ _ _ _ _ h => (by cases h)
  · obtain ⟨result, heq, -⟩ := hpost
    cases heq

/-- **An execution comes to its end**, and its agent is idle then. -/
theorem spawned_safely (hok : Ok d e m x site) (hsane : Sane d.sha site) (hexec : site.Executing n r a)
    (hunfinished : site.Unfinished n) (hunexecuted : site.Unexecuted n) : Safely d e ids m x (.execution n)
    (fun res s => res = .ok () ∧ ∃ cell, s.cells n = some cell ∧ cell.finished = true)
    (Agent.spawned d.sha d.showStatus r a) site := by
  have clear : ∀ {s : Site F}, Later site s → s.Unfinished n → Safely d e ids m x (.execution n)
      (fun res s => res = .ok () ∧ ∃ cell, s.cells n = some cell ∧ cell.finished = true) (Agent.ask .clearBusy) s := by
    intro s hlater hunfinished
    refine Safely.ask_last fun s₁ hok₁ hsane₁ hsince₁ chance₁ answer s₂ hclear => ?_
    obtain ⟨cell, hcell, -, -⟩ := (hexec.later hlater).later hsince₁.later
    have hanswer : s₁.onCell (.execution n) (fun n cell => ((), { s₁.updateCell n (fun cell => { cell with finished := true })
        with busy := Function.update s₁.busy cell.agent false })) = some (answer, s₂) := hclear
    rw [onCell_execution hcell] at hanswer
    cases hanswer
    refine ⟨clearBusy_kept hok₁ hcell (hunfinished.since hsince₁ cell hcell), fun _ => Safely.pure fun s₃ _ _ hsince₃ => ?_⟩
    have hdone := updateCell_some (n := n) (f := fun cell => { cell with finished := true }) hcell
    obtain ⟨cell', hcell', -, -, hfinished⟩ := hsince₃.later.cells n _ hdone
    exact ⟨rfl, cell', hcell', hfinished (by rw [if_pos rfl])⟩
  refine Safely.bind (M := fun res s => ∃ result, res = .ok result ∧ Later site s ∧ s.Unfinished n ∧
      result ≠ .error .panic) hok
    ((executeAndCommit_safely hok hsane hexec hunfinished hunexecuted).attempt fun res s _ _ hpost => ⟨res, rfl, hpost⟩)
    (fun result s hok hsane hpost => ?_) fun error s _ _ hpost => ?_
  · obtain ⟨result', heq, hlater, hunfinished', hreturns⟩ := hpost
    cases heq
    cases result with
    | ok u => exact clear hlater hunfinished'
    | error error =>
      cases error with
      | panic => exact absurd rfl hreturns
      | error message => exact clear hlater hunfinished'
      | failed err => exact clear hlater hunfinished'
  · obtain ⟨result, heq, -⟩ := hpost
    cases heq

/-! ## The renewal -/

/-- A renewal asks for more time for the attempt of its execution, and keeps what it gets. -/
theorem renewExecution_quietly (hexec : site.Executing n r a) : Quietly d e ids m x (.renewal n)
    (fun res _ => ∃ goesOn, res = .ok goesOn) (Agent.renewExecution d.showStatus : Routine F Bool) site := by
  have finish : ∀ {s : Site F} (goesOn : Bool), Quietly d e ids m x (.renewal n) (fun res _ => ∃ goesOn, res = .ok goesOn)
      (pure goesOn : Routine F Bool) s := fun goesOn => Quietly.pure fun _ _ _ _ => ⟨goesOn, rfl⟩
  refine Quietly.look trivial fun s₁ hok₁ hsane₁ hsince₁ chance₁ lease hlease => ?_
  refine Quietly.look trivial fun s₂ hok₂ hsane₂ hsince₂ chance₂ now hnow => ?_
  dsimp only
  generalize (if lease.expiresAtUnixMs ≤ now then 0 else lease.expiresAtUnixMs - now) = remaining
  split
  · exact finish false
  refine Quietly.look (show Looks (.sleep _ : Question F) from trivial) fun s₃ hok₃ hsane₃ hsince₃ chance₃ slept hsleep => ?_
  refine Quietly.look trivial fun s₄ hok₄ hsane₄ hsince₄ chance₄ current hcurrent => ?_
  have hexec₄ := hexec.later (hsince₁.trans (hsince₂.trans (hsince₃.trans hsince₄))).later
  obtain ⟨cell, hcell, -, -⟩ := hexec₄
  have hanswer : s₄.onCell (.renewal n) (fun _ cell => (cell.leaseState, s₄)) = some (current, s₄) := hcurrent
  rw [onCell_renewal hcell] at hanswer
  cases hanswer
  have howns := (hok₄.cells n cell hcell).owns
  have hentitled : s₄.Entitled d (.renewal n) (.renewExecution cell.leaseState) := ⟨n, cell, rfl, hcell, howns⟩
  refine post_bind_quietly hok₄ hentitled fun s₅ hok₅ hsane₅ hsince₅ reception hanswers => ?_
  cases reception with
  | lost error => exact finish true
  | rejected status message => exact finish false
  | garbled error => exact finish false
  | answered body =>
    dsimp only
    split
    · rename_i renewed hrenewed
      obtain ⟨body', hbody, hselect⟩ := parseJson_ok hrenewed
      cases hbody
      have hanswer := hanswers body rfl
      cases body with
      | execution lease' =>
        cases hselect
        obtain ⟨htask, hattempt⟩ := hanswer
        refine Quietly.ask fun s₆ hok₆ hsane₆ hsince₆ chance₆ answer s₇ hset => ?_
        obtain ⟨cell₆, hcell₆, hagent₆, hassignment₆, -⟩ := (hsince₅.trans hsince₆).later.cells n cell hcell
        have hanswer : s₆.onCell (.renewal n) (fun n _ => ((), s₆.updateCell n fun cell => { cell with leaseState := renewed })) =
            some (answer, s₇) := hset
        rw [onCell_renewal hcell₆] at hanswer
        cases hanswer
        refine ⟨updateCell_kept hok₆ (fun _ => ⟨rfl, rfl, rfl⟩) fun old hold => ?_, fun _ _ _ => finish true⟩
        rw [hcell₆] at hold
        cases hold
        refine ⟨?_, ?_, ?_, ?_⟩
        · exact htask.trans (howns.task.trans (by rw [hassignment₆]))
        · exact hattempt.executionId.trans (howns.attempt.executionId.trans (by rw [hassignment₆]))
        · exact hattempt.resourceId.trans (howns.attempt.resourceId.trans (by rw [hassignment₆]))
        · exact hattempt.resourceEpoch.trans (howns.attempt.resourceEpoch.trans (by rw [hassignment₆]))
      | _ => cases hselect
    · exact finish false

end Plurifold
