import Plurifold.Agent.Transfer
import Plurifold.Lib.List

/-!
# Replicas that fail

A replica that is asked for a blob or a range of it answers in one of several ways (`Answer`). The client skips every bad
answer but one: when the body of an answer that it has begun to accept does not arrive (`LosesBody`), it gives up, and
replicas further down the list are not asked. So a read succeeds if and only if no such answer comes before the first
correct one (`materialize_skips_iff`).
-/

namespace Plurifold

open Lib Attempt CoordinatorState

variable {sha : Sha256} {world : World} {store : LocalObjectStore} {input : ResolvedObject}
  {range ask : Option (UInt64 × UInt64)} {b : Bytes}

/-! ## Answers -/

/-- The `Range` header of a read. -/
def rangeHeader : Option (UInt64 × UInt64) → Option String
  | none => none
  | some (offset, length) => some s!"bytes={offset}-{offset + length - 1}"

/-- The status that the client takes for success. -/
def acceptsStatus : Option (UInt64 × UInt64) → Nat → Prop
  | none, status => 200 ≤ status ∧ status < 300
  | some _, status => status = 206

/-- The digest that the body is checked against: the blob's, or the one that the replica gives for the range. -/
def expectedDigest (digest : String) (ask : Option (UInt64 × UInt64)) (response : Response) : Option String :=
  match ask with
  | none => some digest
  | some _ => response.rangeDigest.bind headerText

/-- The replica answers with the bytes asked for. -/
def Correct (sha : Sha256) (b : Bytes) (ask : Option (UInt64 × UInt64)) (reply : Except String Response) : Prop :=
  ∃ response, reply = .ok response ∧ acceptsStatus ask response.status ∧
    expectedDigest (sha.digest b) ask response = some (sha.digest (requested b ask)) ∧
    response.body = .ok (requested b ask)

/-- The body of the answer is read and does not arrive. -/
def LosesBody (sha : Sha256) (b : Bytes) (ask : Option (UInt64 × UInt64)) (reply : Except String Response) : Prop :=
  ∃ response error, reply = .ok response ∧ acceptsStatus ask response.status ∧
    (expectedDigest (sha.digest b) ask response).isSome = true ∧ response.body = .error error

/-- The answers of a replica: no connection, a wrong status, no range digest, a body that does not arrive, a range of the
wrong length, content that does not match its digest (this includes a blob of the wrong length), or the bytes asked
for. -/
inductive Answer (sha : Sha256) (b : Bytes) (ask : Option (UInt64 × UInt64)) : Except String Response → Prop
  | connection (error : String) : Answer sha b ask (.error error)
  | status {response : Response} : ¬acceptsStatus ask response.status → Answer sha b ask (.ok response)
  | noDigest {response : Response} : expectedDigest (sha.digest b) ask response = none → Answer sha b ask (.ok response)
  | noBody {response : Response} {error : String} : response.body = .error error → Answer sha b ask (.ok response)
  | length {response : Response} {bytes : Bytes} : ask.isSome = true → response.body = .ok bytes →
      bytes.length < 2 ^ 64 → bytes.length ≠ (requested b ask).length → Answer sha b ask (.ok response)
  | content {response : Response} {bytes : Bytes} {expected : String} : response.body = .ok bytes →
      expectedDigest (sha.digest b) ask response = some expected → sha.digest bytes ≠ expected →
      Answer sha b ask (.ok response)
  | correct {reply : Except String Response} : Correct sha b ask reply → Answer sha b ask reply

/-! ## Ranges -/

variable {offset length : UInt64} {replica : ObjectReplica}

theorem fetchRange_correct (hlength : (requested b (some (offset, length))).length = length.toNat)
    (h : Correct sha b (some (offset, length)) (world.get replica.url (rangeHeader (some (offset, length)))))
    (rest : List ObjectReplica) (lastError : String) :
    fetchRange sha world offset (offset + length) length (replica :: rest) lastError =
      .ok (requested b (some (offset, length))) := by
  obtain ⟨response, hreply, hstatus, hdigest, hbody⟩ := h
  change response.status = 206 at hstatus
  change response.rangeDigest.bind headerText = _ at hdigest
  change world.get replica.url (some s!"bytes={offset}-{offset + length - 1}") = _ at hreply
  unfold fetchRange
  simp only [hreply, hstatus, hdigest, hbody, hlength, UInt64.ofNat_toNat, ne_eq, not_true_eq_false, if_false]

theorem fetchRange_losesBody
    (h : LosesBody sha b (some (offset, length)) (world.get replica.url (rangeHeader (some (offset, length)))))
    (rest : List ObjectReplica) (lastError : String) :
    ∃ error, fetchRange sha world offset (offset + length) length (replica :: rest) lastError = .error error := by
  obtain ⟨response, error, hreply, hstatus, hdigest, hbody⟩ := h
  change response.status = 206 at hstatus
  change (response.rangeDigest.bind headerText).isSome = true at hdigest
  change world.get replica.url (some s!"bytes={offset}-{offset + length - 1}") = _ at hreply
  obtain ⟨expected, hexpected⟩ := Option.isSome_iff_exists.mp hdigest
  refine ⟨.error error, ?_⟩
  unfold fetchRange
  simp only [hreply, hstatus, hexpected, hbody, ne_eq, not_true_eq_false, if_false]

/-- Any other answer is skipped. -/
theorem fetchRange_skips (hlength : (requested b (some (offset, length))).length = length.toNat)
    (h : Answer sha b (some (offset, length)) (world.get replica.url (rangeHeader (some (offset, length)))))
    (hcorrect : ¬Correct sha b (some (offset, length)) (world.get replica.url (rangeHeader (some (offset, length)))))
    (hloses : ¬LosesBody sha b (some (offset, length)) (world.get replica.url (rangeHeader (some (offset, length)))))
    (rest : List ObjectReplica) (lastError : String) :
    ∃ error, fetchRange sha world offset (offset + length) length (replica :: rest) lastError =
      fetchRange sha world offset (offset + length) length rest error := by
  have hheader : rangeHeader (some (offset, length)) = some s!"bytes={offset}-{offset + length - 1}" := rfl
  rw [hheader] at h hcorrect hloses
  rw [fetchRange]
  cases hreply : world.get replica.url (some s!"bytes={offset}-{offset + length - 1}") with
  | error error => exact ⟨_, rfl⟩
  | ok response =>
    rw [hreply] at h hcorrect hloses
    dsimp only
    by_cases hstatus : response.status = 206
    · rw [if_neg (not_not.mpr hstatus)]
      cases hdigest : response.rangeDigest.bind headerText with
      | none => exact ⟨_, rfl⟩
      | some expected =>
        have hexpected : expectedDigest (sha.digest b) (some (offset, length)) response = some expected := hdigest
        cases hbody : response.body with
        | error error => exact absurd ⟨response, error, rfl, hstatus, by rw [hexpected]; rfl, hbody⟩ hloses
        | ok bytes =>
          dsimp only
          split
          · exact ⟨_, rfl⟩
          · rename_i hcount
            rw [not_not] at hcount
            split
            · exact ⟨_, rfl⟩
            · rename_i hactual
              rw [not_not] at hactual
              -- the answer would be accepted: only a correct one is
              exfalso
              cases h with
              | status hbad => exact hbad hstatus
              | noDigest hnone =>
                rw [hexpected] at hnone
                cases hnone
              | noBody hlost =>
                rw [hbody] at hlost
                cases hlost
              | length _ hbytes hsmall hwrong =>
                rw [hbody] at hbytes
                cases hbytes
                refine hwrong (hlength.symm ▸ ?_)
                rw [← hcount, UInt64.toNat_ofNat_of_lt' hsmall]
              | content hbytes hexpected' hwrong =>
                rw [hbody] at hbytes
                cases hbytes
                rw [hexpected] at hexpected'
                cases hexpected'
                exact hwrong hactual
              | correct hgood => exact hcorrect hgood
    · rw [if_pos hstatus]
      exact ⟨_, rfl⟩

/-! ## Whole blobs -/

/-- The client's test of the status of a whole blob. -/
theorem whole_status {status : Nat} :
    (!(200 ≤ status && status < 300)) = true ↔ ¬acceptsStatus none status := by
  simp only [acceptsStatus, Bool.not_eq_true', Bool.and_eq_false_iff, decide_eq_false_iff_not, not_and_or]

/-- Storing a blob gives its digest. -/
theorem put_writes (hwrite : world.write = .ok ()) (bytes : Bytes) :
    ∃ store', store.put sha world.write bytes = .ok (sha.digest bytes, store') := by
  unfold LocalObjectStore.put
  split
  · exact ⟨_, rfl⟩
  · rw [hwrite]
    exact ⟨_, rfl⟩

/-- Storing a blob gives its digest or fails. -/
theorem put_digest {write : Except String Unit} {bytes : Bytes} {stored : String} {store' : LocalObjectStore}
    (h : store.put sha write bytes = .ok (stored, store')) : stored = sha.digest bytes := by
  unfold LocalObjectStore.put at h
  split at h
  · cases h
    rfl
  · cases write with
    | error message => cases h
    | ok u =>
      cases h
      rfl

theorem fetchBlob_correct (hwrite : world.write = .ok ()) (hregister : world.register = .ok ())
    (h : Correct sha b none (world.get replica.url (rangeHeader none))) (rest : List ObjectReplica) (lastError : String) :
    (fetchBlob sha world (sha.digest b) (replica :: rest) lastError store).1 = .ok (requested b none) := by
  obtain ⟨response, hreply, hstatus, -, hbody⟩ := h
  change world.get replica.url none = _ at hreply
  change response.body = .ok b at hbody
  obtain ⟨store', hput⟩ : ∃ store', store.put sha world.write b = .ok (sha.digest b, store') := put_writes hwrite b
  unfold fetchBlob
  simp only [hreply]
  rw [if_neg (whole_status.not.mpr (not_not.mpr hstatus))]
  simp only [hbody, state_bind, hput, update_bind, hregister]
  rw [if_neg (not_not.mpr rfl)]
  rfl

theorem fetchBlob_losesBody (h : LosesBody sha b none (world.get replica.url (rangeHeader none)))
    (rest : List ObjectReplica) (lastError : String) :
    ∃ error, (fetchBlob sha world (sha.digest b) (replica :: rest) lastError store).1 = .error error := by
  obtain ⟨response, error, hreply, hstatus, -, hbody⟩ := h
  change world.get replica.url none = _ at hreply
  refine ⟨.error error, ?_⟩
  unfold fetchBlob
  simp only [hreply]
  rw [if_neg (whole_status.not.mpr (not_not.mpr hstatus))]
  simp only [hbody, fail_apply]

/-- Any other answer is skipped; its body may have been stored under its own digest. -/
theorem fetchBlob_skips (hwrite : world.write = .ok ()) (h : Answer sha b none (world.get replica.url (rangeHeader none)))
    (hcorrect : ¬Correct sha b none (world.get replica.url (rangeHeader none)))
    (hloses : ¬LosesBody sha b none (world.get replica.url (rangeHeader none))) (rest : List ObjectReplica)
    (lastError : String) :
    ∃ error store', (fetchBlob sha world (sha.digest b) (replica :: rest) lastError store).1 =
      (fetchBlob sha world (sha.digest b) rest error store').1 := by
  have hheader : rangeHeader none = none := rfl
  rw [hheader] at h hcorrect hloses
  cases hreply : world.get replica.url none with
  | error error => exact ⟨error, store, by rw [fetchBlob, hreply]⟩
  | ok response =>
    rw [hreply] at h hcorrect hloses
    by_cases hstatus : acceptsStatus none response.status
    · cases hbody : response.body with
      | error error => exact absurd ⟨response, error, rfl, hstatus, rfl, hbody⟩ hloses
      | ok bytes =>
        have hwrong : sha.digest bytes ≠ sha.digest b := by
          cases h with
          | status hbad => exact absurd hstatus hbad
          | noDigest hnone => cases hnone
          | noBody hlost =>
            rw [hbody] at hlost
            cases hlost
          | length hsome => cases hsome
          | content hbytes hexpected hwrong =>
            rw [hbody] at hbytes
            cases hbytes
            cases hexpected
            exact hwrong
          | correct hgood => exact absurd hgood hcorrect
        obtain ⟨store', hput⟩ : ∃ store', store.put sha world.write bytes = .ok (sha.digest bytes, store') :=
          put_writes hwrite bytes
        refine ⟨s!"replica digest mismatch: expected {sha.digest b}, received {sha.digest bytes}", store', ?_⟩
        rw [fetchBlob]
        simp only [hreply]
        rw [if_neg (whole_status.not.mpr (not_not.mpr hstatus))]
        simp only [hbody, state_bind, hput, update_bind]
        rw [if_pos hwrong]
    · refine ⟨s!"replica {replica.url} returned {world.showStatus response.status}", store, ?_⟩
      rw [fetchBlob]
      simp only [hreply]
      rw [if_pos (whole_status.mpr hstatus)]

/-- What a fetch of a whole blob returns has the digest asked for. -/
theorem fetchBlob_digest {digest : String} {bytes : Bytes} (replicas : List ObjectReplica) (lastError : String)
    (store : LocalObjectStore) (h : (fetchBlob sha world digest replicas lastError store).1 = .ok bytes) :
    sha.digest bytes = digest := by
  induction replicas generalizing lastError store with
  | nil =>
    unfold fetchBlob at h
    cases h
  | cons replica rest ih =>
    unfold fetchBlob at h
    cases hreply : world.get replica.url none with
    | error error =>
      rw [hreply] at h
      exact ih _ _ h
    | ok response =>
      simp only [hreply] at h
      split at h
      · exact ih _ _ h
      · cases hbody : response.body with
        | error error =>
          rw [hbody] at h
          cases h
        | ok received =>
          simp only [hbody, state_bind] at h
          cases hput : store.put sha world.write received with
          | error error =>
            rw [hput] at h
            cases h
          | ok put =>
            obtain ⟨stored, store'⟩ := put
            have hstored := put_digest hput
            simp only [hput, update_bind] at h
            split at h
            · exact ih _ _ h
            · rename_i hsame
              rw [not_not] at hsame
              cases hregister : world.register with
              | error error =>
                rw [hregister] at h
                cases h
              | ok u =>
                rw [hregister] at h
                cases h
                rw [← hstored, hsame]

/-! ## The list of replicas -/

/-- A loop over replicas that ends at a correct answer or a lost body and skips every other answer returns the bytes if
and only if no lost body comes before the first correct answer. -/
theorem fetch_ok_iff (fetch : List ObjectReplica → String → LocalObjectStore → Except Abort Bytes)
    (reply : ObjectReplica → Except String Response)
    (hcorrect : ∀ {replica}, Correct sha b ask (reply replica) → ∀ rest lastError store,
      fetch (replica :: rest) lastError store = .ok (requested b ask))
    (hloses : ∀ {replica}, LosesBody sha b ask (reply replica) → ∀ rest lastError store,
      ∃ error, fetch (replica :: rest) lastError store = .error error)
    (hskips : ∀ {replica}, Answer sha b ask (reply replica) → ¬Correct sha b ask (reply replica) →
      ¬LosesBody sha b ask (reply replica) → ∀ rest lastError store,
      ∃ error store', fetch (replica :: rest) lastError store = fetch rest error store')
    (replicas : List ObjectReplica) (lastError : String) (store : LocalObjectStore)
    (hanswers : ∀ replica ∈ replicas, Answer sha b ask (reply replica))
    (hgood : ∃ replica ∈ replicas, Correct sha b ask (reply replica)) :
    fetch replicas lastError store = .ok (requested b ask) ↔
      ¬Precedes (fun replica => LosesBody sha b ask (reply replica)) (fun replica => Correct sha b ask (reply replica))
        replicas := by
  induction replicas generalizing lastError store with
  | nil =>
    obtain ⟨replica, hmem, -⟩ := hgood
    cases hmem
  | cons replica rest ih =>
    obtain ⟨hanswer, hanswers⟩ := List.forall_mem_cons.mp hanswers
    rw [precedes_cons]
    by_cases hlost : LosesBody sha b ask (reply replica)
    · obtain ⟨error, herror⟩ := hloses hlost rest lastError store
      rw [herror]
      simp [hlost]
    · by_cases hhead : Correct sha b ask (reply replica)
      · simp [hcorrect hhead rest lastError store, hlost, hhead]
      · obtain ⟨error, store', hskip⟩ := hskips hanswer hhead hlost rest lastError store
        have hrest : ∃ replica ∈ rest, Correct sha b ask (reply replica) := by
          obtain ⟨good, hmem, hcorrectly⟩ := hgood
          rcases List.mem_cons.mp hmem with rfl | hmem
          · exact absurd hcorrectly hhead
          · exact ⟨good, hmem, hcorrectly⟩
        rw [hskip, ih error store' hanswers hrest]
        simp [hlost, hhead]

/-- The read of a whole blob that is not in the local store asks one replica after the other. -/
theorem materializeInput_whole {digest : String} (hdigest : input.metadata.digest = some digest)
    (hcontains : ¬store.contains digest = true) (hwhole : normalizeRange input.metadata.sizeBytes range = none) :
    materializeInput sha world input range store =
      fetchBlob sha world digest input.replicas "no replicas supplied" store := by
  unfold materializeInput
  simp only [hdigest, okOr_some, pure_bind', state_bind, hwhole]
  rw [if_neg hcontains]

theorem materializeInput_eq_iff (hdigest : input.metadata.digest = some (sha.digest b))
    (hsize : input.metadata.sizeBytes.toNat = b.length)
    (hrange : ∀ offset length, range = some (offset, length) → offset.toNat + length.toNat ≤ b.length)
    (hnew : store.files.lookup (sha.hex b) = none) (hwrite : world.write = .ok ()) (hregister : world.register = .ok ())
    {ask : Option (UInt64 × UInt64)} (hask : ask = normalizeRange input.metadata.sizeBytes range)
    (hanswers : ∀ replica ∈ input.replicas, Answer sha b ask (world.get replica.url (rangeHeader ask)))
    (hgood : ∃ replica ∈ input.replicas, Correct sha b ask (world.get replica.url (rangeHeader ask))) :
    (materializeInput sha world input range store).1 = .ok (requested b range) ↔
      (∃ offset, ask = some (offset, 0)) ∨
      ¬Precedes (fun replica => LosesBody sha b ask (world.get replica.url (rangeHeader ask)))
        (fun replica => Correct sha b ask (world.get replica.url (rangeHeader ask))) input.replicas := by
  have hcontains : ¬store.contains (sha.digest b) = true := by
    rw [contains_digest, hnew]
    decide
  cases hnormal : normalizeRange input.metadata.sizeBytes range with
  | none =>
    obtain rfl : ask = none := hask.trans hnormal
    rw [materializeInput_whole hdigest hcontains hnormal, requested_of_whole hsize hnormal]
    have hrun := fetch_ok_iff
      (fun replicas lastError store => (fetchBlob sha world (sha.digest b) replicas lastError store).1)
      (fun replica => world.get replica.url (rangeHeader none))
      (fun h rest lastError store => fetchBlob_correct hwrite hregister h rest lastError)
      (fun h rest lastError store => fetchBlob_losesBody h rest lastError)
      (fun h hcorrect hloses rest lastError store => fetchBlob_skips hwrite h hcorrect hloses rest lastError)
      input.replicas "no replicas supplied" store hanswers hgood
    simpa [requested] using hrun
  | some proper =>
    obtain ⟨offset, length⟩ := proper
    obtain rfl : ask = some (offset, length) := hask.trans hnormal
    obtain ⟨rfl, hproper⟩ := normalizeRange_eq_some.mp hnormal
    have hle := hrange offset length rfl
    by_cases hlength : length = 0
    · subst hlength
      have hempty : materializeInput sha world input (some (offset, 0)) store = (.ok [], store) :=
        materializeInput_empty hdigest hnormal (by rwa [hsize])
      simp [hempty, requested, slice]
    · have hcount : (requested b (some (offset, length))).length = length.toNat := by
        rw [requested, slice, List.length_take, List.length_drop]
        omega
      rw [materializeInput_range hdigest hnormal (by rwa [hsize]) hlength, if_neg hcontains]
      have hrun := fetch_ok_iff
        (fun replicas lastError _ => fetchRange sha world offset (offset + length) length replicas lastError)
        (fun replica => world.get replica.url (rangeHeader (some (offset, length))))
        (fun h rest lastError _ => fetchRange_correct hcount h rest lastError)
        (fun h rest lastError _ => fetchRange_losesBody h rest lastError)
        (fun h hcorrect hloses rest lastError store => by
          obtain ⟨error, hskip⟩ := fetchRange_skips hcount h hcorrect hloses rest lastError
          exact ⟨error, store, hskip⟩)
        input.replicas "no replicas supplied" store hanswers hgood
      simpa [hlength] using hrun

/-- **Bad replicas.** For a blob that is not in the local store and a range within it, replicas whose answers are of the
known kinds, one of them correct: the read gives the bytes it asks for if and only if it asks for none, or no answer
that loses its body comes before the first correct one. What a read of a whole blob returns has the digest asked for,
whatever the replicas answer. -/
theorem materialize_skips_iff (sha : Sha256) (world : World) (store : LocalObjectStore) (input : ResolvedObject)
    (range : Option (UInt64 × UInt64)) :
    (∀ b ask, input.metadata.digest = some (sha.digest b) → input.metadata.sizeBytes.toNat = b.length →
      (∀ offset length, range = some (offset, length) → offset.toNat + length.toNat ≤ b.length) →
      store.files.lookup (sha.hex b) = none → world.write = .ok () → world.register = .ok () →
      ask = normalizeRange input.metadata.sizeBytes range →
      (∀ replica ∈ input.replicas, Answer sha b ask (world.get replica.url (rangeHeader ask))) →
      (∃ replica ∈ input.replicas, Correct sha b ask (world.get replica.url (rangeHeader ask))) →
      ((materializeInput sha world input range store).1 = .ok (requested b range) ↔
        (∃ offset, ask = some (offset, 0)) ∨
        ¬Precedes (fun replica => LosesBody sha b ask (world.get replica.url (rangeHeader ask)))
          (fun replica => Correct sha b ask (world.get replica.url (rangeHeader ask))) input.replicas)) ∧
    ∀ digest bytes, input.metadata.digest = some digest → ¬store.contains digest = true →
      normalizeRange input.metadata.sizeBytes range = none →
      (materializeInput sha world input range store).1 = .ok bytes → sha.digest bytes = digest := by
  refine ⟨fun b ask hdigest hsize hrange hnew hwrite hregister hask hanswers hgood =>
    materializeInput_eq_iff hdigest hsize hrange hnew hwrite hregister hask hanswers hgood,
    fun digest bytes hdigest hcontains hwhole h => ?_⟩
  rw [materializeInput_whole hdigest hcontains hwhole] at h
  exact fetchBlob_digest _ _ _ h

/-- The blob `abc` with a further replica in front. -/
def twoReplicas : ResolvedObject := { sampleInput 3 with replicas := ⟨⟨2⟩, "http://first/"⟩ :: (sampleInput 3).replicas }

/-- An outside in which the first replica gives some answer and the second one serves the blob. -/
def firstAnswers (first : Except String Response) : World where
  get url header := if url = "http://first/" then first else sampleWorld.get url header
  showStatus := toString
  register := .ok ()
  write := .ok ()

theorem firstAnswers_first (first : Except String Response) (header : Option String) :
    (firstAnswers first).get "http://first/" header = first := by simp [firstAnswers]

theorem firstAnswers_correct (first : Except String Response) : ∀ replica ∈ (sampleInput 3).replicas,
    Correct sampleSha [97, 98, 99] none ((firstAnswers first).get replica.url (rangeHeader none)) := by
  intro replica hmem
  obtain rfl := List.mem_singleton.mp hmem
  refine ⟨⟨200, none, .ok [97, 98, 99]⟩, ?_, ⟨by decide, by decide⟩, rfl, rfl⟩
  have hserved : getBlob sampleSha sampleStore (sampleSha.hex [97, 98, 99]) none =
      .ok { status := 200, rangeDigest := none, body := .ok [97, 98, 99] } := getBlob_whole rfl
  have hother : (sampleInput 3).replicas.head?.map (·.url) ≠ some "http://first/" := by decide +kernel
  simp only [firstAnswers]
  rw [if_neg (fun h => hother (congrArg some h))]
  exact congrArg (fun reply => Except.ok (intoResponse reply)) hserved

theorem firstAnswers_answers {first : Except String Response} (h : Answer sampleSha [97, 98, 99] none first) :
    ∀ replica ∈ twoReplicas.replicas,
      Answer sampleSha [97, 98, 99] none ((firstAnswers first).get replica.url (rangeHeader none)) := by
  intro replica hmem
  rcases List.mem_cons.mp hmem with rfl | hmem
  · rw [firstAnswers_first]
    exact h
  · exact .correct (firstAnswers_correct first replica hmem)

theorem firstAnswers_good (first : Except String Response) : ∃ replica ∈ twoReplicas.replicas,
    Correct sampleSha [97, 98, 99] none ((firstAnswers first).get replica.url (rangeHeader none)) :=
  ⟨_, List.mem_cons_of_mem _ (List.mem_singleton.mpr rfl), firstAnswers_correct first _ (List.mem_singleton.mpr rfl)⟩

/-- A first replica that cannot be reached is skipped. -/
theorem materialize_skips_unreachable :
    (materializeInput sampleSha (firstAnswers (.error "connection refused")) twoReplicas none ⟨∅⟩).1 =
      .ok [97, 98, 99] := by
  have hdigest : twoReplicas.metadata.digest = some (sampleSha.digest [97, 98, 99]) := by decide +kernel
  refine ((materialize_skips_iff sampleSha (firstAnswers (.error "connection refused")) ⟨∅⟩ twoReplicas none).1
    [97, 98, 99] none hdigest rfl nofun rfl rfl rfl rfl (firstAnswers_answers (.connection _)) (firstAnswers_good _)).mpr
    (.inr ?_)
  intro hlost
  rcases precedes_cons.mp hlost with ⟨response, error, hreply, -⟩ | ⟨-, hrest⟩
  · cases hreply
  · rcases precedes_cons.mp hrest with ⟨response, error, hreply, -, -, hbody⟩ | ⟨hgood, -⟩
    · obtain ⟨response', hreply', -, -, hbody'⟩ := firstAnswers_correct (.error "connection refused") _
        (List.mem_singleton.mpr rfl)
      obtain rfl : response = response' := Except.ok.inj (hreply.symm.trans hreply')
      rw [hbody] at hbody'
      cases hbody'
    · exact hgood (firstAnswers_correct _ _ (List.mem_singleton.mpr rfl))

/-- When the first replica loses the connection while it sends, the client gives up, although the second one serves the
blob. -/
theorem materialize_gives_up :
    let first : Except String Response := .ok ⟨200, none, .error "error decoding response body"⟩
    (∀ replica ∈ twoReplicas.replicas,
      Answer sampleSha [97, 98, 99] none ((firstAnswers first).get replica.url (rangeHeader none))) ∧
    (∃ replica ∈ twoReplicas.replicas,
      Correct sampleSha [97, 98, 99] none ((firstAnswers first).get replica.url (rangeHeader none))) ∧
    (materializeInput sampleSha (firstAnswers first) twoReplicas none ⟨∅⟩).1 =
      .error (.error "error decoding response body") := by
  refine ⟨firstAnswers_answers (.noBody rfl), firstAnswers_good _, ?_⟩
  decide +kernel

end Plurifold
