import Plurifold.Agent.Transfer
import Plurifold.Lib.Interleaving

/-!
# Concurrent writers of the store (`plurifold-store`)

`put` is no single step: it looks for the file, writes a temporary one, renames it, and may have to clean up. Any number
of calls take these steps in any order (`puts`), and each write, rename and removal may fail. A file under its final name
has its hash as a name, and once there it stays as it is (`Outline` of `putOutline`); so what a call has stored can be
read from then on (`concurrent_puts_converge`).
-/

namespace Plurifold

open Lib

/-- A call of `put`, with what makes the name of its temporary file its own. -/
structure PutCall where
  bytes : Bytes
  processId : UInt32
  tempId : UInt64

def PutCall.tempName (sha : Sha256) (call : PutCall) : String :=
  s!".{sha.hex call.bytes}.{call.processId}.{call.tempId}.tmp"

/-- How far a call is. -/
inductive PutProgress
  | checking
  | writing
  | moving
  | renameFailed (message : String)
  | removing
  | returned (result : Except StoreError String)
  deriving DecidableEq

namespace LocalObjectStore

def pathExists (self : LocalObjectStore) (path : String) : Bool := (self.files.lookup path).isSome

def writeFile (path : String) (bytes : Bytes) (self : LocalObjectStore) : LocalObjectStore :=
  ⟨self.files.insert path (.ok bytes)⟩

/-- `fs::rename`, onto an existing file as well. -/
def renameFile (source target : String) (self : LocalObjectStore) : Except String LocalObjectStore :=
  match self.files.lookup source with
  | some file => .ok ⟨(self.files.erase source).insert target file⟩
  | none => .error "No such file or directory (os error 2)"

def removeFile (path : String) (self : LocalObjectStore) : LocalObjectStore := ⟨self.files.erase path⟩

end LocalObjectStore

/-- One step of `put`. The outcome tells whether the file system does what the step asks for. -/
def putStep (sha : Sha256) (call : PutCall) (outcome : Except String Unit) :
    PutProgress × LocalObjectStore → PutProgress × LocalObjectStore
  | (.checking, store) =>
    if store.pathExists (sha.hex call.bytes) then (.returned (.ok (sha.digest call.bytes)), store) else (.writing, store)
  | (.writing, store) =>
    match outcome with
    | .ok () => (.moving, store.writeFile (call.tempName sha) call.bytes)
    | .error message => (.returned (.error (.io message)), store)
  | (.moving, store) =>
    match outcome with
    | .error message => (.renameFailed message, store)
    | .ok () =>
      match store.renameFile (call.tempName sha) (sha.hex call.bytes) with
      | .ok store => (.returned (.ok (sha.digest call.bytes)), store)
      | .error message => (.renameFailed message, store)
  | (.renameFailed message, store) =>
    if store.pathExists (sha.hex call.bytes) then (.removing, store) else (.returned (.error (.io message)), store)
  | (.removing, store) =>
    match outcome with
    | .ok () => (.returned (.ok (sha.digest call.bytes)), store.removeFile (call.tempName sha))
    -- `let _ = fs::remove_file(&tmp)`
    | .error _ => (.returned (.ok (sha.digest call.bytes)), store)
  | (.returned result, store) => (.returned result, store)

/-- Calls of `put` on one directory. -/
def puts {W : Type} (sha : Sha256) (calls : W → PutCall) :
    Processes W (Except String Unit) PutProgress LocalObjectStore where
  step w := putStep sha (calls w)

/-- An empty directory, and no call has begun. -/
def emptyStore {W : Type} : Processes.State W PutProgress LocalObjectStore := ⟨fun _ => .checking, ⟨∅⟩⟩

/-- The name of a blob: 64 hexadecimal digits. -/
def FinalName (name : String) : Prop := name.length = 64 ∧ name.toList.all isAsciiHexdigit = true

variable {sha : Sha256} {call : PutCall} {outcome : Except String Unit} {progress : PutProgress}
  {store : LocalObjectStore} {name : String}

/-! ## Names -/

theorem finalName_hex (sha : Sha256) (bytes : Bytes) : FinalName (sha.hex bytes) := sha.hex_digits bytes

/-- A temporary file has no final name. -/
theorem tempName_ne (hname : FinalName name) (sha : Sha256) (call : PutCall) : name ≠ call.tempName sha := by
  rintro rfl
  have hdot : '.' ∈ (call.tempName sha).toList := by
    simp only [PutCall.tempName, String.toList_append, List.mem_append]
    repeat apply Or.inl
    decide
  have := List.all_eq_true.mp hname.2 _ hdot
  revert this
  decide

/-! ## What a step does to the directory -/

/-- A step leaves every file but its temporary one alone, unless it renames that one to it. -/
theorem putStep_file (outcome : Except String Unit) (progress : PutProgress) (store : LocalObjectStore)
    (hname : name ≠ call.tempName sha) :
    (putStep sha call outcome (progress, store)).2.files.lookup name = store.files.lookup name ∨
    progress = .moving ∧ name = sha.hex call.bytes ∧
      (store.files.lookup (call.tempName sha)).isSome = true ∧
      (putStep sha call outcome (progress, store)).2.files.lookup name = store.files.lookup (call.tempName sha) := by
  cases progress with
  | checking =>
    left
    rw [putStep]
    split <;> rfl
  | writing =>
    left
    cases outcome with
    | error message => rfl
    | ok _ => exact AList.lookup_insert_ne hname
  | moving =>
    cases outcome with
    | error message => exact .inl rfl
    | ok _ =>
      rw [putStep]
      dsimp only [LocalObjectStore.renameFile]
      cases hfile : store.files.lookup (call.tempName sha) with
      | none => exact .inl rfl
      | some file =>
        by_cases hpath : name = sha.hex call.bytes
        · subst hpath
          exact .inr ⟨rfl, rfl, rfl, AList.lookup_insert _⟩
        · exact .inl ((AList.lookup_insert_ne hpath).trans (AList.lookup_erase_ne hname))
  | renameFailed message =>
    left
    rw [putStep]
    split <;> rfl
  | removing =>
    left
    cases outcome with
    | error message => rfl
    | ok _ => exact AList.lookup_erase_ne hname
  | returned result => exact .inl rfl

/-- A file that is there stays, unless it is temporary. -/
theorem putStep_stays (outcome : Except String Unit) (progress : PutProgress) (hname : name ≠ call.tempName sha)
    (h : (store.files.lookup name).isSome = true) :
    ((putStep sha call outcome (progress, store)).2.files.lookup name).isSome = true := by
  rcases putStep_file outcome progress store hname with hsame | ⟨-, -, hsome, hmoved⟩
  · rw [hsame]
    exact h
  · rw [hmoved]
    exact hsome

/-- A call whose steps no other call interrupts does what `LocalObjectStore.put` does. -/
theorem put_alone (sha : Sha256) (call : PutCall) (write : Except String Unit) (store : LocalObjectStore)
    (hfree : call.tempName sha ∉ store.files) : ∃ after,
    [.ok (), write, .ok ()].foldl (fun now outcome => putStep sha call outcome now) (.checking, store) =
      (.returned ((store.put sha write call.bytes).map Prod.fst), after) ∧
    (∀ stored, store.put sha write call.bytes = .ok stored → after = stored.2) ∧
    ∀ error, store.put sha write call.bytes = .error error → after = store := by
  unfold LocalObjectStore.put
  by_cases hthere : (store.files.lookup (sha.hex call.bytes)).isSome = true
  · refine ⟨store, ?_, ?_, fun _ _ => rfl⟩
    · simp [putStep, LocalObjectStore.pathExists, hthere, Except.map]
    · intro stored hstored
      rw [if_pos hthere] at hstored
      cases hstored
      rfl
  rw [if_neg hthere]
  cases write with
  | error message =>
    refine ⟨store, ?_, fun stored hstored => (by cases hstored), fun _ _ => rfl⟩
    simp [putStep, LocalObjectStore.pathExists, hthere, Except.map]
  | ok _ =>
    -- the temporary file is gone again once it has been renamed
    have hmoved : ((store.files.insert (call.tempName sha) (.ok call.bytes)).erase (call.tempName sha)) = store.files := by
      apply AList.ext
      change (List.kerase _ (List.kinsert _ _ store.files.entries)) = store.files.entries
      rw [List.kinsert_def, List.kerase_of_notMem_keys hfree]
      exact List.kerase_cons_eq rfl
    refine ⟨⟨store.files.insert (sha.hex call.bytes) (.ok call.bytes)⟩, ?_, ?_, fun error herror => (by cases herror)⟩
    · simp [putStep, LocalObjectStore.pathExists, LocalObjectStore.writeFile, LocalObjectStore.renameFile, hthere,
        Except.map, hmoved]
    · intro stored hstored
      cases hstored
      rfl

/-! ## The invariant -/

section Invariant

variable {W : Type} {calls : W → PutCall} {s : Processes.State W PutProgress LocalObjectStore}

/-- Under a final name there is the blob of a call with that hash. -/
def Addressed (sha : Sha256) (calls : W → PutCall) (store : LocalObjectStore) : Prop :=
  ∀ name file, FinalName name → store.files.lookup name = some file →
    ∃ w, file = .ok (calls w).bytes ∧ sha.hex (calls w).bytes = name

/-- What a call may rely on: its temporary file once written, the file of its blob once it has found or put it there. -/
def PutAsserts (sha : Sha256) (call : PutCall) (progress : PutProgress) (store : LocalObjectStore) : Prop :=
  match progress with
  | .moving => store.files.lookup (call.tempName sha) = some (.ok call.bytes)
  | .removing => (store.files.lookup (sha.hex call.bytes)).isSome = true
  | .returned (.ok digest) => digest = sha.digest call.bytes ∧ (store.files.lookup (sha.hex call.bytes)).isSome = true
  | _ => True

theorem putStep_addressed (w : W) (h : Addressed sha calls store) (hasserts : PutAsserts sha (calls w) progress store) :
    Addressed sha calls (putStep sha (calls w) outcome (progress, store)).2 := by
  intro name file hname hfile
  rcases putStep_file outcome progress store (tempName_ne hname sha (calls w)) with
    hsame | ⟨rfl, rfl, -, hmoved⟩
  · rw [hsame] at hfile
    exact h name file hname hfile
  · have htemp : store.files.lookup ((calls w).tempName sha) = some (.ok (calls w).bytes) := hasserts
    rw [hmoved, htemp] at hfile
    cases hfile
    exact ⟨w, rfl, rfl⟩

theorem putStep_asserts (hasserts : PutAsserts sha call progress store) :
    PutAsserts sha call (putStep sha call outcome (progress, store)).1 (putStep sha call outcome (progress, store)).2 := by
  cases progress with
  | checking =>
    rw [putStep]
    split
    · exact ⟨rfl, ‹_›⟩
    · trivial
  | writing =>
    cases outcome with
    | error message => trivial
    | ok _ => exact AList.lookup_insert _
  | moving =>
    have htemp : store.files.lookup (call.tempName sha) = some (.ok call.bytes) := hasserts
    cases outcome with
    | error message => trivial
    | ok _ =>
      rw [putStep]
      dsimp only [LocalObjectStore.renameFile]
      rw [htemp]
      refine ⟨rfl, ?_⟩
      rw [AList.lookup_insert]
      rfl
  | renameFailed message =>
    rw [putStep]
    split
    · exact ‹_›
    · trivial
  | removing =>
    cases outcome with
    | error message => exact ⟨rfl, hasserts⟩
    | ok _ =>
      refine ⟨rfl, ?_⟩
      exact (congrArg Option.isSome (AList.lookup_erase_ne (tempName_ne (finalName_hex sha _) sha call))).trans hasserts
  | returned result => exact hasserts

/-- A step does not touch what another call relies on. -/
theorem putStep_interferes {other : PutCall} {reached : PutProgress} (htemp : other.tempName sha ≠ call.tempName sha)
    (hasserts : PutAsserts sha other reached store) :
    PutAsserts sha other reached (putStep sha call outcome (progress, store)).2 := by
  have hfinal := finalName_hex sha other.bytes
  have hstays : (store.files.lookup (sha.hex other.bytes)).isSome = true →
      ((putStep sha call outcome (progress, store)).2.files.lookup (sha.hex other.bytes)).isSome = true :=
    putStep_stays outcome progress (tempName_ne hfinal sha call)
  cases reached with
  | moving =>
    rcases putStep_file outcome progress store htemp with hsame | ⟨-, hpath, -⟩
    · exact hsame.trans hasserts
    · exact absurd hpath.symm (tempName_ne (finalName_hex sha _) sha other)
  | removing => exact hstays hasserts
  | returned result =>
    cases result with
    | error error => trivial
    | ok digest => exact ⟨hasserts.1, hstays hasserts.2⟩
  | checking => trivial
  | writing => trivial
  | renameFailed message => trivial

/-- The proof outline of concurrent calls whose temporary files have different names. -/
def putOutline (sha : Sha256) (calls : W → PutCall) (hdistinct : Function.Injective fun w => (calls w).tempName sha) :
    Outline (puts sha calls) where
  inv := Addressed sha calls
  asserts w := PutAsserts sha (calls w)
  keeps w _ _ _ hinv hasserts := ⟨putStep_addressed w hinv hasserts, putStep_asserts hasserts⟩
  interferes _ _ _ _ _ _ _ _ hne hasserts := putStep_interferes (fun heq => hne (hdistinct heq)) hasserts

/-! ## Runs -/

/-- No file under a final name goes away. -/
structure KeepsNames (before after : LocalObjectStore) : Prop where
  there : ∀ name, FinalName name → (before.files.lookup name).isSome = true → (after.files.lookup name).isSome = true

instance : IsPreorder LocalObjectStore KeepsNames where
  refl _ := ⟨fun _ _ h => h⟩
  trans _ _ _ h h' := ⟨fun name hname hthere => h'.there name hname (h.there name hname hthere)⟩

/-- Files under final names stay as they are. -/
structure KeepsBlobs (before after : LocalObjectStore) : Prop where
  same : ∀ name file, FinalName name → before.files.lookup name = some file → after.files.lookup name = some file

instance : IsPreorder LocalObjectStore KeepsBlobs where
  refl _ := ⟨fun _ _ _ h => h⟩
  trans _ _ _ h h' := ⟨fun name file hname hfile => h'.same name file hname (h.same name file hname hfile)⟩

/-- Different blobs of the calls have different hashes. -/
def NoCollision (sha : Sha256) (calls : W → PutCall) : Prop :=
  ∀ w w', sha.hex (calls w).bytes = sha.hex (calls w').bytes → (calls w).bytes = (calls w').bytes

theorem putStep_keepsBlobs (hcollision : NoCollision sha calls) (w : W) (h : Addressed sha calls store)
    (hasserts : PutAsserts sha (calls w) progress store) :
    KeepsBlobs store (putStep sha (calls w) outcome (progress, store)).2 := by
  refine ⟨fun name file hname hfile => ?_⟩
  rcases putStep_file outcome progress store (tempName_ne hname sha (calls w)) with
    hsame | ⟨rfl, rfl, -, hmoved⟩
  · rw [hsame, hfile]
  · have htemp : store.files.lookup ((calls w).tempName sha) = some (.ok (calls w).bytes) := hasserts
    obtain ⟨w', rfl, hhash⟩ := h _ file hname hfile
    rw [hmoved, htemp, hcollision w' w hhash]

/-- The file of a blob that is there holds the blob. -/
theorem Addressed.lookup (hcollision : NoCollision sha calls) (h : Addressed sha calls store) {w : W}
    (hthere : (store.files.lookup (sha.hex (calls w).bytes)).isSome = true) :
    store.files.lookup (sha.hex (calls w).bytes) = some (.ok (calls w).bytes) := by
  obtain ⟨file, hfile⟩ := Option.isSome_iff_exists.mp hthere
  obtain ⟨w', rfl, hhash⟩ := h _ file (finalName_hex sha _) hfile
  rw [hfile, hcollision w' w hhash]

variable [DecidableEq W]

/-- **Concurrent writers converge.** Whatever order the steps of any number of calls are taken in, and whichever writes,
renames and removals fail: a file under a final name has that name as its hash, and does not go away. If no two blobs
have the same hash, it stays as it is, and what a call has stored can be read under the digest that it returned from then
on. -/
theorem concurrent_puts_converge (sha : Sha256) (calls : W → PutCall)
    (hdistinct : Function.Injective fun w => (calls w).tempName sha) (events later : List (W × Except String Unit)) :
    let reached := (puts sha calls).run events emptyStore
    let after := (puts sha calls).run later reached
    (∀ name file, FinalName name → reached.shared.files.lookup name = some file →
      (∃ bytes, file = .ok bytes ∧ sha.hex bytes = name) ∧ (after.shared.files.lookup name).isSome = true) ∧
    (NoCollision sha calls →
      (∀ name file, FinalName name → reached.shared.files.lookup name = some file →
        after.shared.files.lookup name = some file) ∧
      ∀ w digest, reached.own w = .returned (.ok digest) →
        digest = sha.digest (calls w).bytes ∧ after.shared.get sha digest = .ok (calls w).bytes ∧
          after.shared.contains digest = true) := by
  intro reached after
  have hempty : (putOutline sha calls hdistinct).Holds emptyStore :=
    ⟨fun name file _ hfile => (by cases hfile), fun w => trivial⟩
  have hreached : (putOutline sha calls hdistinct).Holds reached := Outline.holds_run events hempty
  have hstays : KeepsNames reached.shared after.shared :=
    Outline.along_run (fun w outcome progress _ _ _ =>
      ⟨fun _ hname => putStep_stays outcome progress (tempName_ne hname sha (calls w))⟩) later hreached
  refine ⟨fun name file hname hfile => ⟨?_, hstays.there name hname (by rw [hfile]; rfl)⟩, fun hcollision => ?_⟩
  · obtain ⟨w, rfl, hhash⟩ := hreached.inv name file hname hfile
    exact ⟨_, rfl, hhash⟩
  have hkeeps : KeepsBlobs reached.shared after.shared :=
    Outline.along_run (fun w _ _ _ hinv hasserts => putStep_keepsBlobs hcollision w hinv hasserts) later hreached
  refine ⟨fun name file hname hfile => hkeeps.same name file hname hfile, fun w digest hreturned => ?_⟩
  have hasserts : PutAsserts sha (calls w) (reached.own w) reached.shared := hreached.asserts w
  rw [hreturned] at hasserts
  obtain ⟨rfl, hthere⟩ := hasserts
  have hfile := hkeeps.same _ _ (finalName_hex sha _) (hreached.inv.lookup hcollision hthere)
  refine ⟨rfl, get_digest hfile, ?_⟩
  rw [contains_digest, hfile]
  rfl

end Invariant

/-- Two calls store `abc` at once. -/
def twoWriters : Bool → PutCall
  | false => ⟨[97, 98, 99], 7, 1⟩
  | true => ⟨[97, 98, 99], 7, 2⟩

/-- Both find no file and write; one renames its file, the other then fails to and cleans up. -/
def race : List (Bool × Except String Unit) :=
  [(false, .ok ()), (true, .ok ()), (false, .ok ()), (true, .ok ()), (true, .ok ()),
    (false, .error "File exists (os error 17)"), (false, .ok ()), (false, .ok ())]

theorem concurrent_puts_converge_race : ∃ digest,
    ((puts sampleSha twoWriters).run race emptyStore).own false = .returned (.ok digest) ∧
      ((puts sampleSha twoWriters).run race emptyStore).shared.get sampleSha digest = .ok [97, 98, 99] := by
  have hdistinct : Function.Injective fun w => (twoWriters w).tempName sampleSha := by
    intro a b
    revert a b
    decide +kernel
  have hsame : NoCollision sampleSha twoWriters := fun w w' _ => by cases w <;> cases w' <;> rfl
  have hreturned : ((puts sampleSha twoWriters).run race emptyStore).own false =
      .returned (.ok (sampleSha.digest [97, 98, 99])) := by decide +kernel
  have hread := ((concurrent_puts_converge sampleSha twoWriters hdistinct race []).2 hsame).2 false _ hreturned
  exact ⟨_, hreturned, hread.2.1⟩

end Plurifold
