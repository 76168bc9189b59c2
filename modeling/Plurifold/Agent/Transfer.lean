import Plurifold.Agent.Blobs
import Plurifold.Fabric.State
import Plurifold.Lib.Tiling

/-!
# Reading inputs

* Local and remote reads agree: whether a blob is in the local store or is served by replicas, a task gets the bytes it
  asks for (`materialize_agrees`). The range goes over the wire as text with an inclusive end and comes back with an
  exclusive one (`parseByteRange_header`).
* A read aborts the task if and only if it goes to the local store and ends past the stored blob, which the announced
  size of the object does not exclude (`materialize_returns_iff`).
-/

namespace Plurifold

open Lib Attempt CoordinatorState

variable {F : Type} {sha : Sha256} {world : World} {store : LocalObjectStore} {input : ResolvedObject}
  {range : Option (UInt64 × UInt64)}

/-! ## Decimal numbers -/

/-- Digits whose value fits are read. -/
theorem parseDigits_ofDigitChars : ∀ (digits : List Char) (value : UInt64), (∀ c ∈ digits, c.isDigit = true) →
    Nat.ofDigitChars 10 digits value.toNat < 2 ^ 64 →
    parseDigits value digits = some (UInt64.ofNat (Nat.ofDigitChars 10 digits value.toNat))
  | [], value, _, _ => by simp [parseDigits]
  | digit :: digits, value, hdigits, hlt => by
    have hdigit := hdigits digit (List.mem_cons_self ..)
    have hgrows : ∀ (digits : List Char) (n : Nat), n ≤ Nat.ofDigitChars 10 digits n := by
      intro digits
      induction digits with
      | nil => simp
      | cons digit digits ih =>
        intro n
        rw [Nat.ofDigitChars_cons]
        exact Nat.le_trans (by omega) (ih _)
    rw [Nat.ofDigitChars_cons] at hlt ⊢
    have hnext : value.toNat * 10 + (digit.toNat - '0'.toNat) = 10 * value.toNat + (digit.toNat - '0'.toNat) := by omega
    have hfits : 10 * value.toNat + (digit.toNat - '0'.toNat) < 2 ^ 64 := Nat.lt_of_le_of_lt (hgrows digits _) hlt
    have hvalue : (UInt64.ofNat (10 * value.toNat + (digit.toNat - '0'.toNat))).toNat =
        10 * value.toNat + (digit.toNat - '0'.toNat) := UInt64.toNat_ofNat_of_lt' (by rw [UInt64.size]; exact hfits)
    simp only [parseDigits, hdigit, if_true, hnext, if_pos hfits]
    rw [parseDigits_ofDigitChars digits _ (fun c hc => hdigits c (List.mem_cons_of_mem _ hc)) (by rw [hvalue]; exact hlt),
      hvalue]

theorem isDigit_toString {n : UInt64} {c : Char} (h : c ∈ (toString n).toList) : c.isDigit = true := by
  change c ∈ n.toNat.repr.toList at h
  rw [Nat.toList_repr] at h
  exact Nat.isDigit_of_mem_toDigits (by decide) (by decide) h

/-- A number is read as it is printed. -/
theorem parseU64_toString (n : UInt64) : parseU64 (toString n).toList = some n := by
  have hdigits := fun c (h : c ∈ (toString n).toList) => isDigit_toString h
  have hvalue : Nat.ofDigitChars 10 (toString n).toList (0 : UInt64).toNat = n.toNat := by
    change Nat.ofDigitChars 10 n.toNat.repr.toList 0 = n.toNat
    rw [Nat.toList_repr, Nat.ofDigitChars_ten_toDigits]
  have hparse := parseDigits_ofDigitChars (toString n).toList 0 hdigits (by rw [hvalue]; exact n.toNat_lt)
  rw [hvalue, UInt64.ofNat_toNat] at hparse
  have hnonempty : (toString n).toList ≠ [] := by
    change n.toNat.repr.toList ≠ []
    rw [Nat.toList_repr]
    exact Nat.toDigits_ne_nil
  generalize (toString n).toList = text at hdigits hparse hnonempty
  cases text with
  | nil => exact absurd rfl hnonempty
  | cons c rest =>
    -- a digit is not a plus sign
    have hplus : c ≠ '+' := by
      rintro rfl
      exact absurd (hdigits '+' (List.mem_cons_self ..)) (by decide)
    unfold parseU64
    split
    · contradiction
    · rename_i heq
      exact absurd (List.cons.inj heq).1 hplus
    · rename_i heq
      exact absurd (List.cons.inj heq).1 hplus
    · exact hparse

/-! ## The range on the wire -/

theorem stripLeading_append (lead text : String) : stripLeading lead (lead ++ text) = some text := by
  have hlength : lead.length = lead.toList.length := (String.length_toList ..).symm
  have hdrop : (lead ++ text).toList.drop lead.length = text.toList := by
    rw [String.toList_append, hlength, List.drop_left]
  rw [stripLeading, if_pos (by simp), hdrop, String.ofList_toList]

theorem splitOnce_append {separator : Char} : ∀ {before : List Char} (after : List Char), (∀ c ∈ before, c ≠ separator) →
    splitOnce separator (before ++ separator :: after) = some (before, after)
  | [], after, _ => by simp [splitOnce]
  | c :: before, after, h => by
    have hrest := splitOnce_append after fun c hc => h c (List.mem_cons_of_mem _ hc)
    simp [splitOnce, h c (List.mem_cons_self ..), hrest]

/-- Text of visible ASCII survives as the value of a header. -/
theorem headerText_of_visible {text : String} (h : ∀ c ∈ text.toList, 32 ≤ c.toNat ∧ c.toNat < 127) :
    headerText text = some text := by
  apply if_pos
  rw [List.all_eq_true]
  intro c hc
  obtain ⟨hlo, hhi⟩ := h c hc
  simp [hlo, hhi]

theorem visible_of_digit {c : Char} (h : c.isDigit = true) : 32 ≤ c.toNat ∧ c.toNat < 127 := by
  simp only [Char.isDigit, Bool.and_eq_true, decide_eq_true_eq, ge_iff_le, UInt32.le_iff_toNat_le] at h
  change 48 ≤ c.toNat ∧ c.toNat ≤ 57 at h
  omega

/-- The text of a range header is visible ASCII. -/
theorem headerText_range (start stop : UInt64) :
    headerText s!"bytes={start}-{stop}" = some s!"bytes={start}-{stop}" := by
  apply headerText_of_visible
  intro c hc
  change c ∈ ("bytes=" ++ toString start ++ "-" ++ toString stop).toList at hc
  simp only [String.toList_append, List.mem_append] at hc
  rcases hc with ((hc | hc) | hc) | hc
  · have hunit : ∀ c ∈ ['b', 'y', 't', 'e', 's', '='], 32 ≤ c.toNat ∧ c.toNat < 127 := by simp
    exact hunit c hc
  · exact visible_of_digit (isDigit_toString hc)
  · have hdash : ∀ c ∈ ['-'], 32 ≤ c.toNat ∧ c.toNat < 127 := by simp
    exact hdash c hc
  · exact visible_of_digit (isDigit_toString hc)

/-- **The range that the client asks for is the one the server reads**, for every range that is not empty and lies within
the object. -/
theorem parseByteRange_header {start stop : UInt64} {total : Nat} (hlt : start < stop) (hle : stop.toNat ≤ total) :
    parseByteRange (some s!"bytes={start}-{stop - 1}") total = .ok (some (start.toNat, stop.toNat)) := by
  have hstop := UInt64.lt_iff_toNat_lt.mp hlt
  have hlast : (stop - 1).toNat = stop.toNat - 1 :=
    UInt64.toNat_sub_of_le _ _ (UInt64.le_iff_toNat_le.mpr (by simp; omega))
  have hnot : ∀ (n : UInt64) (c : Char), c ∈ (toString n).toList → ∀ d : Char, d.isDigit = false → c ≠ d := by
    rintro n c hc d hd rfl
    rw [isDigit_toString hc] at hd
    cases hd
  have hspec : (toString start ++ "-" ++ toString (stop - 1)).toList =
      (toString start).toList ++ '-' :: (toString (stop - 1)).toList := by simp
  have hcomma : ((toString start).toList ++ '-' :: (toString (stop - 1)).toList).contains ',' = false := by
    simp only [List.contains_eq_mem, decide_eq_false_iff_not, List.mem_append, List.mem_cons, not_or]
    refine ⟨fun h => hnot _ _ h ',' (by decide) rfl, by decide, fun h => hnot _ _ h ',' (by decide) rfl⟩
  have hsplit : splitOnce '-' ((toString start).toList ++ '-' :: (toString (stop - 1)).toList) =
      some ((toString start).toList, (toString (stop - 1)).toList) :=
    splitOnce_append _ fun c hc => hnot _ c hc '-' (by decide)
  have hstrip : stripLeading "bytes=" s!"bytes={start}-{stop - 1}" =
      some (toString start ++ "-" ++ toString (stop - 1)) := by
    have happend : s!"bytes={start}-{stop - 1}" = "bytes=" ++ (toString start ++ "-" ++ toString (stop - 1)) := by
      simp only [← String.append_assoc]
      rfl
    rw [happend]
    exact stripLeading_append _ _
  have hrange : ¬(decide (stop - 1 < start) || decide (total ≤ stop.toNat - 1)) = true := by
    simp only [Bool.or_eq_true, decide_eq_true_eq, UInt64.lt_iff_toNat_lt, hlast]
    omega
  simp only [parseByteRange, headerText_range, hstrip, hspec, hcomma, hsplit, parseU64_toString, hlast]
  simp only [Bool.false_eq_true, if_false]
  rw [if_neg hrange, Nat.sub_add_cancel (by omega)]

/-! ## The cases of a read -/

theorem normalizeRange_eq_some {size offset length : UInt64} :
    normalizeRange size range = some (offset, length) ↔ range = some (offset, length) ∧ ¬(offset = 0 ∧ length = size) := by
  cases range with
  | none => simp [normalizeRange]
  | some range =>
    obtain ⟨offset', length'⟩ := range
    simp only [normalizeRange]
    split
    · rename_i h
      constructor
      · intro hnone
        cases hnone
      · rintro ⟨hrange, hproper⟩
        cases hrange
        exact absurd h hproper
    · rename_i h
      constructor
      · intro hsome
        cases hsome
        exact ⟨rfl, h⟩
      · exact fun hrange => hrange.1

/-- The end of a range within an object. -/
theorem toNat_stop {offset length size : UInt64} (h : offset.toNat + length.toNat ≤ size.toNat) :
    (offset + length).toNat = offset.toNat + length.toNat := by
  rw [UInt64.toNat_add]
  exact Nat.mod_eq_of_lt (Nat.lt_of_le_of_lt h size.toNat_lt)

/-- A range that the announced size admits is read from the local store, or else from the replicas. -/
theorem materializeInput_range {digest : String} {offset length : UInt64} (hdigest : input.metadata.digest = some digest)
    (hrange : normalizeRange input.metadata.sizeBytes range = some (offset, length))
    (hle : offset.toNat + length.toNat ≤ input.metadata.sizeBytes.toNat) (hlength : length ≠ 0) :
    materializeInput sha world input range store =
      if store.contains digest then
        match store.get sha digest with
        | .error error => (.error (.error error.message), store)
        | .ok bytes =>
          if bytes.length < offset.toNat + length.toNat then (.error .panic, store)
          else (.ok (subslice bytes offset.toNat (offset.toNat + length.toNat)), store)
      else (fetchRange sha world offset (offset + length) length input.replicas "no replicas supplied", store) := by
  have hlt := Nat.lt_of_le_of_lt hle input.metadata.sizeBytes.toNat_lt
  have hstop := toNat_stop hle
  have hsize : ¬input.metadata.sizeBytes < offset + length := by
    rw [UInt64.lt_iff_toNat_lt, hstop]
    omega
  unfold materializeInput
  simp only [hdigest, okOr_some, pure_bind', state_bind, hrange]
  rw [if_neg (by omega), if_neg hsize, if_neg hlength, hstop]
  by_cases hcontains : store.contains digest = true
  · rw [if_pos hcontains, if_pos hcontains]
    cases store.get sha digest with
    | error error => rfl
    | ok bytes =>
      dsimp only
      split <;> rfl
  · rw [if_neg hcontains, if_neg hcontains]
    rfl

/-- An empty range that the announced size admits is read without asking anyone. -/
theorem materializeInput_empty {digest : String} {offset : UInt64} (hdigest : input.metadata.digest = some digest)
    (hrange : normalizeRange input.metadata.sizeBytes range = some (offset, 0))
    (hle : offset.toNat + (0 : UInt64).toNat ≤ input.metadata.sizeBytes.toNat) :
    materializeInput sha world input range store = (.ok [], store) := by
  have hlt : offset.toNat < 2 ^ 64 := offset.toNat_lt
  have hstop : ¬input.metadata.sizeBytes < offset + 0 := by
    rw [UInt64.lt_iff_toNat_lt, UInt64.add_zero]
    exact Nat.not_lt.mpr hle
  unfold materializeInput
  simp only [hdigest, okOr_some, pure_bind', state_bind, hrange]
  rw [if_neg (by simpa using hlt), if_neg hstop]
  rfl

/-! ## Blobs under their digest -/

/-- The name of the file of a blob is its hash. -/
theorem pathForDigest_digest (b : Bytes) : LocalObjectStore.pathForDigest (sha.digest b) = .ok (sha.hex b) := by
  obtain ⟨hlength, hdigits⟩ := sha.hex_digits b
  have hstrip : stripLeading "sha256:" (sha.digest b) = some (sha.hex b) := stripLeading_append _ _
  simp [LocalObjectStore.pathForDigest, hstrip, hlength, hdigits]

theorem get_digest {b : Bytes} (h : store.files.lookup (sha.hex b) = some (.ok b)) :
    store.get sha (sha.digest b) = .ok b := by
  have hverify : LocalObjectStore.verify sha (sha.digest b) b = .ok () := if_pos rfl
  simp only [LocalObjectStore.get, pathForDigest_digest, bind, Except.bind, h, hverify]

/-- A blob that can be read is there. -/
theorem contains_of_get {digest : String} {bytes : Bytes} (h : store.get sha digest = .ok bytes) :
    store.contains digest = true := by
  unfold LocalObjectStore.get at h
  unfold LocalObjectStore.contains
  cases hpath : LocalObjectStore.pathForDigest digest with
  | error error =>
    rw [hpath] at h
    cases h
  | ok path =>
    rw [hpath] at h
    change (store.files.lookup path).isSome = true
    cases hfile : store.files.lookup path with
    | none =>
      simp only [bind, Except.bind, hfile] at h
      cases h
    | some file => rfl

theorem contains_digest (b : Bytes) : store.contains (sha.digest b) = (store.files.lookup (sha.hex b)).isSome := by
  simp only [LocalObjectStore.contains, pathForDigest_digest]

/-- A digest survives as the value of a header. -/
theorem headerText_digest (b : Bytes) : headerText (sha.digest b) = some (sha.digest b) := by
  have hdigit : ∀ c : Char, isAsciiHexdigit c = true → 32 ≤ c.toNat ∧ c.toNat < 127 := by
    intro c hc
    simp only [isAsciiHexdigit, Bool.or_eq_true, Bool.and_eq_true, decide_eq_true_eq, Char.le_def,
      UInt32.le_iff_toNat_le] at hc
    rcases hc with (hc | hc) | hc
    · exact visible_of_digit hc
    · change 97 ≤ c.toNat ∧ c.toNat ≤ 102 at hc
      omega
    · change 65 ≤ c.toNat ∧ c.toNat ≤ 70 at hc
      omega
  apply headerText_of_visible
  intro c hc
  change c ∈ ("sha256:" ++ sha.hex b).toList at hc
  rw [String.toList_append, List.mem_append] at hc
  rcases hc with hc | hc
  · have hlead : ∀ c ∈ ['s', 'h', 'a', '2', '5', '6', ':'], 32 ≤ c.toNat ∧ c.toNat < 127 := by simp
    exact hlead c hc
  · exact hdigit c (List.all_eq_true.mp (sha.hex_digits b).2 c hc)

/-! ## Local and remote reads -/

/-- The bytes that a read asks for. -/
def requested (b : Bytes) : Option (UInt64 × UInt64) → Bytes
  | none => b
  | some (offset, length) => slice b (offset.toNat, length.toNat)

/-- The replica runs the blob server over a store that holds `b`. -/
def Serves (sha : Sha256) (world : World) (b : Bytes) (replica : ObjectReplica) : Prop :=
  ∃ remote : LocalObjectStore, remote.files.lookup (sha.hex b) = some (.ok b) ∧
    ∀ header, world.get replica.url header = .ok (intoResponse (getBlob sha remote (sha.hex b) header))

/-- A whole blob is served with status 200. -/
theorem getBlob_whole {b : Bytes} (h : store.files.lookup (sha.hex b) = some (.ok b)) :
    getBlob sha store (sha.hex b) none = .ok { status := 200, rangeDigest := none, body := .ok b } := by
  have hget : store.get sha s!"sha256:{sha.hex b}" = .ok b := get_digest h
  simp only [getBlob, hget, parseByteRange]

/-- A range that the server can read is served with its digest. -/
theorem getBlob_range {b : Bytes} {header : String} {start stop : Nat}
    (h : store.files.lookup (sha.hex b) = some (.ok b))
    (hparse : parseByteRange (some header) b.length = .ok (some (start, stop))) :
    getBlob sha store (sha.hex b) (some header) =
      .ok { status := 206, rangeDigest := some (sha.digest (subslice b start stop)), body := .ok (subslice b start stop) } := by
  have hget : store.get sha s!"sha256:{sha.hex b}" = .ok b := get_digest h
  simp only [getBlob, hget, hparse]

/-- The first replica that serves the blob answers a range; the checks of the client let its reply pass. -/
theorem fetchRange_serves {b : Bytes} {offset length : UInt64} {replica : ObjectReplica}
    (hserves : Serves sha world b replica) (hlength : 0 < length) (hle : offset.toNat + length.toNat ≤ b.length)
    (hstop : (offset + length).toNat = offset.toNat + length.toNat) (rest : List ObjectReplica) (lastError : String) :
    fetchRange sha world offset (offset + length) length (replica :: rest) lastError =
      .ok (slice b (offset.toNat, length.toNat)) := by
  obtain ⟨remote, hremote, hget⟩ := hserves
  have hpos := UInt64.lt_iff_toNat_lt.mp hlength
  have hparse : parseByteRange (some s!"bytes={offset}-{offset + length - 1}") b.length =
      .ok (some (offset.toNat, (offset + length).toNat)) :=
    parseByteRange_header (UInt64.lt_iff_toNat_lt.mpr (by rw [hstop]; exact Nat.lt_add_of_pos_right hpos))
      (by rw [hstop]; exact hle)
  have hpayload : subslice b offset.toNat (offset + length).toNat = slice b (offset.toNat, length.toNat) := by
    rw [subslice, slice, hstop, Nat.add_sub_cancel_left]
  have hcount : (slice b (offset.toNat, length.toNat)).length = length.toNat := by
    rw [slice, List.length_take, List.length_drop]
    omega
  have hanswer := hget (some s!"bytes={offset}-{offset + length - 1}")
  rw [getBlob_range hremote hparse, hpayload] at hanswer
  simp only [intoResponse] at hanswer
  unfold fetchRange
  simp only [hanswer, Option.bind_some, headerText_digest, hcount, UInt64.ofNat_toNat]
  simp

/-- The first replica that serves the blob answers for the whole of it. -/
theorem fetchBlob_serves {b : Bytes} {replica : ObjectReplica} (hserves : Serves sha world b replica)
    (hwrite : world.write = .ok ()) (hregister : world.register = .ok ()) (hnew : store.files.lookup (sha.hex b) = none)
    (rest : List ObjectReplica) (lastError : String) :
    (fetchBlob sha world (sha.digest b) (replica :: rest) lastError store).1 = .ok b := by
  obtain ⟨remote, hremote, hget⟩ := hserves
  have hanswer := hget none
  rw [getBlob_whole hremote] at hanswer
  simp only [intoResponse] at hanswer
  have hput : store.put sha world.write b = .ok (sha.digest b, ⟨store.files.insert (sha.hex b) (.ok b)⟩) := by
    simp only [LocalObjectStore.put, hnew, hwrite]
    rfl
  unfold fetchBlob
  simp only [hanswer]
  rw [if_neg (by simp)]
  simp only [state_bind, hput, update_bind, hregister]
  simp

theorem requested_of_whole {b : Bytes} {size : UInt64} (hsize : size.toNat = b.length)
    (h : normalizeRange size range = none) : requested b range = b := by
  cases range with
  | none => rfl
  | some range =>
    obtain ⟨offset, length⟩ := range
    by_cases hfull : offset = 0 ∧ length = size
    · obtain ⟨rfl, rfl⟩ := hfull
      simp [requested, slice, hsize]
    · rw [normalizeRange_eq_some.mpr ⟨rfl, hfull⟩] at h
      cases h

/-- A read within a blob goes through if the whole blob and every non-empty part of it can be read. -/
theorem materializeInput_requested {b : Bytes} (hdigest : input.metadata.digest = some (sha.digest b))
    (hsize : input.metadata.sizeBytes.toNat = b.length)
    (hrange : ∀ offset length, range = some (offset, length) → offset.toNat + length.toNat ≤ b.length)
    (hwhole : (materializeInput sha world input none store).1 = .ok b)
    (hpart : ∀ offset length, range = some (offset, length) → 0 < length →
      normalizeRange input.metadata.sizeBytes range = some (offset, length) →
      (materializeInput sha world input range store).1 = .ok (slice b (offset.toNat, length.toNat))) :
    (materializeInput sha world input range store).1 = .ok (requested b range) := by
  cases hnormal : normalizeRange input.metadata.sizeBytes range with
  | none =>
    have hsame : materializeInput sha world input range = materializeInput sha world input none := by
      unfold materializeInput
      rw [hnormal]
      rfl
    rw [hsame, hwhole, requested_of_whole hsize hnormal]
  | some proper =>
    obtain ⟨offset, length⟩ := proper
    obtain ⟨rfl, -⟩ := normalizeRange_eq_some.mp hnormal
    by_cases hlength : length = 0
    · have hle := hrange offset length rfl
      subst hlength
      rw [materializeInput_empty hdigest hnormal (by rwa [hsize])]
      simp [requested, slice]
    · exact hpart offset length rfl (UInt64.pos_iff_ne_zero.mpr hlength) hnormal

/-- A blob in the local store is read there. -/
theorem materializeInput_local {b : Bytes} (hdigest : input.metadata.digest = some (sha.digest b))
    (hsize : input.metadata.sizeBytes.toNat = b.length)
    (hrange : ∀ offset length, range = some (offset, length) → offset.toNat + length.toNat ≤ b.length)
    (hstored : store.files.lookup (sha.hex b) = some (.ok b)) :
    (materializeInput sha world input range store).1 = .ok (requested b range) := by
  have hget := get_digest hstored
  have hcontains := contains_of_get hget
  apply materializeInput_requested hdigest hsize hrange
  · unfold materializeInput
    simp only [hdigest, okOr_some, pure_bind', state_bind, normalizeRange]
    rw [if_pos hcontains]
    simp only [hget, pure_apply]
  · intro offset length hsome hlength hnormal
    have hle := hrange offset length hsome
    rw [materializeInput_range hdigest hnormal (by rwa [hsize]) (UInt64.pos_iff_ne_zero.mp hlength), if_pos hcontains]
    simp only [hget]
    rw [if_neg (Nat.not_lt.mpr hle), subslice, slice, Nat.add_sub_cancel_left]

/-- A blob that is only at replicas that serve it is read there. -/
theorem materializeInput_remote {b : Bytes} (hdigest : input.metadata.digest = some (sha.digest b))
    (hsize : input.metadata.sizeBytes.toNat = b.length)
    (hrange : ∀ offset length, range = some (offset, length) → offset.toNat + length.toNat ≤ b.length)
    (hnew : store.files.lookup (sha.hex b) = none) (hreplicas : input.replicas ≠ [])
    (hserves : ∀ replica ∈ input.replicas, Serves sha world b replica) (hwrite : world.write = .ok ())
    (hregister : world.register = .ok ()) :
    (materializeInput sha world input range store).1 = .ok (requested b range) := by
  obtain ⟨replica, rest, hcons⟩ := List.exists_cons_of_ne_nil hreplicas
  have hfirst := hserves replica (by rw [hcons]; exact List.mem_cons_self ..)
  have hcontains : ¬store.contains (sha.digest b) = true := by
    rw [contains_digest, hnew]
    decide
  apply materializeInput_requested hdigest hsize hrange
  · unfold materializeInput
    simp only [hdigest, okOr_some, pure_bind', state_bind, normalizeRange]
    rw [if_neg hcontains, hcons]
    exact fetchBlob_serves hfirst hwrite hregister hnew _ _
  · intro offset length hsome hlength hnormal
    have hle := hrange offset length hsome
    rw [materializeInput_range hdigest hnormal (by rwa [hsize]) (UInt64.pos_iff_ne_zero.mp hlength), if_neg hcontains,
      hcons]
    exact fetchRange_serves hfirst hlength hle (toNat_stop (hsize ▸ hle)) rest "no replicas supplied"

/-- **Local and remote reads agree.** For an object of the digest and the size of a blob `b` and a range within `b`, the
read gives the bytes it asks for, be the blob in the local store or only at replicas that serve it. The range is the
same on both ends of the wire. -/
theorem materialize_agrees (sha : Sha256) (world : World) (store : LocalObjectStore) (input : ResolvedObject)
    (range : Option (UInt64 × UInt64)) (b : Bytes) (hdigest : input.metadata.digest = some (sha.digest b))
    (hsize : input.metadata.sizeBytes.toNat = b.length)
    (hrange : ∀ offset length, range = some (offset, length) → offset.toNat + length.toNat ≤ b.length) :
    (store.files.lookup (sha.hex b) = some (.ok b) →
      (materializeInput sha world input range store).1 = .ok (requested b range)) ∧
    (store.files.lookup (sha.hex b) = none → input.replicas ≠ [] →
      (∀ replica ∈ input.replicas, Serves sha world b replica) → world.write = .ok () → world.register = .ok () →
      (materializeInput sha world input range store).1 = .ok (requested b range)) ∧
    ∀ offset length : UInt64, 0 < length → offset.toNat + length.toNat ≤ b.length →
      parseByteRange (some s!"bytes={offset}-{offset + length - 1}") b.length =
        .ok (some (offset.toNat, offset.toNat + length.toNat)) := by
  refine ⟨materializeInput_local hdigest hsize hrange, materializeInput_remote hdigest hsize hrange, ?_⟩
  intro offset length hlength hle
  have hpos := UInt64.lt_iff_toNat_lt.mp hlength
  have hstop : (offset + length).toNat = offset.toNat + length.toNat := toNat_stop (hsize ▸ hle)
  rw [parseByteRange_header (UInt64.lt_iff_toNat_lt.mpr (by rw [hstop]; exact Nat.lt_add_of_pos_right hpos))
    (by rw [hstop]; exact hle), hstop]

/-- A hash that agrees with SHA-256 on `abc` and on `b`. -/
def sampleSha : Sha256 where
  hex bytes :=
    if bytes = [97, 98, 99] then "ba7816bf8f01cfea414140de5dae2223b00361a396177a9cb410ff61f20015ad"
    else if bytes = [98] then "3e23e8160039594a33894f6564e1b1348bbd7a0088d42c4acb73eeaed59c009d"
    else "0000000000000000000000000000000000000000000000000000000000000000"
  hex_digits bytes := by
    split
    · decide +kernel
    · split <;> decide +kernel

/-- A store that holds the blob `abc`. -/
def sampleStore : LocalObjectStore where
  files := (∅ : Map String (Except String Bytes)).insert
    "ba7816bf8f01cfea414140de5dae2223b00361a396177a9cb410ff61f20015ad" (.ok [97, 98, 99])

/-- The blob `abc` as an object of a given size, with one replica. -/
def sampleInput (size : UInt64) : ResolvedObject where
  metadata := {
    id := ⟨8⟩
    sizeBytes := size
    digest := some "sha256:ba7816bf8f01cfea414140de5dae2223b00361a396177a9cb410ff61f20015ad"
    encoding := none
    locations := [⟨1⟩]
    producer := none }
  replicas := [⟨⟨1⟩, "http://replica/v1/blobs/ba7816bf8f01cfea414140de5dae2223b00361a396177a9cb410ff61f20015ad"⟩]

/-- An outside in which the replica serves the blobs of `sampleStore`. -/
def sampleWorld : World where
  get _ header := .ok (intoResponse (getBlob sampleSha sampleStore
    "ba7816bf8f01cfea414140de5dae2223b00361a396177a9cb410ff61f20015ad" header))
  showStatus := toString
  register := .ok ()
  write := .ok ()

/-- The middle byte of `abc`, from the local store and from the replica. -/
theorem materialize_agrees_abc :
    (materializeInput sampleSha sampleWorld (sampleInput 3) (some (1, 1)) sampleStore).1 = .ok [98] ∧
      (materializeInput sampleSha sampleWorld (sampleInput 3) (some (1, 1)) ⟨∅⟩).1 = .ok [98] := by
  have hdigest : (sampleInput 3).metadata.digest = some (sampleSha.digest [97, 98, 99]) := by decide +kernel
  have hrange : ∀ offset length : UInt64, some ((1 : UInt64), (1 : UInt64)) = some (offset, length) →
      offset.toNat + length.toNat ≤ ([97, 98, 99] : Bytes).length := by
    rintro _ _ ⟨⟩
    decide
  have hserves : ∀ replica ∈ (sampleInput 3).replicas, Serves sampleSha sampleWorld [97, 98, 99] replica :=
    fun _ _ => ⟨sampleStore, rfl, fun _ => rfl⟩
  constructor
  · exact (materialize_agrees sampleSha sampleWorld sampleStore (sampleInput 3) _ [97, 98, 99] hdigest rfl hrange).1 rfl
  · exact (materialize_agrees sampleSha sampleWorld ⟨∅⟩ (sampleInput 3) _ [97, 98, 99] hdigest rfl hrange).2.1 rfl
      (by decide) hserves rfl rfl

/-! ## Reads past the end of a blob -/

theorem fetchRange_ne_panic {offset stop length : UInt64} : ∀ (replicas : List ObjectReplica) (lastError : String),
    fetchRange sha world offset stop length replicas lastError ≠ .error .panic
  | [], _ => by simp [fetchRange]
  | replica :: rest, lastError => by
    have ih : ∀ lastError, fetchRange sha world offset stop length rest lastError ≠ .error .panic :=
      fetchRange_ne_panic rest
    unfold fetchRange
    split
    · exact ih _
    · split
      · exact ih _
      · split
        · exact ih _
        · split
          · simp
          · split
            · exact ih _
            · dsimp only
              split
              · exact ih _
              · simp

theorem fetchBlob_ne_panic {digest : String} : ∀ (replicas : List ObjectReplica) (lastError : String)
    (store : LocalObjectStore), (fetchBlob sha world digest replicas lastError store).1 ≠ .error .panic
  | [], _, _ => by simp [fetchBlob]
  | replica :: rest, lastError, store => by
    have ih : ∀ lastError store, (fetchBlob sha world digest rest lastError store).1 ≠ .error .panic :=
      fetchBlob_ne_panic rest
    unfold fetchBlob
    cases world.get replica.url none with
    | error error => exact ih _ _
    | ok response =>
      dsimp only
      by_cases hstatus : (!(200 ≤ response.status && response.status < 300)) = true
      · rw [if_pos hstatus]
        exact ih _ _
      · rw [if_neg hstatus]
        cases response.body with
        | error error => simp
        | ok bytes =>
          simp only [state_bind]
          cases store.put sha world.write bytes with
          | error error => simp
          | ok put =>
            obtain ⟨stored, store'⟩ := put
            simp only [update_bind]
            by_cases hstored : stored ≠ digest
            · rw [if_pos hstored]
              exact ih _ _
            · rw [if_neg hstored]
              cases world.register <;> simp

/-- The read is a non-empty proper range within the announced size of the object, which is in the local store and ends
before the range does. -/
def OverrunsBlob (sha : Sha256) (store : LocalObjectStore) (input : ResolvedObject) (range : Option (UInt64 × UInt64)) :
    Prop :=
  ∃ digest offset length bytes, input.metadata.digest = some digest ∧ range = some (offset, length) ∧ 0 < length ∧
    ¬(offset = 0 ∧ length = input.metadata.sizeBytes) ∧ offset.toNat + length.toNat ≤ input.metadata.sizeBytes.toNat ∧
    store.get sha digest = .ok bytes ∧ bytes.length < offset.toNat + length.toNat

/-- Reading a whole blob never aborts. -/
theorem materializeInput_whole_ne_panic (h : normalizeRange input.metadata.sizeBytes range = none) :
    (materializeInput sha world input range store).1 ≠ .error .panic := by
  unfold materializeInput
  cases input.metadata.digest with
  | none => simp
  | some digest =>
    simp only [okOr_some, pure_bind', state_bind, h]
    by_cases hcontains : store.contains digest = true
    · rw [if_pos hcontains]
      cases store.get sha digest <;> simp
    · rw [if_neg hcontains]
      exact fetchBlob_ne_panic _ _ _

/-- A range that is empty or that the announced size does not admit never aborts. -/
theorem materializeInput_refused_ne_panic {offset length : UInt64}
    (hrange : normalizeRange input.metadata.sizeBytes range = some (offset, length))
    (h : length = 0 ∨ input.metadata.sizeBytes.toNat < offset.toNat + length.toNat) :
    (materializeInput sha world input range store).1 ≠ .error .panic := by
  unfold materializeInput
  cases input.metadata.digest with
  | none => simp
  | some digest =>
    simp only [okOr_some, pure_bind', state_bind, hrange]
    by_cases hover : 2 ^ 64 ≤ offset.toNat + length.toNat
    · rw [if_pos hover]
      simp
    · rw [if_neg hover]
      have hstop : (offset + length).toNat = offset.toNat + length.toNat := by
        rw [UInt64.toNat_add]
        exact Nat.mod_eq_of_lt (Nat.not_le.mp hover)
      by_cases hsize : input.metadata.sizeBytes < offset + length
      · rw [if_pos hsize]
        simp
      · rw [UInt64.lt_iff_toNat_lt, hstop] at hsize
        have hzero : length = 0 := h.resolve_right hsize
        rw [if_neg (by rwa [UInt64.lt_iff_toNat_lt, hstop]), if_pos hzero]
        simp

/-- A read returns if and only if it does not overrun a blob of the local store. -/
theorem materializeInput_returns_iff : (materializeInput sha world input range store).1 ≠ .error .panic ↔
    ¬OverrunsBlob sha store input range := by
  rw [not_iff_not]
  constructor
  · intro hpanic
    cases hrange : normalizeRange input.metadata.sizeBytes range with
    | none => exact absurd hpanic (materializeInput_whole_ne_panic hrange)
    | some proper =>
      obtain ⟨offset, length⟩ := proper
      by_cases hrefused : length = 0 ∨ input.metadata.sizeBytes.toNat < offset.toNat + length.toNat
      · exact absurd hpanic (materializeInput_refused_ne_panic hrange hrefused)
      · have hlength : length ≠ 0 := fun h => hrefused (.inl h)
        have hle : offset.toNat + length.toNat ≤ input.metadata.sizeBytes.toNat :=
          Nat.not_lt.mp fun h => hrefused (.inr h)
        cases hdigest : input.metadata.digest with
        | none => simp [materializeInput, hdigest] at hpanic
        | some digest =>
          rw [materializeInput_range hdigest hrange hle hlength] at hpanic
          by_cases hcontains : store.contains digest = true
          · rw [if_pos hcontains] at hpanic
            cases hget : store.get sha digest with
            | error error => simp [hget] at hpanic
            | ok bytes =>
              simp only [hget] at hpanic
              by_cases hshort : bytes.length < offset.toNat + length.toNat
              · obtain ⟨hrange, hproper⟩ := normalizeRange_eq_some.mp hrange
                exact ⟨digest, offset, length, bytes, hdigest, hrange, UInt64.pos_iff_ne_zero.mpr hlength, hproper, hle,
                  hget, hshort⟩
              · simp [hshort] at hpanic
          · rw [if_neg hcontains] at hpanic
            exact absurd hpanic (fetchRange_ne_panic _ _)
  · rintro ⟨digest, offset, length, bytes, hdigest, hrange, hlength, hproper, hle, hget, hshort⟩
    rw [materializeInput_range hdigest (normalizeRange_eq_some.mpr ⟨hrange, hproper⟩) hle
      (UInt64.pos_iff_ne_zero.mp hlength), if_pos (contains_of_get hget)]
    simp [hget, hshort]

/-- Some input of a task, read from the store that the inputs before it leave, overruns its blob. -/
def OverrunsInput (sha : Sha256) (world : World) (task : TaskSpec F) (i : Nat) (inputs : List ResolvedObject)
    (store : LocalObjectStore) : Prop :=
  ∃ before input after bytes store', inputs = before ++ input :: after ∧
    materializeInputs sha world task i before store = (.ok bytes, store') ∧
    OverrunsBlob sha store' input (task.inputByteRange (i + before.length))

theorem materializeInputs_of_error {task : TaskSpec F} {i : Nat} {input : ResolvedObject} {abort : Abort}
    {store₁ : LocalObjectStore}
    (h : materializeInput sha world input (task.inputByteRange i) store = (.error abort, store₁))
    (rest : List ResolvedObject) : materializeInputs sha world task i (input :: rest) store = (.error abort, store₁) :=
  bind_error h

theorem materializeInputs_of_ok {task : TaskSpec F} {i : Nat} {input : ResolvedObject} {bytes : Bytes}
    {store₁ : LocalObjectStore} (h : materializeInput sha world input (task.inputByteRange i) store = (.ok bytes, store₁))
    (rest : List ResolvedObject) :
    materializeInputs sha world task i (input :: rest) store =
      ((materializeInputs sha world task (i + 1) rest store₁).1.map (bytes :: ·),
        (materializeInputs sha world task (i + 1) rest store₁).2) := by
  refine (bind_ok h).trans ?_
  exact bind_pure_apply _ _ _

/-- The first input overruns its blob, or it is read and a later one does. -/
theorem overrunsInput_cons {task : TaskSpec F} {i : Nat} {input : ResolvedObject} {rest : List ResolvedObject} :
    OverrunsInput sha world task i (input :: rest) store ↔
      OverrunsBlob sha store input (task.inputByteRange i) ∨
      ∃ bytes store₁, materializeInput sha world input (task.inputByteRange i) store = (.ok bytes, store₁) ∧
        OverrunsInput sha world task (i + 1) rest store₁ := by
  have hposition (before : List ResolvedObject) : i + (before.length + 1) = i + 1 + before.length := by omega
  constructor
  · rintro ⟨before, input', after, bytes, store', hsplit, hbefore, hover⟩
    cases before with
    | nil =>
      cases hbefore
      obtain ⟨rfl, rfl⟩ := List.cons.inj hsplit
      exact .inl hover
    | cons first before =>
      obtain ⟨rfl, rfl⟩ := List.cons.inj hsplit
      rw [List.length_cons, hposition] at hover
      cases hinput : materializeInput sha world input (task.inputByteRange i) store with
      | mk r store₁ =>
        cases r with
        | error abort =>
          rw [materializeInputs_of_error hinput] at hbefore
          cases hbefore
        | ok bytes₁ =>
          rw [materializeInputs_of_ok hinput] at hbefore
          cases hrest : materializeInputs sha world task (i + 1) before store₁ with
          | mk r store₂ =>
            rw [hrest] at hbefore
            cases r with
            | error abort => cases hbefore
            | ok bytes₂ =>
              cases hbefore
              exact .inr ⟨bytes₁, store₁, rfl, before, input', after, bytes₂, _, rfl, hrest, hover⟩
  · rintro (hover | ⟨bytes₁, store₁, hinput, before, input', after, bytes, store', rfl, hbefore, hover⟩)
    · exact ⟨[], input, rest, [], store, rfl, rfl, hover⟩
    · refine ⟨input :: before, input', after, bytes₁ :: bytes, store', rfl, ?_, ?_⟩
      · rw [materializeInputs_of_ok hinput, hbefore]
        rfl
      · rw [List.length_cons, hposition]
        exact hover

/-- The loop over the inputs aborts at the first input that overruns its blob. -/
theorem materializeInputs_panics_iff (task : TaskSpec F) : ∀ (inputs : List ResolvedObject) (i : Nat)
    (store : LocalObjectStore),
    (materializeInputs sha world task i inputs store).1 = .error .panic ↔ OverrunsInput sha world task i inputs store
  | [], i, store => by
    constructor
    · intro h
      cases h
    · rintro ⟨before, input, after, _, _, hnil, -⟩
      exact absurd hnil (by simp)
  | input :: rest, i, store => by
    have hread : (materializeInput sha world input (task.inputByteRange i) store).1 = .error .panic ↔
        OverrunsBlob sha store input (task.inputByteRange i) := not_iff_not.mp materializeInput_returns_iff
    rw [overrunsInput_cons, ← hread]
    cases hinput : materializeInput sha world input (task.inputByteRange i) store with
    | mk r store₁ =>
      cases r with
      | error abort =>
        rw [materializeInputs_of_error hinput]
        simp
      | ok bytes =>
        have ih := materializeInputs_panics_iff task rest (i + 1) store₁
        rw [materializeInputs_of_ok hinput]
        simp only [Prod.mk.injEq, Except.ok.injEq, reduceCtorEq, false_or, and_assoc, exists_and_left,
          exists_eq_left', ← ih]
        cases (materializeInputs sha world task (i + 1) rest store₁).1 with
        | error abort => simp [Except.map]
        | ok others => simp [Except.map]

/-- A leased task leaves the worker busy if and only if one of its reads overruns a blob: nothing after the reads
aborts. -/
theorem busyAfter_iff {executor : Executor} {e : Env} {resourceId : ResourceId}
    {complete : ObjectMetadata → Except String Unit} {assignment : WorkAssignment F} :
    busyAfter (executeAndCommit sha world executor e resourceId complete assignment store).1 = false ↔
      ¬OverrunsInput sha world assignment.task 0 assignment.inputs store := by
  rw [← materializeInputs_panics_iff]
  cases hinputs : materializeInputs sha world assignment.task 0 assignment.inputs store with
  | mk r store₁ =>
    cases r with
    | error abort =>
      rw [executeAndCommit, bind_error hinputs]
      cases abort <;> simp [busyAfter]
    | ok inputBytes =>
      rw [executeAndCommit, bind_ok hinputs]
      refine iff_of_true ?_ (by simp)
      cases executeTaskWithPolicy executor assignment.task inputBytes with
      | error error => rfl
      | ok outputBytes =>
        simp only [state_bind]
        cases store₁.put sha world.write outputBytes with
        | error error => rfl
        | ok put =>
          obtain ⟨stored, store₂⟩ := put
          simp only [update_bind]
          cases complete _ <;> rfl

/-- **Reads and the worker's busy flag.** A read returns if and only if it does not overrun a blob of the local store;
and the worker is free after a leased task if and only if none of the task's reads overruns. -/
theorem materialize_returns_iff (sha : Sha256) (world : World) (store : LocalObjectStore) :
    (∀ (input : ResolvedObject) (range : Option (UInt64 × UInt64)),
      (materializeInput sha world input range store).1 ≠ .error .panic ↔ ¬OverrunsBlob sha store input range) ∧
    (∀ (executor : Executor) (e : Env) (resourceId : ResourceId) (complete : ObjectMetadata → Except String Unit)
      (assignment : WorkAssignment F),
      busyAfter (executeAndCommit sha world executor e resourceId complete assignment store).1 = false ↔
        ¬OverrunsInput sha world assignment.task 0 assignment.inputs store) :=
  ⟨fun _ _ => materializeInput_returns_iff, fun _ _ _ _ _ => busyAfter_iff⟩

/-- The first of two shards, which reads five bytes of an object announced with ten. -/
def overrunAssignment : WorkAssignment ℚ where
  lease := ⟨⟨1⟩, ⟨2⟩, ⟨1⟩, 0, 1000⟩
  task := { Sample.task 1 with inputs := [⟨8⟩], shard := some ⟨0, 2, some (.byteRange 0 0 5 10)⟩ }
  inputs := [sampleInput 10]

/-- A task that the coordinator accepts aborts on an object whose announced size is not that of its blob, and the worker
stays busy. -/
theorem materialize_panics_on_short_blob :
    validateTask overrunAssignment.task = .ok () ∧
      (materializeInput sampleSha sampleWorld (sampleInput 10) (overrunAssignment.task.inputByteRange 0) sampleStore).1 =
        .error .panic ∧
      busyAfter (executeAndCommit sampleSha sampleWorld (fun _ _ _ _ _ => .ok []) (Env.numbered fun _ => 0) ⟨1⟩
        (fun _ => .ok ()) overrunAssignment sampleStore).1 = true := by
  refine ⟨by decide +kernel, ?_, ?_⟩
  · decide +kernel
  · decide +kernel

end Plurifold
