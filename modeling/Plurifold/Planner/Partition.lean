import Plurifold.Lib.Tiling
import Plurifold.Planner.Shards

/-!
# The parts of an input

`partitionBounds` cuts a whole into parts as equal as they can be (`partitionBounds_cut`). A partition by bytes cuts
the object, a partition by records cuts the list of records and takes the bytes between the declared offsets. With
valid offsets neither can fail.
-/

namespace Plurifold

open Lib

variable {F : Type} {total : UInt64} {index count : UInt32} {offsets : List UInt64}

/-! ## Parts of a whole -/

theorem toNat_succ (h : index < count) : (index + 1).toNat = index.toNat + 1 := by
  have hlt : index.toNat < count.toNat := UInt32.lt_iff_toNat_lt.mp h
  have hcount := count.toNat_lt
  rw [UInt32.toNat_add]
  exact Nat.mod_eq_of_lt (by simpa using by omega)

theorem toNat_cut (total : UInt64) {n i : Nat} (h : i ≤ n) :
    (UInt64.ofNat (cut total.toNat n i)).toNat = cut total.toNat n i := by
  have htotal := total.toNat_lt
  have hle : cut total.toNat n i ≤ total.toNat := cut_le h
  exact UInt64.toNat_ofNat_of_lt' (by rw [UInt64.size]; omega)

/-- No operation of `partition_bounds` overflows or underflows. -/
theorem partitionBounds_cut (total : UInt64) (h : index < count) :
    (partitionBounds total index count).1.toNat = cut total.toNat count.toNat index.toNat ∧
    (partitionBounds total index count).2.toNat =
      cut total.toNat count.toNat (index.toNat + 1) - cut total.toNat count.toNat index.toNat := by
  have hlt : index.toNat < count.toNat := UInt32.lt_iff_toNat_lt.mp h
  have hstart := toNat_cut total (Nat.le_of_lt hlt)
  have hstop := toNat_cut total (n := count.toNat) (i := index.toNat + 1) hlt
  have hmono := cut_le_succ total.toNat count.toNat index.toNat
  refine ⟨hstart, ?_⟩
  simp only [partitionBounds, toNat_succ h]
  change (UInt64.ofNat (cut _ _ _) - UInt64.ofNat (cut _ _ _)).toNat = _
  rw [UInt64.toNat_sub_of_le _ _ (UInt64.le_iff_toNat_le.mpr (by rw [hstart, hstop]; exact hmono)), hstart, hstop]

/-- The parts of a whole lie within it. -/
theorem partitionBounds_le (h : index < count) :
    (partitionBounds total index count).1.toNat + (partitionBounds total index count).2.toNat ≤ total.toNat := by
  have hlt : index.toNat < count.toNat := UInt32.lt_iff_toNat_lt.mp h
  have hmono := cut_le_succ total.toNat count.toNat index.toNat
  have hle : cut total.toNat count.toNat (index.toNat + 1) ≤ total.toNat := cut_le hlt
  rw [(partitionBounds_cut total h).1, (partitionBounds_cut total h).2]
  omega

/-! ## Checked arithmetic

`checkedPartitionBounds` and `checkedScaledOutputBytes` are the source's computations with every operation checked: they
return a value only if no operation overflows, underflows or divides by zero, and no cast loses a bit. -/

/-- A number that an unsigned integer of this width holds. -/
def fits (width n : Nat) : Option Nat := if n < 2 ^ width then some n else none

/-- A difference that does not underflow. -/
def minus (a b : Nat) : Option Nat := if b ≤ a then some (a - b) else none

/-- A quotient whose divisor is not zero. -/
def divided (a b : Nat) : Option Nat := if b = 0 then none else some (a / b)

theorem fits_of_lt {width n : Nat} (h : n < 2 ^ width) : fits width n = some n := if_pos h

theorem minus_of_le {a b : Nat} (h : b ≤ a) : minus a b = some (a - b) := if_pos h

theorem divided_of_pos {a b : Nat} (h : 0 < b) : divided a b = some (a / b) := if_neg (Nat.pos_iff_ne_zero.mp h)

def checkedPartitionBounds (total : UInt64) (index count : UInt32) : Option (Nat × Nat) := do
  let start ← fits 64 (← divided (← fits 128 (total.toNat * index.toNat)) count.toNat)
  let stop ← fits 64 (← divided (← fits 128 (total.toNat * (← fits 32 (index.toNat + 1)))) count.toNat)
  some (start, ← minus stop start)

/-- A product of a 64-bit and a smaller number is a 128-bit number. -/
theorem fits_mul (a : UInt64) {b : Nat} (h : b < 2 ^ 64) : fits 128 (a.toNat * b) = some (a.toNat * b) := by
  apply fits_of_lt
  calc a.toNat * b < 2 ^ 64 * 2 ^ 64 := Nat.mul_lt_mul'' a.toNat_lt h
    _ = 2 ^ 128 := by rw [← Nat.pow_add]

theorem checkedPartitionBounds_eq (h : index < count) : checkedPartitionBounds total index count =
    some ((partitionBounds total index count).1.toNat, (partitionBounds total index count).2.toNat) := by
  have hlt : index.toNat < count.toNat := UInt32.lt_iff_toNat_lt.mp h
  have hcount := count.toNat_lt
  have htotal := total.toNat_lt
  have hstart : cut total.toNat count.toNat index.toNat ≤ total.toNat := cut_le (Nat.le_of_lt hlt)
  have hstop : cut total.toNat count.toNat (index.toNat + 1) ≤ total.toNat := cut_le hlt
  rw [(partitionBounds_cut total h).1, (partitionBounds_cut total h).2]
  unfold checkedPartitionBounds
  simp only [fits_mul total (show index.toNat < 2 ^ 64 by omega), fits_mul total (show index.toNat + 1 < 2 ^ 64 by omega),
    fits_of_lt (show index.toNat + 1 < 2 ^ 32 by omega), divided_of_pos (show 0 < count.toNat by omega),
    Option.bind_eq_bind, Option.bind_some]
  change (fits 64 (cut _ _ _)).bind _ = _
  rw [fits_of_lt (by omega), Option.bind_some]
  change (fits 64 (cut _ _ _)).bind _ = _
  rw [fits_of_lt (by omega), Option.bind_some, minus_of_le (cut_le_succ ..), Option.bind_some]

/-- The units of a part and of the whole, as `scaled_output_bytes` reads them: where it starts, how many, and of how
many. -/
def TaskShardPartition.units : TaskShardPartition → UInt64 × UInt64 × UInt64
  | .byteRange _ offset length totalBytes => (offset, length, totalBytes)
  | .records _ recordStart recordCount totalRecords _ _ _ => (recordStart, recordCount, totalRecords)

def checkedScaledOutputBytes (self : TaskShardPartition) (totalOutputBytes : UInt64) : Option Nat :=
  let (start, count, total) := self.units
  if total = 0 then some totalOutputBytes.toNat
  else do
    let outputStart ← divided (← fits 128 (totalOutputBytes.toNat * start.toNat)) total.toNat
    let stop ← fits 64 (start.toNat + count.toNat)
    let outputEnd ← divided (← fits 128 (totalOutputBytes.toNat * stop)) total.toNat
    fits 64 (← minus outputEnd outputStart)

theorem scaledOutputBytes_units (part : TaskShardPartition) (outputBytes : UInt64) :
    part.scaledOutputBytes outputBytes =
      if part.units.2.2 = 0 then outputBytes
      else UInt64.ofNat (outputBytes.toNat * (part.units.1 + part.units.2.1).toNat / part.units.2.2.toNat + 2 ^ 128 -
        outputBytes.toNat * part.units.1.toNat / part.units.2.2.toNat) := by
  cases part <;> rfl

/-- The output of a part that lies within the whole. -/
theorem scaledOutputBytes_within {part : TaskShardPartition} {start count total : UInt64} (outputBytes : UInt64)
    (hunits : part.units = (start, count, total)) (hwithin : start.toNat + count.toNat ≤ total.toNat) (hpos : total ≠ 0) :
    (part.scaledOutputBytes outputBytes).toNat =
      outputBytes.toNat * (start.toNat + count.toNat) / total.toNat - outputBytes.toNat * start.toNat / total.toNat ∧
    checkedScaledOutputBytes part outputBytes = some (part.scaledOutputBytes outputBytes).toNat := by
  have htotal := total.toNat_lt
  have hout := outputBytes.toNat_lt
  have hpos' : 0 < total.toNat := Nat.pos_iff_ne_zero.mpr fun h0 => hpos (UInt64.toNat_inj.mp h0)
  have hsum : (start + count).toNat = start.toNat + count.toNat := by
    rw [UInt64.toNat_add]
    exact Nat.mod_eq_of_lt (by omega)
  have hmono : outputBytes.toNat * start.toNat / total.toNat ≤
      outputBytes.toNat * (start.toNat + count.toNat) / total.toNat :=
    Nat.div_le_div_right (Nat.mul_le_mul_left _ (Nat.le_add_right _ _))
  have hend : outputBytes.toNat * (start.toNat + count.toNat) / total.toNat ≤ outputBytes.toNat :=
    Nat.div_le_of_le_mul (by rw [Nat.mul_comm]; exact Nat.mul_le_mul_right _ hwithin)
  have hvalue : (part.scaledOutputBytes outputBytes).toNat =
      outputBytes.toNat * (start.toNat + count.toNat) / total.toNat - outputBytes.toNat * start.toNat / total.toNat := by
    rw [scaledOutputBytes_units, hunits, if_neg hpos, hsum, UInt64.toNat_ofNat']
    generalize outputBytes.toNat * (start.toNat + count.toNat) / total.toNat = outputEnd at *
    generalize outputBytes.toNat * start.toNat / total.toNat = outputStart at *
    omega
  refine ⟨hvalue, ?_⟩
  rw [hvalue]
  unfold checkedScaledOutputBytes
  rw [hunits]
  dsimp only
  rw [if_neg hpos]
  simp only [fits_mul outputBytes (show start.toNat < 2 ^ 64 by omega),
    fits_mul outputBytes (show start.toNat + count.toNat < 2 ^ 64 by omega),
    fits_of_lt (show start.toNat + count.toNat < 2 ^ 64 by omega), divided_of_pos hpos', minus_of_le hmono,
    Option.bind_eq_bind, Option.bind_some]
  exact fits_of_lt (Nat.lt_of_le_of_lt (Nat.le_trans (Nat.sub_le _ _) hend) hout)

/-! ## Record offsets -/

/-- Offsets that increase from window to window increase. -/
theorem windows2_isChain : ∀ {offsets : List UInt64}, ((windows2 offsets).all fun pair => decide (pair.1 < pair.2)) →
    offsets.IsChain (· < ·)
  | [], _ => .nil
  | [_], _ => .singleton _
  | a :: b :: rest, h => by
    simp only [windows2, List.tail_cons, List.zip_cons_cons, List.all_cons, Bool.and_eq_true, decide_eq_true_eq] at h
    exact .cons_cons h.1 (windows2_isChain h.2)

/-- Record offsets of an object: from 0 to its size, increasing. -/
structure RecordOffsets (offsets : List UInt64) (totalBytes : UInt64) : Prop where
  two : 2 ≤ offsets.length
  first : offsets[0]? = some 0
  last : offsets[offsets.length - 1]? = some totalBytes
  increasing : offsets.IsChain (· < ·)

theorem recordOffsets_of_valid (h : validRecordOffsets offsets total = true) : RecordOffsets offsets total := by
  simp only [validRecordOffsets, Bool.and_eq_true, decide_eq_true_eq] at h
  obtain ⟨⟨⟨htwo, hfirst⟩, hlast⟩, hincreasing⟩ := h
  refine ⟨htwo, ?_, ?_, windows2_isChain hincreasing⟩
  · rwa [List.head?_eq_getElem?] at hfirst
  · rwa [List.getLast?_eq_getElem?] at hlast

/-- The offset of a record, as a number. -/
def offsetAt (offsets : List UInt64) (i : Nat) : Nat := (offsets[i]?.getD 0).toNat

theorem offsetAt_of_getElem? {i : Nat} {a : UInt64} (h : offsets[i]? = some a) : offsetAt offsets i = a.toNat := by
  rw [offsetAt, h]
  rfl

section Valid

variable (h : RecordOffsets offsets total)

include h

theorem RecordOffsets.getElem?_of_le {i : Nat} (hi : i ≤ offsets.length - 1) :
    ∃ a, offsets[i]? = some a ∧ offsetAt offsets i = a.toNat := by
  have htwo := h.two
  have hlt : i < offsets.length := by omega
  exact ⟨offsets[i], List.getElem?_eq_getElem hlt, offsetAt_of_getElem? (List.getElem?_eq_getElem hlt)⟩

theorem RecordOffsets.lt_succ {i : Nat} (hi : i < offsets.length - 1) : offsetAt offsets i < offsetAt offsets (i + 1) := by
  have hlt : i + 1 < offsets.length := by omega
  have hstep := List.isChain_iff_getElem.mp h.increasing i hlt
  rw [offsetAt_of_getElem? (List.getElem?_eq_getElem hlt), offsetAt_of_getElem? (List.getElem?_eq_getElem (by omega))]
  exact UInt64.lt_iff_toNat_lt.mp hstep

theorem RecordOffsets.lt {i j : Nat} (hij : i < j) (hj : j ≤ offsets.length - 1) :
    offsetAt offsets i < offsetAt offsets j := by
  induction j with
  | zero => omega
  | succ j ih =>
    have hstep := h.lt_succ (i := j) (by omega)
    rcases Nat.lt_or_ge i j with hlt | hge
    · exact Nat.lt_trans (ih hlt (by omega)) hstep
    · rwa [show i = j by omega]

theorem RecordOffsets.le {i j : Nat} (hij : i ≤ j) (hj : j ≤ offsets.length - 1) :
    offsetAt offsets i ≤ offsetAt offsets j := by
  rcases Nat.lt_or_ge i j with hlt | hge
  · exact Nat.le_of_lt (h.lt hlt hj)
  · rw [show i = j by omega]

theorem RecordOffsets.at_zero : offsetAt offsets 0 = 0 := offsetAt_of_getElem? h.first

theorem RecordOffsets.at_last : offsetAt offsets (offsets.length - 1) = total.toNat := offsetAt_of_getElem? h.last

theorem RecordOffsets.le_total {i : Nat} {a : UInt64} (ha : offsets[i]? = some a) : a.toNat ≤ total.toNat := by
  have hi := (List.getElem?_eq_some_iff.mp ha).1
  rw [← offsetAt_of_getElem? ha, ← h.at_last]
  exact h.le (by omega) (Nat.le_refl _)

/-- There are no more records than bytes. -/
theorem RecordOffsets.length_le : offsets.length - 1 ≤ total.toNat := by
  have hge : ∀ i, i ≤ offsets.length - 1 → i ≤ offsetAt offsets i := by
    intro i
    induction i with
    | zero => omega
    | succ i ih =>
      intro hi
      have hstep := h.lt_succ (i := i) (by omega)
      have := ih (by omega)
      omega
  have hlast := hge (offsets.length - 1) (Nat.le_refl _)
  rwa [h.at_last] at hlast

/-- The number of records is a `u64`. -/
theorem RecordOffsets.toNat_records : (UInt64.ofNat (offsets.length - 1)).toNat = offsets.length - 1 := by
  have hle := h.length_le
  have htotal := total.toNat_lt
  exact UInt64.toNat_ofNat_of_lt' (by rw [UInt64.size]; omega)

end Valid

/-! ## Units -/

/-- How many bytes or records there are to partition. -/
def unitCount (partition : ShardPartitionSpec) (object : ObjectMetadata) : Nat :=
  match partition with
  | .byteRange _ => object.sizeBytes.toNat
  | .records _ offsets => offsets.length - 1

/-- The declared offsets, if there are any, fit the object. -/
def OffsetsFit (partition : ShardPartitionSpec) (object : ObjectMetadata) : Prop :=
  ∀ input offsets, partition = .records input offsets → validRecordOffsets offsets object.sizeBytes = true

theorem partitionUnits_some {role : LogicalRoleSpec F} {partition : ShardPartitionSpec} {objects : Objects}
    {units : UInt64} {o : ObjectId} (hhead : role.implementations.head?.bind (·.task.inputs[partition.input]?) = some o)
    (h : partitionUnits role partition objects = some units) :
    ∃ object, objects.lookup o = some object ∧ OffsetsFit partition object ∧ units.toNat = unitCount partition object := by
  obtain ⟨implementation, himplementation, hinput⟩ := Option.bind_eq_some_iff.mp hhead
  simp only [partitionUnits, himplementation, Option.map_some, Option.bind_eq_bind, Option.bind_some, hinput] at h
  obtain ⟨object, hobject, hunits⟩ := Option.bind_eq_some_iff.mp h
  refine ⟨object, hobject, ?_⟩
  cases partition with
  | byteRange input =>
    cases hunits
    exact ⟨fun _ _ h => (nomatch h), rfl⟩
  | records input offsets =>
    dsimp only at hunits
    split at hunits
    · rename_i hvalid
      cases hunits
      refine ⟨fun input' offsets' heq => ?_, (recordOffsets_of_valid hvalid).toNat_records⟩
      cases heq
      exact hvalid
    · cases hunits

theorem partitionUnits_none {role : LogicalRoleSpec F} {partition : ShardPartitionSpec} {objects : Objects} {o : ObjectId}
    {object : ObjectMetadata} (hhead : role.implementations.head?.bind (·.task.inputs[partition.input]?) = some o)
    (hobject : objects.lookup o = some object) (h : partitionUnits role partition objects = none) :
    ¬OffsetsFit partition object := by
  obtain ⟨implementation, himplementation, hinput⟩ := Option.bind_eq_some_iff.mp hhead
  simp only [partitionUnits, himplementation, Option.map_some, Option.bind_eq_bind, Option.bind_some, hinput,
    hobject] at h
  intro hfit
  cases partition with
  | byteRange input => cases h
  | records input offsets =>
    dsimp only at h
    rw [if_pos (hfit input offsets rfl)] at h
    cases h

/-! ## Concrete partitions -/

/-- Part `i` of `n` of a list of records: which records it has and which bytes. -/
structure RecordSpan (offsets : List UInt64) (n i : Nat) (recordStart recordCount offset length : UInt64) : Prop where
  start : recordStart.toNat = cut (offsets.length - 1) n i
  count : recordCount.toNat = cut (offsets.length - 1) n (i + 1) - cut (offsets.length - 1) n i
  first : offsets[recordStart.toNat]? = some offset
  last : ∃ stop, offsets[recordStart.toNat + recordCount.toNat]? = some stop ∧ offset.toNat + length.toNat = stop.toNat

variable {template : TaskTemplate F} {input : Nat} {objects : Objects} {o : ObjectId} {object : ObjectMetadata}

/-- No part can be formed with offsets that do not fit. -/
theorem concretePartition_none {partition : ShardPartitionSpec} (ho : template.inputs[partition.input]? = some o)
    (hobject : objects.lookup o = some object) (hfit : ¬OffsetsFit partition object) :
    concretePartition template partition index count objects = none := by
  cases partition with
  | byteRange input => exact absurd (fun _ _ h => nomatch h) hfit
  | records input offsets =>
    have hinvalid : ¬validRecordOffsets offsets object.sizeBytes = true := fun hvalid =>
      hfit fun _ _ heq => by
        cases heq
        exact hvalid
    have ho' : template.inputs[input]? = some o := ho
    simp only [concretePartition, ho', hobject, Option.bind_eq_bind, Option.bind_some, if_neg hinvalid]

theorem concretePartition_byteRange (ho : template.inputs[input]? = some o) (hobject : objects.lookup o = some object) :
    concretePartition template (.byteRange input) index count objects =
      some (.byteRange input (partitionBounds object.sizeBytes index count).1
        (partitionBounds object.sizeBytes index count).2 object.sizeBytes) := by
  simp [concretePartition, ho, hobject]

/-- With valid offsets, a partition by records can be formed. -/
theorem concretePartition_records (ho : template.inputs[input]? = some o) (hobject : objects.lookup o = some object)
    (hvalid : validRecordOffsets offsets object.sizeBytes = true) (hlt : index < count) :
    ∃ recordStart recordCount offset length,
      concretePartition template (.records input offsets) index count objects =
        some (.records input recordStart recordCount (UInt64.ofNat (offsets.length - 1)) offset length object.sizeBytes) ∧
      RecordSpan offsets count.toNat index.toNat recordStart recordCount offset length := by
  have h := recordOffsets_of_valid hvalid
  have hlt' : index.toNat < count.toNat := UInt32.lt_iff_toNat_lt.mp hlt
  obtain ⟨hstart, hcount⟩ := partitionBounds_cut (UInt64.ofNat (offsets.length - 1)) hlt
  rw [h.toNat_records] at hstart hcount
  have hmono := cut_le_succ (offsets.length - 1) count.toNat index.toNat
  have hle : cut (offsets.length - 1) count.toNat (index.toNat + 1) ≤ offsets.length - 1 := cut_le hlt'
  generalize hr : partitionBounds (UInt64.ofNat (offsets.length - 1)) index count = bounds at hstart hcount
  obtain ⟨recordStart, recordCount⟩ := bounds
  dsimp only at hstart hcount
  obtain ⟨offset, hoffset, hat⟩ := h.getElem?_of_le (i := recordStart.toNat) (by omega)
  obtain ⟨stop, hstop, hat'⟩ := h.getElem?_of_le (i := recordStart.toNat + recordCount.toNat) (by omega)
  have hsum : recordStart.toNat + recordCount.toNat < 2 ^ 64 := by
    have := h.length_le
    have := object.sizeBytes.toNat_lt
    omega
  have hbytes : offset.toNat ≤ stop.toNat := by
    rw [← hat, ← hat']
    exact h.le (Nat.le_add_right _ _) (by omega)
  have hbytes' : offset ≤ stop := UInt64.le_iff_toNat_le.mpr hbytes
  refine ⟨recordStart, recordCount, offset, stop - offset, ?_, hstart, hcount, hoffset, stop, hstop, ?_⟩
  · simp only [concretePartition, ho, hobject, Option.bind_eq_bind, Option.bind_some, hvalid, if_true, hr, hsum, hoffset,
      hstop, hbytes']
  · rw [UInt64.toNat_sub_of_le _ _ hbytes']
    omega

end Plurifold
