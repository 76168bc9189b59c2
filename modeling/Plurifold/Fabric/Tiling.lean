import Plurifold.Fabric.Graph
import Plurifold.Fabric.Run

/-!
# Automatic shards tile their input

Whatever number of shards an automatic policy settles on, the parts of the input that the shards get follow each other
from the first byte to the last (`AutoTiling.bytes`), no part is empty unless the object is, and the output sizes that
the shards announce add up to that of the template. In record mode the parts consist of whole records, as equally many
as possible. No machine integer overflows on the way: the checked computations of `Planner.Partition` succeed.
-/

namespace Plurifold

open Lib

variable {F : Type}

/-! ## What a part covers -/

/-- The bytes of a part: offset and length. -/
def TaskShardPartition.bytes : TaskShardPartition → UInt64 × UInt64
  | .byteRange _ offset length _ | .records _ _ _ _ offset length _ => (offset, length)

def TaskShardPartition.byteSpan (part : TaskShardPartition) : Nat × Nat := (part.bytes.1.toNat, part.bytes.2.toNat)

/-- The bytes or records of a part: the first one and how many. -/
def TaskShardPartition.unitSpan (part : TaskShardPartition) : Nat × Nat := (part.units.1.toNat, part.units.2.1.toNat)

/-- The byte at which part `i` of `n` starts. -/
def byteAt (partition : ShardPartitionSpec) (object : ObjectMetadata) (n i : Nat) : Nat :=
  match partition with
  | .byteRange _ => cut object.sizeBytes.toNat n i
  | .records _ offsets => offsetAt offsets (cut (offsets.length - 1) n i)

section ByteAt

variable {partition : ShardPartitionSpec} {object : ObjectMetadata} (h : OffsetsFit partition object)

include h

theorem byteAt_zero (n : Nat) : byteAt partition object n 0 = 0 := by
  cases partition with
  | byteRange input => exact cut_zero _ _
  | records input offsets =>
    rw [byteAt, cut_zero]
    exact (recordOffsets_of_valid (h input offsets rfl)).at_zero

theorem byteAt_self {n : Nat} (hn : 0 < n) : byteAt partition object n n = object.sizeBytes.toNat := by
  cases partition with
  | byteRange input => exact cut_self _ hn
  | records input offsets =>
    rw [byteAt, cut_self _ hn]
    exact (recordOffsets_of_valid (h input offsets rfl)).at_last

theorem byteAt_le_succ {n i : Nat} (hi : i < n) : byteAt partition object n i ≤ byteAt partition object n (i + 1) := by
  cases partition with
  | byteRange input => exact cut_le_succ _ _ _
  | records input offsets => exact (recordOffsets_of_valid (h input offsets rfl)).le (cut_le_succ _ _ _) (cut_le hi)

theorem byteAt_le {n i : Nat} (hi : i ≤ n) : byteAt partition object n i ≤ object.sizeBytes.toNat := by
  cases partition with
  | byteRange input => exact cut_le hi
  | records input offsets =>
    have hoffsets := recordOffsets_of_valid (h input offsets rfl)
    rw [byteAt, ← hoffsets.at_last]
    exact hoffsets.le (cut_le hi) (Nat.le_refl _)

/-- With no more parts than units, no part is empty. -/
theorem byteAt_lt_succ {n i : Nat} (hi : i < n) (hn : n ≤ unitCount partition object) :
    byteAt partition object n i < byteAt partition object n (i + 1) := by
  have hpos : 0 < n := by omega
  cases partition with
  | byteRange input => exact cut_lt_succ hpos hn
  | records input offsets =>
    exact (recordOffsets_of_valid (h input offsets rfl)).lt (cut_lt_succ hpos hn) (cut_le hi)

end ByteAt

/-- Part `i` of `n` of the partitioned input. -/
structure PartAt (partition : ShardPartitionSpec) (object : ObjectMetadata) (n i : Nat) (part : TaskShardPartition) :
    Prop where
  input : part.inputByteRange partition.input = some part.bytes
  bytes : part.byteSpan = (byteAt partition object n i, byteAt partition object n (i + 1) - byteAt partition object n i)
  units : part.unitSpan = (cut (unitCount partition object) n i,
    cut (unitCount partition object) n (i + 1) - cut (unitCount partition object) n i)
  total : part.units.2.2.toNat = unitCount partition object

theorem partAt_of_concrete {template : TaskTemplate F} {partition : ShardPartitionSpec} {objects : Objects} {o : ObjectId}
    {object : ObjectMetadata} {n i : Nat} {part : TaskShardPartition} (hfit : OffsetsFit partition object) (hi : i < n)
    (hn : n < 2 ^ 32) (ho : template.inputs[partition.input]? = some o) (hobject : objects.lookup o = some object)
    (h : concretePartition template partition (UInt32.ofNat i) (UInt32.ofNat n) objects = some part) :
    PartAt partition object n i part := by
  have hin : (UInt32.ofNat i).toNat = i := UInt32.toNat_ofNat_of_lt' (by rw [UInt32.size]; omega)
  have hnn : (UInt32.ofNat n).toNat = n := UInt32.toNat_ofNat_of_lt' (by rw [UInt32.size]; omega)
  have hlt : UInt32.ofNat i < UInt32.ofNat n := UInt32.lt_iff_toNat_lt.mpr (by rw [hin, hnn]; exact hi)
  cases partition with
  | byteRange input =>
    change template.inputs[input]? = some o at ho
    obtain ⟨hstart, hlength⟩ := partitionBounds_cut object.sizeBytes hlt
    rw [hin, hnn] at hstart hlength
    rw [concretePartition_byteRange ho hobject] at h
    cases h
    have hspan : ((partitionBounds object.sizeBytes (UInt32.ofNat i) (UInt32.ofNat n)).1.toNat,
        (partitionBounds object.sizeBytes (UInt32.ofNat i) (UInt32.ofNat n)).2.toNat) =
        (cut object.sizeBytes.toNat n i, cut object.sizeBytes.toNat n (i + 1) - cut object.sizeBytes.toNat n i) := by
      rw [hstart, hlength]
    exact ⟨if_pos rfl, hspan, hspan, rfl⟩
  | records input offsets =>
    change template.inputs[input]? = some o at ho
    have hvalid := hfit input offsets rfl
    have hoffsets := recordOffsets_of_valid hvalid
    obtain ⟨recordStart, recordCount, offset, length, hpart, hspan⟩ := concretePartition_records ho hobject hvalid hlt
    rw [hpart] at h
    cases h
    obtain ⟨hstart, hcount, hfirst, stop, hlast, hsum⟩ := hspan
    rw [hin, hnn] at hstart hcount
    have hle := cut_le_succ (offsets.length - 1) n i
    have hoffset : offset.toNat = offsetAt offsets (cut (offsets.length - 1) n i) := by
      rw [← hstart, offsetAt_of_getElem? hfirst]
    have hstop : stop.toNat = offsetAt offsets (cut (offsets.length - 1) n (i + 1)) := by
      rw [← offsetAt_of_getElem? hlast]
      congr 1
      omega
    refine ⟨if_pos rfl, ?_, ?_, hoffsets.toNat_records⟩
    · show (offset.toNat, length.toNat) = _
      simp only [byteAt]
      rw [← hoffset, ← hstop, ← hsum, Nat.add_sub_cancel_left]
    · show (recordStart.toNat, recordCount.toNat) = _
      simp only [unitCount]
      rw [hstart, hcount]

variable [F64 F]

/-- The output that a part of something announces: the gap between two cuts of the whole output. -/
theorem PartAt.output {partition : ShardPartitionSpec} {object : ObjectMetadata} {n i : Nat} {part : TaskShardPartition}
    (h : PartAt partition object n i part) (hi : i < n) (hunits : 0 < unitCount partition object) (outputBytes : UInt64) :
    (part.scaledOutputBytes outputBytes).toNat =
      outputBytes.toNat * cut (unitCount partition object) n (i + 1) / unitCount partition object -
        outputBytes.toNat * cut (unitCount partition object) n i / unitCount partition object ∧
    checkedScaledOutputBytes part outputBytes = some (part.scaledOutputBytes outputBytes).toNat := by
  have hspan := h.units
  have htotal := h.total
  rcases hu : part.units with ⟨start, count, total⟩
  simp only [TaskShardPartition.unitSpan, hu, Prod.mk.injEq] at hspan htotal
  have hle := cut_le_succ (unitCount partition object) n i
  have hmax : cut (unitCount partition object) n (i + 1) ≤ unitCount partition object := cut_le hi
  have hpos : total ≠ 0 := by
    rintro rfl
    rw [UInt64.toNat_zero] at htotal
    omega
  have hvalue := scaledOutputBytes_within outputBytes hu (by omega) hpos
  rw [hspan.1, hspan.2, Nat.add_sub_of_le hle, htotal] at hvalue
  exact hvalue

/-- An empty whole has one part, which announces the whole output. -/
theorem PartAt.output_empty {partition : ShardPartitionSpec} {object : ObjectMetadata} {n i : Nat}
    {part : TaskShardPartition} (h : PartAt partition object n i part) (hunits : unitCount partition object = 0)
    (outputBytes : UInt64) : part.scaledOutputBytes outputBytes = outputBytes ∧
      checkedScaledOutputBytes part outputBytes = some (part.scaledOutputBytes outputBytes).toNat := by
  have htotal : part.units.2.2 = 0 := UInt64.toNat_inj.mp (h.total.trans hunits)
  have hvalue : part.scaledOutputBytes outputBytes = outputBytes := by rw [scaledOutputBytes_units, if_pos htotal]
  refine ⟨hvalue, ?_⟩
  rw [hvalue]
  rcases hu : part.units with ⟨start, count, total⟩
  rw [hu] at htotal
  unfold checkedScaledOutputBytes
  rw [hu]
  exact if_pos htotal

/-! ## Tilings -/

/-- What the parts of an automatic sharding are together. -/
structure AutoTiling (partition : ShardPartitionSpec) (object : ObjectMetadata) (parts : List TaskShardPartition) :
    Prop where
  /-- They are parts of the partitioned input. -/
  input : ∀ part ∈ parts, part.inputByteRange partition.input = some part.bytes
  /-- Their bytes follow each other from the first byte of the object to the last. -/
  bytes : Tiles 0 object.sizeBytes.toNat (parts.map (·.byteSpan))
  nonempty : object.sizeBytes ≠ 0 → ∀ part ∈ parts, 0 < part.byteSpan.2
  /-- The units (bytes, or records) follow each other, as equally many as possible. -/
  units : Tiles 0 (unitCount partition object) (parts.map (·.unitSpan))
  even : ∀ part ∈ parts, ∀ part' ∈ parts, part.unitSpan.2 ≤ part'.unitSpan.2 + 1
  /-- In record mode, a part begins and ends at the declared offsets of its records. -/
  offsets : ∀ input offsets, partition = .records input offsets → ∀ part ∈ parts,
    offsets[part.unitSpan.1]? = some part.bytes.1 ∧
    ∃ stop, offsets[part.unitSpan.1 + part.unitSpan.2]? = some stop ∧ part.byteSpan.1 + part.byteSpan.2 = stop.toNat
  /-- The announced outputs add up. -/
  output : ∀ outputBytes : UInt64,
    (parts.map fun part => (part.scaledOutputBytes outputBytes).toNat).sum = outputBytes.toNat

section Tiling

variable {partition : ShardPartitionSpec} {object : ObjectMetadata} {n : Nat} {parts : List TaskShardPartition}
  (hfit : OffsetsFit partition object) (hpos : 0 < n) (hn : n ≤ max 1 (unitCount partition object))
  (h : List.Forall₂ (PartAt partition object n) (List.range n) parts)

include h

theorem mem_parts {part : TaskShardPartition} (hpart : part ∈ parts) : ∃ i < n, PartAt partition object n i part := by
  obtain ⟨i, hi, hat⟩ := forall₂_mem_right h hpart
  exact ⟨i, List.mem_range.mp hi, hat⟩

include hfit hpos

theorem tiles_bytes : Tiles 0 object.sizeBytes.toNat (parts.map (·.byteSpan)) := by
  have htiles := tiles_gaps_range (f := byteAt partition object n) (n := n) fun k hk => byteAt_le_succ hfit hk
  rwa [byteAt_zero hfit, byteAt_self hfit hpos, ← map_eq_of_forall₂ (h.imp fun i part hat => hat.bytes)] at htiles

include hn

omit hfit in
/-- The sum telescopes. -/
theorem sum_output (outputBytes : UInt64) :
    (parts.map fun part => (part.scaledOutputBytes outputBytes).toNat).sum = outputBytes.toNat := by
  rcases Nat.eq_zero_or_pos (unitCount partition object) with hzero | hunits
  · obtain rfl : n = 1 := by omega
    cases h with
    | cons hat hrest =>
      cases hrest
      simp [(hat.output_empty hzero outputBytes).1]
  · let share (i : Nat) : Nat := outputBytes.toNat * cut (unitCount partition object) n i / unitCount partition object
    have hshare : List.Forall₂ (fun i part => (part.scaledOutputBytes outputBytes).toNat = share (i + 1) - share i)
        (List.range n) parts :=
      forall₂_imp_mem h fun i hi part _ hat => (hat.output (List.mem_range.mp hi) hunits outputBytes).1
    have htiles := tiles_gaps_range (f := share) (n := n) fun k _ =>
      Nat.div_le_div_right (Nat.mul_le_mul_left _ (cut_le_succ _ _ _))
    have hend : share n = outputBytes.toNat := by
      simp only [share, cut_self _ hpos]
      exact Nat.mul_div_cancel _ hunits
    have hstart : share 0 = 0 := by simp [share]
    have hsum := htiles.sum
    rw [hend, hstart, List.map_map] at hsum
    rw [map_eq_of_forall₂ hshare]
    exact hsum

theorem autoTiling : AutoTiling partition object parts where
  input part hpart := by
    obtain ⟨i, -, hat⟩ := mem_parts h hpart
    exact hat.input
  bytes := tiles_bytes hfit hpos h
  nonempty hsize part hpart := by
    obtain ⟨i, hi, hat⟩ := mem_parts h hpart
    have hunits : 1 ≤ unitCount partition object := by
      cases partition with
      | byteRange input => exact Nat.pos_iff_ne_zero.mpr fun h0 => hsize (UInt64.toNat_inj.mp h0)
      | records input offsets =>
        have htwo := (recordOffsets_of_valid (hfit input offsets rfl)).two
        simp only [unitCount]
        omega
    have hlt := byteAt_lt_succ hfit hi (by omega)
    rw [hat.bytes]
    show 0 < _ - _
    omega
  units := by
    have htiles := tiles_gaps_range (f := cut (unitCount partition object) n) (n := n) fun k _ => cut_le_succ _ _ _
    rwa [cut_zero, cut_self _ hpos, ← map_eq_of_forall₂ (h.imp fun i part hat => hat.units)] at htiles
  even part hpart part' hpart' := by
    obtain ⟨i, -, hat⟩ := mem_parts h hpart
    obtain ⟨i', -, hat'⟩ := mem_parts h hpart'
    have hgap := cut_gap (unitCount partition object) i hpos
    have hgap' := cut_gap (unitCount partition object) i' hpos
    rw [hat.units, hat'.units]
    dsimp only
    omega
  offsets input offsets hpartition part hpart := by
    obtain ⟨i, hi, hat⟩ := mem_parts h hpart
    subst hpartition
    have hvalid := recordOffsets_of_valid (hfit input offsets rfl)
    have hle := cut_le_succ (offsets.length - 1) n i
    have hmax : cut (offsets.length - 1) n (i + 1) ≤ offsets.length - 1 := cut_le hi
    obtain ⟨first, hfirst, hat_first⟩ := hvalid.getElem?_of_le (i := cut (offsets.length - 1) n i) (by omega)
    obtain ⟨stop, hstop, hat_stop⟩ := hvalid.getElem?_of_le (i := cut (offsets.length - 1) n (i + 1)) hmax
    have hbytes := Prod.mk.inj hat.bytes
    have hunits : part.unitSpan.1 = cut (offsets.length - 1) n i ∧
        part.unitSpan.2 = cut (offsets.length - 1) n (i + 1) - cut (offsets.length - 1) n i := Prod.mk.inj hat.units
    have hspan := byteAt_le_succ hfit hi
    simp only [byteAt] at hbytes hspan
    refine ⟨?_, stop, ?_, ?_⟩
    · rw [hunits.1, hfirst]
      exact congrArg some (UInt64.toNat_inj.mp (hat_first.symm.trans hbytes.1.symm))
    · rw [hunits.1, hunits.2, Nat.add_sub_of_le hle, hstop]
    · show part.bytes.1.toNat + part.bytes.2.toNat = _
      rw [hbytes.1, hbytes.2, ← hat_stop]
      omega
  output := sum_output hpos hn h

end Tiling

/-! ## Automatic shards -/

/-- The shard gets this part, and announces its share of the output of the template it comes from. -/
structure ShardWith (role : LogicalRoleSpec F) (count : UInt32) (shard : ReadyShardSelection F)
    (part : TaskShardPartition) : Prop where
  place : shard.task.shard = some ⟨shard.index, count, some part⟩
  output : ∃ implementation ∈ role.implementations,
    shard.task.cost.outputBytes = part.scaledOutputBytes implementation.task.cost.outputBytes

/-- Every machine operation of the partition has its mathematical result. -/
structure NoOverflow (partition : ShardPartitionSpec) (object : ObjectMetadata) (parts : List TaskShardPartition) :
    Prop where
  records : ∀ input offsets, partition = .records input offsets →
    (minus offsets.length 1).bind (fits 64) = some (unitCount partition object)
  cap : fits 32 (min (unitCount partition object) (2 ^ 32 - 1)) = some (min (unitCount partition object) (2 ^ 32 - 1))
  bounds : ∀ i part, parts[i]? = some part →
    checkedPartitionBounds (UInt64.ofNat (unitCount partition object)) (UInt32.ofNat i) (UInt32.ofNat parts.length) =
      some part.unitSpan
  output : ∀ part ∈ parts, ∀ outputBytes : UInt64,
    checkedScaledOutputBytes part outputBytes = some (part.scaledOutputBytes outputBytes).toNat

theorem unitCount_lt {partition : ShardPartitionSpec} {object : ObjectMetadata} (hfit : OffsetsFit partition object) :
    unitCount partition object < 2 ^ 64 := by
  have hsize := object.sizeBytes.toNat_lt
  cases partition with
  | byteRange input => exact hsize
  | records input offsets => exact Nat.lt_of_le_of_lt (recordOffsets_of_valid (hfit input offsets rfl)).length_le hsize

theorem noOverflow {partition : ShardPartitionSpec} {object : ObjectMetadata} {n : Nat}
    {parts : List TaskShardPartition} (hfit : OffsetsFit partition object) (hn : n < 2 ^ 32)
    (h : List.Forall₂ (PartAt partition object n) (List.range n) parts) : NoOverflow partition object parts where
  records input offsets hpartition := by
    have hlt := unitCount_lt hfit
    subst hpartition
    have htwo := (recordOffsets_of_valid (hfit input offsets rfl)).two
    rw [minus_of_le (by omega), Option.bind_some]
    exact fits_of_lt hlt
  cap := fits_of_lt (by omega)
  bounds i part hpart := by
    have hlength : parts.length = n := by rw [← h.length_eq, List.length_range]
    have hi : i < n := by
      rw [← hlength]
      exact (List.getElem?_eq_some_iff.mp hpart).1
    have hat : PartAt partition object n i part := by
      obtain ⟨hlt, rfl⟩ := List.getElem?_eq_some_iff.mp hpart
      have := h.get (by simpa using hi) hlt
      simpa using this
    have hin : (UInt32.ofNat i).toNat = i := UInt32.toNat_ofNat_of_lt' (by rw [UInt32.size]; omega)
    have hnn : (UInt32.ofNat n).toNat = n := UInt32.toNat_ofNat_of_lt' (by rw [UInt32.size]; omega)
    have hunits : (UInt64.ofNat (unitCount partition object)).toNat = unitCount partition object :=
      UInt64.toNat_ofNat_of_lt' (by rw [UInt64.size]; exact unitCount_lt hfit)
    have hlt : UInt32.ofNat i < UInt32.ofNat n := UInt32.lt_iff_toNat_lt.mpr (by rw [hin, hnn]; exact hi)
    rw [hlength, checkedPartitionBounds_eq hlt, (partitionBounds_cut _ hlt).1, (partitionBounds_cut _ hlt).2, hin, hnn,
      hunits, hat.units]
  output part hpart outputBytes := by
    obtain ⟨i, hi, hat⟩ := mem_parts h hpart
    rcases Nat.eq_zero_or_pos (unitCount partition object) with hzero | hunits
    · exact (hat.output_empty hzero outputBytes).2
    · exact (hat.output hi hunits outputBytes).2

/-- A shard that an automatic policy draws up gets its part of the input. -/
theorem ShardDrawn.part {e : Env} {role : LogicalRoleSpec F} {dependencyInputs : List ObjectId}
    {policy : AutoShardPolicy F} {objects : Objects} {n i : Nat} {shard : ReadyShardSelection F} {o : ObjectId}
    {object : ObjectMetadata}
    (hinputs : ∀ implementation ∈ role.implementations, implementation.task.inputs[policy.partition.input]? = some o)
    (hobject : objects.lookup o = some object) (hfit : OffsetsFit policy.partition object) (hi : i < n) (hn : n < 2 ^ 32)
    (h : ShardDrawn e role dependencyInputs (UInt32.ofNat n) (some policy) objects i shard) :
    ∃ part, PartAt policy.partition object n i part ∧ ShardWith role (UInt32.ofNat n) shard part := by
  obtain ⟨implementation, hmem, k, htask⟩ := h.task
  obtain ⟨part, hpart, hmade⟩ := Option.map_eq_some_iff.mp htask
  refine ⟨part, partAt_of_concrete hfit hi hn (hinputs implementation hmem) hobject hpart, ?_, implementation, hmem, ?_⟩
  · rw [← hmade, h.index]
  · rw [← hmade]
    rfl

/-- **Automatic shards tile their input.** -/
theorem auto_shards_tile {spec : LogicalJobSpec F} (hjob : validateLogicalJob spec = .ok ()) {role : LogicalRoleSpec F}
    (hrole : role ∈ spec.roles) {policy : AutoShardPolicy F} (hauto : role.shards.auto = some policy) {e : Env}
    {dependencyInputs : List ObjectId} {context : ShardPlanningContext F} {selected : List (ReadyShardSelection F)}
    (h : selectReadyShards e role dependencyInputs context = some selected) :
    ∃ o object count parts,
      (∀ implementation ∈ role.implementations, implementation.task.inputs[policy.partition.input]? = some o) ∧
      context.objects.lookup o = some object ∧
      1 ≤ selected.length ∧ selected.length ≤ min policy.maxShards.toNat (max 1 (unitCount policy.partition object)) ∧
      count.toNat = selected.length ∧ selected.map (·.index.toNat) = List.range selected.length ∧
      List.Forall₂ (ShardWith role count) selected parts ∧ AutoTiling policy.partition object parts ∧
      NoOverflow policy.partition object parts := by
  have hvalid := validateLogicalJob_role hjob hrole
  obtain ⟨o, hhead, hinputs⟩ := partitionInput_of_valid hvalid hauto
  have hshards : role.shards = .policy (.auto policy) := by
    cases hs : role.shards with
    | fixed count =>
      rw [hs] at hauto
      cases hauto
    | policy spec =>
      rw [hs] at hauto
      cases spec
      cases hauto
      rfl
  simp only [selectReadyShards, chooseRoleShards, hshards] at h
  obtain ⟨units, n, hunits, hpos, hmax, hchosen⟩ := chooseAutoShards_chosen (Prod.ext h rfl)
  obtain ⟨object, hobject, hfit, hcount⟩ := partitionUnits_some hhead hunits
  have hn := Nat.lt_of_le_of_lt hmax (maxAutoShards policy units).toNat_lt
  have hnn : (UInt32.ofNat n).toNat = n := UInt32.toNat_ofNat_of_lt' (by rw [UInt32.size]; omega)
  have hdrawn := chooseShardsLoop_drawn hchosen
  rw [hnn] at hdrawn
  have hlength : selected.length = n := by rw [← hdrawn.length_eq, List.length_range]
  obtain ⟨parts, hleft, hright⟩ := forall₂_exists (forall₂_imp_mem hdrawn fun i hi shard _ hshard =>
    hshard.part hinputs hobject hfit (List.mem_range.mp hi) hn)
  have hparts : List.Forall₂ (PartAt policy.partition object n) (List.range n) parts :=
    hleft.imp fun i part hpart => hpart.elim fun _ h => h.1
  have hbound : n ≤ min policy.maxShards.toNat (max 1 (unitCount policy.partition object)) := by
    rw [← hcount]
    rwa [← maxAutoShards_eq hvalid hauto]
  have hindexes : selected.map (·.index.toNat) = List.range n := by
    refine map_eq_of_forall₂ (f := id) (forall₂_imp_mem hdrawn fun i hi shard _ hshard => ?_) |>.trans (List.map_id _)
    have := List.mem_range.mp hi
    rw [hshard.index, UInt32.toNat_ofNat_of_lt' (by rw [UInt32.size]; omega)]
    rfl
  refine ⟨o, object, UInt32.ofNat n, parts, hinputs, hobject, ?_⟩
  rw [hlength]
  exact ⟨hpos, hbound, hnn, hindexes, hright.imp fun shard part hshard => hshard.elim fun _ h => h.2,
    autoTiling hfit hpos (by omega) hparts, noOverflow hfit hn hparts⟩

/-- Two resources, one of which holds the object, and a link between them. -/
def splitContext : ShardPlanningContext ℚ where
  scheduler := .default
  resources := [Sample.resource 1, Sample.resource 2]
  objects := (∅ : Objects).insert ⟨8⟩ tenBytes
  topology := ⟨[⟨⟨1⟩, ⟨2⟩, 0, 1000⟩]⟩

theorem auto_shards_tile_split : ∃ selected parts,
    selectReadyShards (Env.numbered fun _ => 0) splitRole [] splitContext = some selected ∧ selected.length = 2 ∧
      AutoTiling (.records 0 [0, 4, 10]) tenBytes parts := by
  have hlength : (selectReadyShards (Env.numbered fun _ => 0) splitRole [] splitContext).map (·.length) = some 2 := by
    decide +kernel
  obtain ⟨selected, hselected, htwo⟩ := Option.map_eq_some_iff.mp hlength
  have hjob : validateLogicalJob (⟨⟨1⟩, [splitRole], ["split"]⟩ : LogicalJobSpec ℚ) = .ok () := by decide +kernel
  obtain ⟨o, object, count, parts, hinputs, hobject, -, -, -, -, -, htiling, -⟩ :=
    auto_shards_tile hjob (List.mem_singleton_self _) rfl hselected
  have ho : some (⟨8⟩ : ObjectId) = some o := hinputs _ (List.mem_singleton_self _)
  cases ho
  have hten : some tenBytes = some object := hobject
  cases hten
  exact ⟨selected, parts, hselected, htwo, htiling⟩

end Plurifold
