import Mathlib.Data.Finset.Basic
import Mathlib.Algebra.Order.Ring.Rat
import Plurifold.Lib.Env
import Plurifold.Lib.Map

/-!
# The data model (`plurifold-core`)

Identifiers, resources, tasks, job specifications, object metadata, links and leases.

Costs and link measurements are `f64` in the source. The model is over any carrier `F` with the operations the source
applies to them (`F64 F`) and assumes no law about these, so what is proved of an arbitrary `F` holds of IEEE numbers,
NaN and infinities included; the reading of costs as exact rationals is the instance on `ℚ`. Fixed-width integers are
Lean's, `usize` counts and indexes are `Nat`. A set of features is a `Finset`.
-/

namespace Plurifold

open Lib

/-! ## Floating point -/

/-- The operations on `f64` that the source uses. -/
class F64 (F : Type) extends Add F, Sub F, Mul F, Div F where
  /-- Integer literals and `as f64`. -/
  ofNat : Nat → F
  infinity : F
  lt : F → F → Bool
  le : F → F → Bool
  eq : F → F → Bool
  max : F → F → F
  totalCmp : F → F → Ordering
  isFinite : F → Bool

/-- Exact rationals. `f64::INFINITY` is read as `2 ^ 1024`, the first power of two beyond the finite `f64`. -/
instance : F64 ℚ where
  ofNat n := n
  infinity := 2 ^ 1024
  lt a b := decide (a < b)
  le a b := decide (a ≤ b)
  eq a b := decide (a = b)
  max a b := if a < b then b else a
  totalCmp a b := compareOfLessAndEq a b
  isFinite _ := true

/-! ## Identifiers -/

/-- Hexadecimal digits, padded to a width. -/
def hexDigits (width n : Nat) : String :=
  String.ofList ((List.range width).map fun i => Nat.digitChar (n / 16 ^ (width - 1 - i) % 16))

/-- A UUID as it is printed, `8-4-4-4-12` hexadecimal digits. -/
def showUuid (n : Nat) : String :=
  hexDigits 8 (n / 2 ^ 96) ++ "-" ++ hexDigits 4 (n / 2 ^ 80) ++ "-" ++ hexDigits 4 (n / 2 ^ 64) ++ "-" ++
    hexDigits 4 (n / 2 ^ 48) ++ "-" ++ hexDigits 12 n

structure TaskId where
  uuid : Nat
  deriving DecidableEq

structure JobId where
  uuid : Nat
  deriving DecidableEq

structure ObjectId where
  uuid : Nat
  deriving DecidableEq

structure ResourceId where
  uuid : Nat
  deriving DecidableEq

structure ExecutionId where
  uuid : Nat
  deriving DecidableEq

def TaskId.new (e : Env) : TaskId := ⟨e.newUuid⟩

def ObjectId.new (e : Env) : ObjectId := ⟨e.newUuid⟩

def ExecutionId.new (e : Env) : ExecutionId := ⟨e.newUuid⟩

instance : ToString TaskId := ⟨fun t => showUuid t.uuid⟩

instance : ToString ObjectId := ⟨fun o => showUuid o.uuid⟩

/-! ## Text -/

/-- `char::is_whitespace`: the Unicode property `White_Space`. -/
def isWhitespace (c : Char) : Bool :=
  let n := c.toNat
  (9 ≤ n && n ≤ 13) || n = 0x20 || n = 0x85 || n = 0xA0 || n = 0x1680 || (0x2000 ≤ n && n ≤ 0x200A) ||
    n = 0x2028 || n = 0x2029 || n = 0x202F || n = 0x205F || n = 0x3000

/-- `str::trim`. -/
def trim (text : List Char) : List Char := ((text.dropWhile isWhitespace).reverse.dropWhile isWhitespace).reverse

/-! ## Resources -/

inductive Architecture
  | x86_64
  | aarch64
  | riscV64
  | other (name : String)
  deriving DecidableEq

inductive AcceleratorKind
  | nvidiaGpu
  | amdGpu
  | ascendNpu
  | tpu
  | fpga
  | other (name : String)
  deriving DecidableEq

structure Accelerator where
  kind : AcceleratorKind
  count : UInt32
  memoryBytesPerDevice : UInt64

structure AcceleratorRequirement where
  kind : AcceleratorKind
  minCount : UInt32
  minMemoryBytesPerDevice : UInt64
  deriving DecidableEq

structure ResourceRequirements where
  architecture : Option Architecture := none
  minMemoryBytes : UInt64 := 0
  accelerator : Option AcceleratorRequirement := none
  requiredFeatures : Finset String := ∅
  deriving DecidableEq

structure ResourceDescriptor (F : Type) where
  id : ResourceId
  /-- Incremented whenever a logical resource agent re-registers. -/
  epoch : UInt64
  architecture : Architecture
  memoryBytes : UInt64
  accelerators : List Accelerator
  features : Finset String
  /-- Relative to a reference machine. -/
  performanceScore : F
  queueDelayMs : F
  startupDelayMs : F
  failureProbability : F

def ResourceDescriptor.supports {F : Type} [F64 F] (self : ResourceDescriptor F) (requirements : ResourceRequirements) :
    Bool :=
  !(F64.le self.performanceScore (F64.ofNat 0)) && decide (requirements.minMemoryBytes ≤ self.memoryBytes) &&
    (match requirements.architecture with
      | some architecture => decide (self.architecture = architecture)
      | none => true) &&
    decide (requirements.requiredFeatures ⊆ self.features) &&
    (match requirements.accelerator with
      | some required => self.accelerators.any fun candidate =>
          decide (candidate.kind = required.kind) && decide (required.minCount ≤ candidate.count) &&
            decide (required.minMemoryBytesPerDevice ≤ candidate.memoryBytesPerDevice)
      | none => true)

/-! ## Tasks -/

inductive EffectSemantics
  | pure
  | idempotent (key : String)
  /-- Not replay-safe: no automatic retry after an ambiguous loss. -/
  | exclusive
  deriving DecidableEq

def EffectSemantics.automaticallyRetryable : EffectSemantics → Bool
  | .pure | .idempotent _ => true
  | .exclusive => false

structure CostHint (F : Type) where
  computeMsOnReference : F
  outputBytes : UInt64
  deriving DecidableEq

inductive TaskShardPartition
  | byteRange (input : Nat) (offset length totalBytes : UInt64)
  | records (input : Nat) (recordStart recordCount totalRecords offset length totalBytes : UInt64)
  deriving DecidableEq

def TaskShardPartition.inputByteRange (self : TaskShardPartition) (inputIndex : Nat) : Option (UInt64 × UInt64) :=
  match self with
  | .byteRange input offset length _ | .records input _ _ _ offset length _ =>
    if input = inputIndex then some (offset, length) else none

def fraction {F : Type} [F64 F] (part total : UInt64) : F :=
  if total = 0 then F64.ofNat 1 else F64.ofNat part.toNat / F64.ofNat total.toNat

def TaskShardPartition.workFraction {F : Type} [F64 F] : TaskShardPartition → F
  | .byteRange _ _ length totalBytes => fraction length totalBytes
  | .records _ _ recordCount totalRecords _ _ _ => fraction recordCount totalRecords

/-- The share of the output that falls on this part, in 128-bit arithmetic rounded down at both ends. -/
def TaskShardPartition.scaledOutputBytes (self : TaskShardPartition) (totalOutputBytes : UInt64) : UInt64 :=
  let (start, count, total) := match self with
    | .byteRange _ offset length totalBytes => (offset, length, totalBytes)
    | .records _ recordStart recordCount totalRecords _ _ _ => (recordStart, recordCount, totalRecords)
  if total = 0 then totalOutputBytes
  else
    let outputStart := totalOutputBytes.toNat * start.toNat / total.toNat
    let outputEnd := totalOutputBytes.toNat * (start + count).toNat / total.toNat
    UInt64.ofNat (outputEnd + 2 ^ 128 - outputStart)

structure TaskShard where
  index : UInt32
  count : UInt32
  partition : Option TaskShardPartition
  deriving DecidableEq

inductive PipelineInput
  | external (index : Nat)
  | previousOutput
  deriving DecidableEq

structure TaskPipelineStage where
  artifact : String
  entrypoint : String
  arguments : List String
  inputs : List PipelineInput
  deriving DecidableEq

structure TaskPipeline where
  stages : List TaskPipelineStage
  deriving DecidableEq

structure TaskSpec (F : Type) where
  id : TaskId
  artifact : String
  entrypoint : String
  arguments : List String
  inputs : List ObjectId
  requirements : ResourceRequirements
  effects : EffectSemantics
  cost : CostHint F
  shard : Option TaskShard
  pipeline : Option TaskPipeline

def TaskSpec.inputByteRange {F : Type} (self : TaskSpec F) (inputIndex : Nat) : Option (UInt64 × UInt64) := do
  let shard ← self.shard
  let partition ← shard.partition
  partition.inputByteRange inputIndex

structure TaskTemplate (F : Type) where
  artifact : String
  entrypoint : String
  arguments : List String
  inputs : List ObjectId
  requirements : ResourceRequirements
  effects : EffectSemantics
  cost : CostHint F
  deriving DecidableEq

def TaskTemplate.instantiate {F : Type} (e : Env) (self : TaskTemplate F) (dependencyInputs : List ObjectId) :
    TaskSpec F where
  id := TaskId.new e
  artifact := self.artifact
  entrypoint := self.entrypoint
  arguments := self.arguments
  inputs := self.inputs ++ dependencyInputs
  requirements := self.requirements
  effects := self.effects
  cost := self.cost
  shard := none
  pipeline := none

/-! ## Jobs -/

structure CooperativeRoleSpec (F : Type) where
  name : String
  task : TaskTemplate F
  dependsOn : List String
  deriving DecidableEq

structure CooperativeJobSpec (F : Type) where
  id : JobId
  roles : List (CooperativeRoleSpec F)
  /-- The outputs of these roles form the result of the job. -/
  outputs : List String
  deriving DecidableEq

structure RoleImplementation (F : Type) where
  name : String
  task : TaskTemplate F
  deriving DecidableEq

inductive ShardPartitionSpec
  | byteRange (input : Nat)
  /-- Every record start plus the final object length. -/
  | records (input : Nat) (offsets : List UInt64)
  deriving DecidableEq

def ShardPartitionSpec.input : ShardPartitionSpec → Nat
  | .byteRange input | .records input _ => input

structure AutoShardPolicy (F : Type) where
  maxShards : UInt32
  partition : ShardPartitionSpec
  perShardOverheadMs : F
  minGainRatio : F
  deriving DecidableEq

inductive ShardPolicySpec (F : Type)
  | auto (policy : AutoShardPolicy F)
  deriving DecidableEq

inductive ShardPolicy (F : Type)
  | fixed (count : UInt32)
  | policy (spec : ShardPolicySpec F)
  deriving DecidableEq

def ShardPolicy.fixedCount {F : Type} : ShardPolicy F → Option UInt32
  | .fixed count => some count
  | .policy _ => none

def ShardPolicy.auto {F : Type} : ShardPolicy F → Option (AutoShardPolicy F)
  | .policy (.auto auto) => some auto
  | .fixed _ => none

def ShardPolicy.mayFanOut {F : Type} : ShardPolicy F → Bool
  | .fixed count => decide (1 < count)
  | .policy (.auto _) => true

structure RoleReductionSpec (F : Type) where
  name : String
  task : TaskTemplate F
  maxFanIn : UInt32
  localityRttMs : F
  deriving DecidableEq

structure LogicalRoleSpec (F : Type) where
  name : String
  implementations : List (RoleImplementation F)
  dependsOn : List String
  shards : ShardPolicy F
  reduction : Option (RoleReductionSpec F)
  deriving DecidableEq

structure LogicalJobSpec (F : Type) where
  id : JobId
  roles : List (LogicalRoleSpec F)
  outputs : List String
  deriving DecidableEq

inductive JobDefinition (F : Type)
  | cooperative (spec : CooperativeJobSpec F)
  | logical (spec : LogicalJobSpec F)
  deriving DecidableEq

/-! ## Objects, links and leases -/

structure ObjectMetadata where
  id : ObjectId
  sizeBytes : UInt64
  digest : Option String
  encoding : Option String
  locations : List ResourceId
  producer : Option TaskId
  deriving DecidableEq

def ObjectMetadata.isLocalTo (self : ObjectMetadata) (resource : ResourceId) : Bool := self.locations.contains resource

structure LinkProfile (F : Type) where
  fromResource : ResourceId
  toResource : ResourceId
  rttMs : F
  bandwidthMbps : F

def LinkProfile.transferTimeMs {F : Type} [F64 F] (self : LinkProfile F) (bytes : UInt64) : Option F :=
  if F64.le self.bandwidthMbps (F64.ofNat 0) || F64.lt self.rttMs (F64.ofNat 0) then none
  else
    let bytesPerMs := self.bandwidthMbps * F64.ofNat 1000000 / F64.ofNat 8 / F64.ofNat 1000
    some (self.rttMs + F64.ofNat bytes.toNat / bytesPerMs)

structure TopologySnapshot (F : Type) where
  links : List (LinkProfile F)

def TopologySnapshot.link {F : Type} (self : TopologySnapshot F) (a b : ResourceId) : Option (LinkProfile F) :=
  self.links.find? fun link =>
    (decide (link.fromResource = a) && decide (link.toResource = b)) ||
      (decide (link.fromResource = b) && decide (link.toResource = a))

def TopologySnapshot.transferTimeMs {F : Type} [F64 F] (self : TopologySnapshot F) (a b : ResourceId) (bytes : UInt64) :
    Option F :=
  if a = b then some (F64.ofNat 0) else (self.link a b).bind fun link => link.transferTimeMs bytes

structure MembershipLease where
  resourceId : ResourceId
  epoch : UInt64
  expiresAtUnixMs : UInt64
  deriving DecidableEq

structure ExecutionLease where
  taskId : TaskId
  executionId : ExecutionId
  resourceId : ResourceId
  resourceEpoch : UInt64
  expiresAtUnixMs : UInt64
  deriving DecidableEq

end Plurifold
