import Plurifold.Agent.Transfer
import Plurifold.Fabric.Tiling
import Plurifold.Lib.Utf8
import Mathlib.Algebra.BigOperators.Ring.Finset
import Mathlib.Data.ENat.Basic

/-!
# Sharded sums of records

The sum of the records of an object, computed by `builtin:sum-records-u64` on the parts of the object and by
`builtin:sum-u64` up any tree that `reductionGroups` builds, is what `builtin:sum-records-u64` computes on the whole
object (`sharded_sum_eq_sequential`).

Every execution is compared with a total in `ℕ∞`, where a record that cannot be read counts as `⊤`: it succeeds if and
only if the total is a `u64` (`Computes`). Totals add up without overflow, so the order and the shape of the additions
do not matter.
-/

namespace Plurifold

open Lib

/-! ## Lines -/

theorem splitInclusive_ne_nil {separator c : Char} {rest : List Char} : splitInclusive separator (c :: rest) ≠ [] := by
  rw [splitInclusive]
  split
  · simp
  · split <;> simp

/-- A text that ends with a separator is split on its own. -/
theorem splitInclusive_append {separator : Char} (after : List Char) : ∀ {before : List Char},
    before.getLast? = some separator →
    splitInclusive separator (before ++ after) = splitInclusive separator before ++ splitInclusive separator after
  | [], h => by cases h
  | [c], h => by
    have hc : c = separator := by simpa using h
    simp [splitInclusive, hc]
  | c :: d :: before, h => by
    have hlast : (d :: before).getLast? = some separator := h
    have ih := splitInclusive_append after hlast
    rw [List.cons_append, splitInclusive, splitInclusive, ih]
    by_cases hc : c = separator
    · simp [hc]
    · simp only [if_neg hc]
      cases hpieces : splitInclusive separator (d :: before) with
      | nil => exact absurd hpieces splitInclusive_ne_nil
      | cons piece pieces => rfl

theorem lines_append {before : List Char} (after : List Char) (h : before.getLast? = some '\n') :
    lines (before ++ after) = lines before ++ lines after := by
  rw [lines, splitInclusive_append after h, List.map_append]
  rfl

/-! ## Totals -/

/-- What a line adds to the total. -/
def recordValue (line : List Char) : ℕ∞ :=
  let record := trim line
  if record.isEmpty then 0
  else
    match parseU64 record with
    | none => ⊤
    | some value => value.toNat

/-- The total of the records of an object. -/
def recordTotal (bytes : Bytes) : ℕ∞ :=
  match decode bytes with
  | none => ⊤
  | some text => ((lines text).map recordValue).sum

/-- The total of bytes that end with a line feed is counted on its own. -/
theorem recordTotal_append {a : Bytes} (b : Bytes) (h : a.getLast? = some 10) :
    recordTotal (a ++ b) = recordTotal a + recordTotal b := by
  have hsplit : ∀ text, decode (a ++ b) = some text ↔
      ∃ before after, decode a = some before ∧ decode b = some after ∧ text = before ++ after :=
    fun _ => decode_append (by decide) h
  have hlast : ∀ text, decode a = some text → text.getLast? = some '\n' := by
    intro text htext
    rw [decode_eq_some] at htext
    rw [htext] at h
    obtain ⟨c, hc, hvalue⟩ := getLast?_of_encode (by decide) h
    rw [hc]
    congr 1
    exact Char.toNat_inj.mp hvalue
  unfold recordTotal
  cases ha : decode a with
  | none =>
    cases hab : decode (a ++ b) with
    | none => simp
    | some text =>
      obtain ⟨before, after, hbefore, -, -⟩ := (hsplit text).mp hab
      rw [ha] at hbefore
      cases hbefore
  | some before =>
    cases hb : decode b with
    | none =>
      cases hab : decode (a ++ b) with
      | none => simp
      | some text =>
        obtain ⟨before, after, -, hafter, -⟩ := (hsplit text).mp hab
        rw [hb] at hafter
        cases hafter
    | some after =>
      rw [(hsplit _).mpr ⟨before, after, ha, hb, rfl⟩]
      simp only [lines_append after (hlast before ha), List.map_append, List.sum_append]

theorem recordTotal_nil : recordTotal [] = 0 := by
  have h : decode [] = some [] := decode_eq_some.mpr rfl
  simp [recordTotal, h, lines, splitInclusive]

/-- Pieces that end with a line feed, except for the last, are counted on their own. -/
theorem recordTotal_flatten : ∀ {pieces : List Bytes}, (∀ piece ∈ pieces.dropLast, piece.getLast? = some 10) →
    recordTotal pieces.flatten = (pieces.map recordTotal).sum
  | [], _ => by simp [recordTotal_nil]
  | [piece], _ => by simp
  | piece :: next :: pieces, h => by
    have ih : recordTotal (next :: pieces).flatten = ((next :: pieces).map recordTotal).sum :=
      recordTotal_flatten fun p hp => h p (List.mem_cons_of_mem _ hp)
    rw [List.flatten_cons, recordTotal_append _ (h piece (List.mem_cons_self ..)), ih, ← List.sum_cons,
      ← List.map_cons]

/-! ## Little-endian numbers -/

theorem length_toLeBytes (value : UInt64) : (toLeBytes value).length = 8 := by simp [toLeBytes]

/-- The lowest `k` digits of a number in base 256 give it back up to higher ones. -/
theorem foldr_digits : ∀ k n : Nat, ((List.range k).map fun i => UInt8.ofNat (n / 256 ^ i)).foldr
    (fun byte value => byte.toNat + 256 * value) 0 = n % 256 ^ k
  | 0, n => by simp [Nat.mod_one]
  | k + 1, n => by
    have hshift : (fun i => UInt8.ofNat (n / 256 ^ i)) ∘ Nat.succ = fun i => UInt8.ofNat (n / 256 / 256 ^ i) := by
      funext i
      rw [Function.comp_apply, Nat.succ_eq_add_one, Nat.pow_succ', Nat.div_div_eq_div_mul]
    rw [List.range_succ_eq_map, List.map_cons, List.map_map, hshift, List.foldr_cons, foldr_digits k, UInt8.toNat_ofNat',
      Nat.pow_zero, Nat.div_one, show 256 ^ (k + 1) = 256 * 256 ^ k from Nat.pow_succ', Nat.mod_mul]

theorem fromLeBytes_toLeBytes (value : UInt64) : fromLeBytes (toLeBytes value) = value := by
  have hlt : value.toNat < 256 ^ 8 := value.toNat_lt
  rw [fromLeBytes, toLeBytes, foldr_digits, Nat.mod_eq_of_lt hlt, UInt64.ofNat_toNat]

/-! ## Executions and totals -/

/-- The execution succeeds if and only if the total is a `u64`, and with its bytes. -/
def Computes (result : Execution) (total : ℕ∞) : Prop :=
  ∀ bytes, result = .ok bytes ↔ ∃ value : UInt64, total = value.toNat ∧ bytes = toLeBytes value

/-- A checked addition goes through if and only if the sum is a `u64`. -/
theorem checkedAdd_cases (a b : UInt64) :
    (a.toNat + b.toNat < 2 ^ 64 ∧ checkedAdd a b = some (a + b) ∧ (a + b).toNat = a.toNat + b.toNat) ∨
      (2 ^ 64 ≤ a.toNat + b.toNat ∧ checkedAdd a b = none) := by
  unfold checkedAdd
  by_cases h : a.toNat + b.toNat < 2 ^ 64
  · refine .inl ⟨h, if_pos h, ?_⟩
    rw [UInt64.toNat_add]
    exact Nat.mod_eq_of_lt h
  · exact .inr ⟨Nat.not_lt.mp h, if_neg h⟩

/-- A total above a number is none of the numbers below it. -/
theorem ne_of_overflow {n : Nat} (h : 2 ^ 64 ≤ n) (rest : ℕ∞) (value : UInt64) : (n : ℕ∞) + rest ≠ value.toNat := by
  intro heq
  have hle : (n : ℕ∞) ≤ value.toNat := heq ▸ le_self_add
  have hlt := value.toNat_lt
  have : n ≤ value.toNat := by exact_mod_cast hle
  omega

/-- The loop over the records succeeds if and only if the total is a `u64`. -/
theorem sumRecords_ok : ∀ {lines : List (List Char)} {sum value : UInt64},
    sumRecords sum lines = .ok value ↔ (sum.toNat : ℕ∞) + (lines.map recordValue).sum = value.toNat
  | [], sum, value => by
    simp only [sumRecords, List.map_nil, List.sum_nil, add_zero, Except.ok.injEq, Nat.cast_inj, UInt64.toNat_inj]
  | line :: rest, sum, value => by
    rw [sumRecords, List.map_cons, List.sum_cons]
    by_cases hempty : (trim line).isEmpty = true
    · have hvalue : recordValue line = 0 := if_pos hempty
      rw [if_pos hempty, hvalue, zero_add]
      exact sumRecords_ok
    · rw [if_neg hempty]
      cases hparse : parseU64 (trim line) with
      | none =>
        have hvalue : recordValue line = ⊤ := by simp [recordValue, hempty, hparse]
        simp [hvalue]
      | some record =>
        have hvalue : recordValue line = record.toNat := by simp [recordValue, hempty, hparse]
        rw [hvalue, ← add_assoc, ← Nat.cast_add]
        rcases checkedAdd_cases sum record with ⟨-, hadd, hsum⟩ | ⟨hover, hadd⟩
        · simp only [hadd]
          rw [sumRecords_ok, hsum]
        · simp only [hadd]
          exact iff_of_false (by simp) (ne_of_overflow hover _ _)

/-- The loop over the inputs succeeds if and only if the sum is a `u64`. -/
theorem sumInputs_ok : ∀ {values : List UInt64} {sum value : UInt64},
    sumInputs sum (values.map toLeBytes) = .ok value ↔ sum.toNat + (values.map (·.toNat)).sum = value.toNat
  | [], sum, value => by
    simp only [List.map_nil, sumInputs, List.sum_nil, Nat.add_zero, Except.ok.injEq, UInt64.toNat_inj]
  | first :: rest, sum, value => by
    rw [List.map_cons, sumInputs, if_neg (by simp [length_toLeBytes]), fromLeBytes_toLeBytes, List.map_cons,
      List.sum_cons, ← Nat.add_assoc]
    rcases checkedAdd_cases sum first with ⟨-, hadd, hsum⟩ | ⟨hover, hadd⟩
    · simp only [hadd]
      rw [sumInputs_ok, hsum]
    · simp only [hadd]
      have hlt := value.toNat_lt
      exact iff_of_false (by simp) (by omega)

/-- A sum is returned in its bytes. -/
theorem ok_toLeBytes_iff {sum : Except ExecError UInt64} {output : Bytes} :
    (sum.bind fun value => .ok (toLeBytes value)) = .ok output ↔
      ∃ value, sum = .ok value ∧ output = toLeBytes value := by
  cases sum with
  | error error => simp [Except.bind]
  | ok value =>
    simp only [Except.bind, Except.ok.injEq]
    constructor
    · rintro rfl
      exact ⟨value, rfl, rfl⟩
    · rintro ⟨_, rfl, rfl⟩
      rfl

section Builtins

variable {arguments : List String}

/-- `builtin:sum-records-u64` computes the total of its records. -/
theorem sumRecords_computes (h : optionalBuiltinSleep arguments "builtin:sum-records-u64" = .ok ()) (bytes : Bytes)
    (shard : TaskShard) :
    Computes (executeBuiltinOperation "builtin:sum-records-u64" arguments [bytes] (some shard)) (recordTotal bytes) := by
  intro output
  simp only [executeBuiltinOperation, orText, h, List.head?_cons, bind, Except.bind]
  cases htext : String.fromUTF8? ⟨bytes.toArray⟩ with
  | none => simp [recordTotal, decode, htext]
  | some text =>
    have hdecode : decode bytes = some text.toList := by rw [decode, htext, Option.map_some]
    refine ok_toLeBytes_iff.trans ?_
    simp only [sumRecords_ok, UInt64.toNat_zero, Nat.cast_zero, zero_add, recordTotal, hdecode]

/-- With an argument that is not a number it computes nothing. -/
theorem sumRecords_refuses {error : ExecError}
    (h : optionalBuiltinSleep arguments "builtin:sum-records-u64" = .error error) (bytes : Bytes) (shard : TaskShard) :
    Computes (executeBuiltinOperation "builtin:sum-records-u64" arguments [bytes] (some shard)) ⊤ := by
  intro output
  simp [executeBuiltinOperation, orText, h, bind, Except.bind]

/-- `builtin:sum-u64` sums numbers up to overflow. -/
theorem sumU64_ok (h : optionalBuiltinSleep arguments "builtin:sum-u64" = .ok ()) (values : List UInt64)
    (shard : Option TaskShard) (output : Bytes) :
    executeBuiltinOperation "builtin:sum-u64" arguments (values.map toLeBytes) shard = .ok output ↔
      ∃ value : UInt64, (values.map (·.toNat)).sum = value.toNat ∧ output = toLeBytes value := by
  simp only [executeBuiltinOperation, h, bind, Except.bind]
  refine ok_toLeBytes_iff.trans ?_
  simp only [sumInputs_ok, UInt64.toNat_zero, Nat.zero_add]

end Builtins

/-! ## Reduction trees -/

/-- An ordered tree of reducer tasks over the shards of a role, each with its output object. -/
inductive ReductionTree
  | shard (index : Nat) (object : ObjectId)
  | reducer (object : ObjectId) (inputs : List ReductionTree)

namespace ReductionTree

variable [F64 F]

/-- The output object of the root. -/
def object : ReductionTree → ObjectId
  | .shard _ object | .reducer object _ => object

mutual

/-- Run the reducers of a tree on the results of the shards. -/
def run (arguments : List String) (results : Nat → Execution) : ReductionTree → Execution
  | .shard index _ => results index
  | .reducer _ inputs => do
    let inputs ← runAll arguments results inputs
    executeBuiltinOperation "builtin:sum-u64" arguments inputs none

/-- Run trees one after the other. -/
def runAll (arguments : List String) (results : Nat → Execution) : List ReductionTree → Except ExecError (List Bytes)
  | [] => .ok []
  | tree :: rest => do
    let output ← run arguments results tree
    let outputs ← runAll arguments results rest
    .ok (output :: outputs)

end

mutual

/-- The shards below a tree, in order. -/
def shards : ReductionTree → List Nat
  | .shard index _ => [index]
  | .reducer _ inputs => shardsOfAll inputs

/-- The shards below trees, in order. -/
def shardsOfAll : List ReductionTree → List Nat
  | [] => []
  | tree :: rest => shards tree ++ shardsOfAll rest

end

theorem shardsOfAll_eq : ∀ trees : List ReductionTree, shardsOfAll trees = (trees.map shards).flatten
  | [] => rfl
  | tree :: rest => by rw [shardsOfAll, shardsOfAll_eq rest, List.map_cons, List.flatten_cons]

/-- What a group of a level becomes: a group of one is carried, a larger one reduced. -/
def Reduces (group : List ReductionTree) (tree : ReductionTree) : Prop :=
  match group with
  | [single] => tree = single
  | _ => ∃ object, tree = .reducer object group

/-- The trees that level after level of `reductionGroups` builds over a list of trees, whatever the fan-in, the objects
and the topology at each level. -/
inductive Grown (F : Type) [F64 F] : List ReductionTree → ReductionTree → Prop
  | root (tree : ReductionTree) : Grown F [tree] tree
  | level {trees next : List ReductionTree} {tree : ReductionTree} {groups : List (List ReductionTree)} {maxFanIn : Nat}
      {localityRttMs : F} {objects : Objects} {topology : TopologySnapshot F} (several : 2 ≤ trees.length)
      (fanIn : 2 ≤ maxFanIn) (flatten : groups.flatten = trees)
      (grouped : groups.map (·.map object) =
        reductionGroups (trees.map object) maxFanIn localityRttMs objects topology)
      (reduced : List.Forall₂ Reduces groups next) (grown : Grown F next tree) : Grown F trees tree

/-- A level keeps the shards and their order. -/
theorem Reduces.shards_eq {group : List ReductionTree} {tree : ReductionTree} (h : Reduces group tree) :
    shards tree = (group.map shards).flatten := by
  unfold Reduces at h
  split at h
  · subst h
    simp
  · obtain ⟨object, rfl⟩ := h
    rw [shards, shardsOfAll_eq]

/-- A tree that grew over trees has their shards in their order. -/
theorem Grown.shards_eq {F : Type} [F64 F] {trees : List ReductionTree} {tree : ReductionTree}
    (h : Grown F trees tree) : shards tree = (trees.map shards).flatten := by
  induction h with
  | root tree => simp
  | @level trees next tree groups _ _ _ _ _ _ hflatten _ hreduced _ ih =>
    have hnext : next.map shards = groups.map fun group => (group.map shards).flatten :=
      map_eq_of_forall₂ (hreduced.imp fun group tree hgroup => Reduces.shards_eq hgroup)
    rw [ih, hnext, ← hflatten, List.map_flatten, List.flatten_flatten, List.map_map]
    rfl

/-- Numbers whose sum is a `u64` are `u64` values. -/
theorem exists_values : ∀ {totals : List ℕ∞} {sum : Nat}, totals.sum = (sum : ℕ∞) → sum < 2 ^ 64 →
    ∃ values : List UInt64, totals = values.map (fun value => (value.toNat : ℕ∞)) ∧ (values.map (·.toNat)).sum = sum
  | [], sum, h, _ => by
    have hzero : (0 : ℕ∞) = sum := h
    exact ⟨[], rfl, by exact_mod_cast hzero⟩
  | total :: totals, sum, h, hlt => by
    rw [List.sum_cons] at h
    obtain ⟨a, b, ha, hb, hab⟩ : ∃ a b : Nat, total = a ∧ totals.sum = b ∧ a + b = sum := by
      have hfinite := WithTop.add_ne_top.mp (h ▸ ENat.natCast_ne_top sum)
      obtain ⟨a, rfl⟩ := ENat.ne_top_iff_exists.mp hfinite.1
      obtain ⟨b, hb⟩ := ENat.ne_top_iff_exists.mp hfinite.2
      refine ⟨a, b, rfl, hb.symm, ?_⟩
      rw [← hb] at h
      exact_mod_cast h
    obtain ⟨values, rfl, hvalues⟩ := exists_values hb (by omega)
    have hvalue : (UInt64.ofNat a).toNat = a := UInt64.toNat_ofNat_of_lt' (by rw [UInt64.size]; omega)
    refine ⟨UInt64.ofNat a :: values, by rw [List.map_cons, hvalue, ha], ?_⟩
    rw [List.map_cons, List.sum_cons, hvalue, hvalues, hab]

section Run

variable {arguments : List String} {results : Nat → Execution} {total : Nat → ℕ∞}

mutual

/-- A tree computes the total of its shards, whatever its shape. -/
theorem run_computes (h : optionalBuiltinSleep arguments "builtin:sum-u64" = .ok ())
    (hresults : ∀ index, Computes (results index) (total index)) : ∀ tree : ReductionTree,
    Computes (tree.run arguments results) ((shards tree).map total).sum
  | .shard index _ => by
    rw [run, shards, List.map_singleton, List.sum_singleton]
    exact hresults index
  | .reducer object inputs => by
    intro output
    have hall := runAll_ok h hresults inputs
    have hshape : ((shards (.reducer object inputs)).map total).sum =
        (inputs.map fun tree => ((shards tree).map total).sum).sum := by
      rw [shards, shardsOfAll_eq, List.map_flatten, List.sum_flatten, List.map_map, List.map_map]
      rfl
    rw [hshape, run]
    constructor
    · intro hrun
      cases hinputs : runAll arguments results inputs with
      | error error =>
        rw [hinputs] at hrun
        cases hrun
      | ok outputs =>
        obtain ⟨values, rfl, hvalues⟩ := (hall outputs).mp hinputs
        rw [hinputs] at hrun
        obtain ⟨value, hsum, houtput⟩ := (sumU64_ok h values none output).mp hrun
        refine ⟨value, ?_, houtput⟩
        rw [hvalues, ← hsum, Nat.cast_list_sum, List.map_map]
        rfl
    · rintro ⟨value, htotal, rfl⟩
      obtain ⟨values, hvalues, hsum⟩ := exists_values htotal value.toNat_lt
      rw [(hall (values.map toLeBytes)).mpr ⟨values, rfl, hvalues⟩]
      exact (sumU64_ok h values none _).mpr ⟨value, hsum, rfl⟩

/-- Trees run through if and only if each computes a `u64`. -/
theorem runAll_ok (h : optionalBuiltinSleep arguments "builtin:sum-u64" = .ok ())
    (hresults : ∀ index, Computes (results index) (total index)) : ∀ (trees : List ReductionTree) (outputs : List Bytes),
    runAll arguments results trees = .ok outputs ↔
      ∃ values : List UInt64, outputs = values.map toLeBytes ∧
        trees.map (fun tree => ((shards tree).map total).sum) = values.map fun value => (value.toNat : ℕ∞)
  | [], outputs => by
    rw [runAll, Except.ok.injEq]
    constructor
    · rintro rfl
      exact ⟨[], rfl, rfl⟩
    · rintro ⟨values, rfl, hvalues⟩
      rw [List.map_eq_nil_iff.mp hvalues.symm]
      rfl
  | tree :: rest, outputs => by
    have hfirst := run_computes h hresults tree
    have hrest := runAll_ok h hresults rest
    rw [runAll, List.map_cons]
    constructor
    · intro hrun
      cases houtput : run arguments results tree with
      | error error =>
        rw [houtput] at hrun
        cases hrun
      | ok output =>
        rw [houtput] at hrun
        cases houtputs : runAll arguments results rest with
        | error error =>
          rw [houtputs] at hrun
          cases hrun
        | ok outputs' =>
          rw [houtputs] at hrun
          cases hrun
          obtain ⟨value, hvalue, rfl⟩ := (hfirst output).mp houtput
          obtain ⟨values, rfl, hvalues⟩ := (hrest outputs').mp houtputs
          exact ⟨value :: values, rfl, by rw [hvalue, hvalues, List.map_cons]⟩
    · rintro ⟨values, rfl, hvalues⟩
      cases values with
      | nil => cases hvalues
      | cons value values =>
        obtain ⟨hvalue, hvalues⟩ := List.cons.inj hvalues
        rw [(hfirst _).mpr ⟨value, hvalue, rfl⟩, (hrest _).mpr ⟨values, rfl, hvalues⟩]
        rfl

end

end Run

end ReductionTree

/-! ## Parts of an object -/

/-- The last element of a slice that is not empty. -/
theorem getLast?_slice {α : Type} {l : List α} {start stop : Nat} (hlt : start < stop) (hle : stop ≤ l.length) :
    (slice l (start, stop - start)).getLast? = l[stop - 1]? := by
  have hlength : (slice l (start, stop - start)).length = stop - start := by
    rw [slice, List.length_take, List.length_drop]
    omega
  rw [List.getLast?_eq_getElem?, hlength, slice, List.getElem?_take, if_pos (by omega), List.getElem?_drop]
  congr 1
  omega

/-- The bytes of the parts of an object, in order. -/
def pieces (T : Bytes) (input : Nat) (parts : List TaskShardPartition) : List Bytes :=
  parts.map fun part => requested T (part.inputByteRange input)

section Parts

variable {T : Bytes} {partition : ShardPartitionSpec} {object : ObjectMetadata} {n : Nat}
  {parts : List TaskShardPartition} (hsize : object.sizeBytes.toNat = T.length) (hfit : OffsetsFit partition object)
  (hparts : List.Forall₂ (PartAt partition object n) (List.range n) parts)

include hparts

/-- The parts are the slices between the cuts. -/
theorem pieces_eq : pieces T partition.input parts =
    ((List.range n).map fun i => (byteAt partition object n i,
      byteAt partition object n (i + 1) - byteAt partition object n i)).map (slice T) := by
  rw [List.map_map]
  refine map_eq_of_forall₂ (hparts.imp fun i part hpart => ?_)
  rw [hpart.input, Function.comp_apply, ← hpart.bytes]
  rfl

include hsize hfit

/-- Together they are the object. -/
theorem pieces_flatten (hpos : 0 < n) : (pieces T partition.input parts).flatten = T := by
  rw [pieces_eq hparts]
  apply Tiles.flatten
  have htiles := tiles_gaps_range fun i hi => byteAt_le_succ hfit (n := n) (i := i) hi
  rwa [byteAt_zero hfit, byteAt_self hfit hpos, hsize] at htiles

/-- Every part but the last ends where another begins. -/
theorem pieces_end {piece : Bytes} (hn : n ≤ unitCount partition object)
    (hpiece : piece ∈ (pieces T partition.input parts).dropLast) :
    ∃ i, i + 1 < n ∧ piece.getLast? = T[byteAt partition object n (i + 1) - 1]? := by
  cases n with
  | zero =>
    rw [pieces_eq hparts] at hpiece
    cases hpiece
  | succ m =>
    rw [pieces_eq hparts, ← List.map_dropLast, ← List.map_dropLast, List.range_succ, List.dropLast_concat] at hpiece
    obtain ⟨range, hrange, rfl⟩ := List.mem_map.mp hpiece
    obtain ⟨i, hi, rfl⟩ := List.mem_map.mp hrange
    have hi' : i < m := List.mem_range.mp hi
    refine ⟨i, by omega, getLast?_slice (byteAt_lt_succ hfit (by omega) hn) ?_⟩
    rw [← hsize]
    exact byteAt_le hfit (by omega)

end Parts

section Records

variable {F : Type} {T : Bytes} {template : TaskTemplate F} {objects : Objects} {o : ObjectId}
  {object : ObjectMetadata} {input : Nat} {offsets : List UInt64} {count : UInt32}
  (hvalid : validRecordOffsets offsets object.sizeBytes = true)

include hvalid

theorem offsetsFit_records : OffsetsFit (.records input offsets) object := by
  rintro _ _ ⟨⟩
  exact hvalid

/-- A partition by valid record offsets can be formed for every shard. -/
theorem exists_parts (ho : template.inputs[input]? = some o) (hobject : objects.lookup o = some object) :
    ∃ parts : List TaskShardPartition,
      List.Forall₂ (fun index part => concretePartition template (.records input offsets) (UInt32.ofNat index) count
        objects = some part) (List.range count.toNat) parts ∧
      List.Forall₂ (PartAt (.records input offsets) object count.toNat) (List.range count.toNat) parts := by
  have hlt := count.toNat_lt
  have hsome : ∀ index ∈ List.range count.toNat, ∃ part,
      concretePartition template (.records input offsets) (UInt32.ofNat index) count objects = some part := by
    intro index hi
    have hi' := List.mem_range.mp hi
    have hindex : (UInt32.ofNat index).toNat = index := UInt32.toNat_ofNat_of_lt' (by rw [UInt32.size]; omega)
    have hbelow : UInt32.ofNat index < count := UInt32.lt_iff_toNat_lt.mpr (by rw [hindex]; exact hi')
    obtain ⟨_, _, _, _, hpart, -⟩ := concretePartition_records ho hobject hvalid hbelow
    exact ⟨_, hpart⟩
  obtain ⟨parts, hparts⟩ := exists_forall₂ hsome
  refine ⟨parts, hparts, forall₂_imp_mem hparts fun index hi part _ hpart => ?_⟩
  apply partAt_of_concrete (offsetsFit_records hvalid) (List.mem_range.mp hi) hlt ho hobject
  rw [UInt32.ofNat_toNat]
  exact hpart

/-- If every inner record ends with a line feed, so does every part but the last. -/
theorem pieces_newline (hsize : object.sizeBytes.toNat = T.length)
    (hnewline : ∀ k, 0 < k → k < offsets.length - 1 → T[offsetAt offsets k - 1]? = some 10) {parts : List TaskShardPartition}
    (hparts : List.Forall₂ (PartAt (.records input offsets) object count.toNat) (List.range count.toNat) parts)
    (hpos : 0 < count.toNat) (hcount : count.toNat ≤ offsets.length - 1) :
    ∀ piece ∈ (pieces T input parts).dropLast, piece.getLast? = some 10 := by
  intro piece hpiece
  obtain ⟨i, hi, hlast⟩ := pieces_end hsize (offsetsFit_records hvalid) hparts hcount hpiece
  rw [hlast]
  have hstart : 0 < cut (offsets.length - 1) count.toNat (i + 1) :=
    Nat.lt_of_le_of_lt (Nat.zero_le _) (cut_lt_succ hpos hcount)
  have hinner : cut (offsets.length - 1) count.toNat (i + 1) < offsets.length - 1 :=
    Nat.lt_of_lt_of_le (cut_lt_succ hpos hcount) (cut_le (show i + 1 + 1 ≤ count.toNat by omega))
  exact hnewline _ hstart hinner

end Records

/-! ## Sharded and sequential sums -/

variable {F : Type}

/-- The result of shard `index` of `count`, which sums the records of its piece. -/
def shardSum (arguments : List String) (T : Bytes) (input : Nat) (count : UInt32) (parts : List TaskShardPartition)
    (index : Nat) : Execution :=
  match parts[index]? with
  | none => .error (.text "no such shard")
  | some part =>
    executeBuiltinOperation "builtin:sum-records-u64" arguments [requested T (part.inputByteRange input)]
      (some ⟨UInt32.ofNat index, count, some part⟩)

/-- The trees of the shards, before any reduction. -/
def shardTrees (object : Nat → ObjectId) (count : Nat) : List ReductionTree :=
  (List.range count).map fun index => .shard index (object index)

theorem shards_shardTrees (object : Nat → ObjectId) (count : Nat) :
    ((shardTrees object count).map ReductionTree.shards).flatten = List.range count := by
  rw [shardTrees, List.map_map]
  exact List.flatMap_singleton' _

/-- The total that a run of `builtin:sum-records-u64` computes: none, if its argument is not a number. -/
def sumTotal (arguments : List String) (bytes : Bytes) : ℕ∞ :=
  match optionalBuiltinSleep arguments "builtin:sum-records-u64" with
  | .ok () => recordTotal bytes
  | .error _ => ⊤

theorem sumTotal_computes (arguments : List String) (bytes : Bytes) (shard : TaskShard) :
    Computes (executeBuiltinOperation "builtin:sum-records-u64" arguments [bytes] (some shard))
      (sumTotal arguments bytes) := by
  unfold sumTotal
  cases h : optionalBuiltinSleep arguments "builtin:sum-records-u64" with
  | ok _ => exact sumRecords_computes h bytes shard
  | error error => exact sumRecords_refuses h bytes shard

/-- Pieces that end with a line feed, except for the last, add up to the whole. -/
theorem sumTotal_flatten (arguments : List String) {pieces : List Bytes} (hpos : pieces ≠ [])
    (h : ∀ piece ∈ pieces.dropLast, piece.getLast? = some 10) :
    sumTotal arguments pieces.flatten = (pieces.map (sumTotal arguments)).sum := by
  unfold sumTotal
  cases optionalBuiltinSleep arguments "builtin:sum-records-u64" with
  | ok _ => exact recordTotal_flatten h
  | error error =>
    obtain ⟨piece, rest, rfl⟩ := List.exists_cons_of_ne_nil hpos
    simp

/-- The total of a shard. -/
def shardTotal (arguments : List String) (T : Bytes) (input : Nat) (parts : List TaskShardPartition) (index : Nat) : ℕ∞ :=
  (((pieces T input parts).map (sumTotal arguments))[index]?).getD ⊤

theorem shardSum_computes (arguments : List String) (T : Bytes) (input : Nat) (count : UInt32)
    (parts : List TaskShardPartition) (index : Nat) :
    Computes (shardSum arguments T input count parts index) (shardTotal arguments T input parts index) := by
  unfold shardSum shardTotal
  rw [pieces, List.map_map, List.getElem?_map]
  cases parts[index]? with
  | none =>
    intro bytes
    simp
  | some part => exact sumTotal_computes arguments _ _

theorem map_shardTotal (arguments : List String) (T : Bytes) (input : Nat) (parts : List TaskShardPartition) :
    (List.range parts.length).map (shardTotal arguments T input parts) =
      (pieces T input parts).map (sumTotal arguments) := by
  apply List.ext_getElem
  · simp [pieces]
  · intro i h₁ h₂
    simp [shardTotal, List.getElem?_eq_getElem h₂]

/-- Two executions that compute one total agree. -/
theorem Computes.agree {result result' : Execution} {total : ℕ∞} (h : Computes result total) (h' : Computes result' total)
    (bytes : Bytes) : result = .ok bytes ↔ result' = .ok bytes := (h bytes).trans (h' bytes).symm

/-- **Sharded record summation is sequential summation.** For every object `T` with valid record offsets that, inside
the object, follow a line feed, and every number of shards up to that of the records: the shards sum their pieces, the
results go up any tree that `reductionGroups` builds, and the outcome is that of one sum over `T`. -/
theorem sharded_sum_eq_sequential [F64 F] {T : Bytes} {template : TaskTemplate F} {objects : Objects} {o : ObjectId}
    {object : ObjectMetadata} {input : Nat} {offsets : List UInt64} (ho : template.inputs[input]? = some o)
    (hobject : objects.lookup o = some object) (hsize : object.sizeBytes.toNat = T.length)
    (hvalid : validRecordOffsets offsets object.sizeBytes = true)
    (hnewline : ∀ k, 0 < k → k < offsets.length - 1 → T[offsetAt offsets k - 1]? = some 10)
    {count : UInt32} (hpos : 1 ≤ count.toNat) (hcount : count.toNat ≤ offsets.length - 1)
    (arguments : List String) {reducerArguments : List String}
    (hsleep : optionalBuiltinSleep reducerArguments "builtin:sum-u64" = .ok ()) :
    ∃ parts : List TaskShardPartition,
      List.Forall₂ (fun index part => concretePartition template (.records input offsets) (UInt32.ofNat index) count
        objects = some part) (List.range count.toNat) parts ∧
      ∀ (outputs : Nat → ObjectId) (tree : ReductionTree), ReductionTree.Grown F (shardTrees outputs count.toNat) tree →
        ∀ (shard : TaskShard) (bytes : Bytes),
          tree.run reducerArguments (shardSum arguments T input count parts) = .ok bytes ↔
            executeBuiltinOperation "builtin:sum-records-u64" arguments [T] (some shard) = .ok bytes := by
  obtain ⟨parts, hparts, hat⟩ := exists_parts hvalid ho hobject
  have hlength : parts.length = count.toNat := by rw [← hparts.length_eq, List.length_range]
  have hends := pieces_newline hvalid hsize hnewline hat hpos hcount
  have hnonempty : pieces T input parts ≠ [] := by
    intro hnil
    have := congrArg List.length hnil
    rw [pieces, List.length_map, hlength, List.length_nil] at this
    omega
  refine ⟨parts, hparts, fun outputs tree htree shard => ?_⟩
  have htotal : ((tree.shards).map (shardTotal arguments T input parts)).sum = sumTotal arguments T := by
    have hwhole : (pieces T input parts).flatten = T :=
      pieces_flatten hsize (offsetsFit_records hvalid) hat hpos
    rw [htree.shards_eq, shards_shardTrees, ← hlength, map_shardTotal, ← sumTotal_flatten arguments hnonempty hends, hwhole]
  have hrun := ReductionTree.run_computes hsleep (shardSum_computes arguments T input count parts) tree
  rw [htotal] at hrun
  exact hrun.agree (sumTotal_computes arguments T shard)

/-- Four records. -/
def fourRecords : Bytes := [49, 10, 50, 48, 10, 51, 48, 48, 10, 52, 10]

/-- Two shards sum two records each and one reducer their sums. -/
theorem sharded_sum_of_four : ∃ (parts : List TaskShardPartition) (tree : ReductionTree),
    ReductionTree.Grown ℚ (shardTrees (fun index => ⟨index⟩) 2) tree ∧
      tree.run [] (shardSum [] fourRecords 0 2 parts) = .ok (toLeBytes 325) := by
  have hnewline : ∀ k, 0 < k → k < ([0, 2, 5, 9, 11] : List UInt64).length - 1 →
      fourRecords[offsetAt [0, 2, 5, 9, 11] k - 1]? = some 10 := by
    have hall : ∀ k < 4, 0 < k → fourRecords[offsetAt [0, 2, 5, 9, 11] k - 1]? = some 10 := by decide
    exact fun k hpos hlt => hall k hlt hpos
  obtain ⟨parts, -, h⟩ := sharded_sum_eq_sequential (F := ℚ) (o := ⟨8⟩)
    (show (⟨"builtin:sum-records-u64", "run", [], [⟨8⟩], {}, .pure, ⟨1, 8⟩⟩ : TaskTemplate ℚ).inputs[0]? = some ⟨8⟩ from rfl)
    (show ((∅ : Objects).insert ⟨8⟩ { tenBytes with sizeBytes := 11 }).lookup ⟨8⟩ = _ from rfl) rfl (by decide) hnewline
    (show 1 ≤ (2 : UInt32).toNat by decide) (by decide) [] (show optionalBuiltinSleep [] _ = .ok () from rfl)
  have hgrown : ReductionTree.Grown ℚ (shardTrees (fun index => ⟨index⟩) 2)
      (.reducer ⟨9⟩ [.shard 0 ⟨0⟩, .shard 1 ⟨1⟩]) := by
    have hgroups : ([[.shard 0 ⟨0⟩, .shard 1 ⟨1⟩]] : List (List ReductionTree)).map (·.map ReductionTree.object) =
        reductionGroups [⟨0⟩, ⟨1⟩] 2 (0 : ℚ) ∅ ⟨[]⟩ := by decide +kernel
    exact .level (by decide) (by decide) rfl hgroups (.cons ⟨⟨9⟩, rfl⟩ .nil) (.root _)
  refine ⟨parts, _, hgrown, (h _ _ hgrown ⟨0, 1, none⟩ _).mpr ?_⟩
  decide +kernel

end Plurifold
