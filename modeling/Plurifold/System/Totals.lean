import Plurifold.Agent.Sum
import Plurifold.System.Outcomes

/-!
# Sums of records

A role that cuts an object along its records, sums the records of the parts and reduces the sums means the sum of the
records of the whole object (`means_recordTotal`), and so a completed job of such a role puts out this sum
(`record_sum_completed`).
-/

namespace Plurifold

open Lib Attempt Fabric CoordinatorState Site

variable {F : Type} [F64 F] {T : Bytes} {o : ObjectId} {offsets : List UInt64}

/-! ## Parts -/

section Parts

variable {partition : ShardPartitionSpec} {object : ObjectMetadata} {parts : List TaskShardPartition}

theorem AutoTiling.pieces (h : AutoTiling partition object parts) :
    Plurifold.pieces T partition.input parts = (parts.map (·.byteSpan)).map (slice T) := by
  rw [List.map_map]
  refine List.map_congr_left fun part hpart => ?_
  rw [h.input part hpart]
  rfl

theorem AutoTiling.pieces_flatten (h : AutoTiling partition object parts) (hsize : object.sizeBytes.toNat = T.length) :
    (Plurifold.pieces T partition.input parts).flatten = T := by
  rw [h.pieces]
  apply Tiles.flatten
  rw [← hsize]
  exact h.bytes

/-- Where the records of an object end with a line feed, so does every part but the last. -/
theorem AutoTiling.pieces_newline (h : AutoTiling (.records 0 offsets) object parts)
    (hvalid : validRecordOffsets offsets object.sizeBytes = true) (hsize : object.sizeBytes.toNat = T.length)
    (hnewline : ∀ k, 0 < k → k < offsets.length - 1 → T[offsetAt offsets k - 1]? = some 10) :
    ∀ piece ∈ (Plurifold.pieces T 0 parts).dropLast, piece.getLast? = some 10 := by
  intro piece hpiece
  have hrecords := recordOffsets_of_valid hvalid
  have hpieces : Plurifold.pieces T 0 parts = (parts.map (·.byteSpan)).map (slice T) := h.pieces
  rw [hpieces, ← List.map_dropLast, ← List.map_dropLast] at hpiece
  obtain ⟨span, hspan, rfl⟩ := List.mem_map.mp hpiece
  obtain ⟨part, hpart, rfl⟩ := List.mem_map.mp hspan
  have hne : object.sizeBytes ≠ 0 := by
    intro hzero
    have htwo := hrecords.two
    have hlength := hrecords.length_le
    rw [hzero, UInt64.toNat_zero] at hlength
    omega
  have hpositive : ∀ span ∈ parts.map (·.byteSpan), 0 < span.2 := fun span hspan => by
    obtain ⟨part, hpart, rfl⟩ := List.mem_map.mp hspan
    exact h.nonempty hne part hpart
  obtain ⟨hlow, hhigh⟩ := h.bytes.inner hpositive part.byteSpan (by rwa [← List.map_dropLast])
  have hpart' := List.mem_of_mem_dropLast hpart
  obtain ⟨-, stop, hstop, hend⟩ := h.offsets 0 offsets rfl part hpart'
  have hlength : 0 < part.byteSpan.2 := h.nonempty hne part hpart'
  rcases hbytes : part.byteSpan with ⟨start, length⟩
  rw [hbytes] at hlow hhigh hend hlength
  have hlast : (slice T (start, start + length - start)).getLast? = T[start + length - 1]? :=
    getLast?_slice (by omega) (by omega)
  have hat := offsetAt_of_getElem? hstop
  rw [Nat.add_sub_cancel_left] at hlast
  rw [hlast, hend, ← hat]
  have hk := (List.getElem?_eq_some_iff.mp hstop).1
  apply hnewline
  · refine Nat.pos_of_ne_zero fun hzero => ?_
    rw [hzero, hrecords.at_zero] at hat
    omega
  · refine Nat.lt_of_le_of_ne (by omega) fun hall => ?_
    rw [hall, hrecords.at_last] at hat
    omega

end Parts

/-! ## Numbers -/

/-- The number that a blob holds. -/
def number (bytes : Bytes) : ℕ∞ := (fromLeBytes bytes).toNat

theorem number_toLeBytes (value : UInt64) : number (toLeBytes value) = value.toNat := by
  rw [number, fromLeBytes_toLeBytes]

/-- If the loop over the inputs goes through, it has added up their numbers. -/
theorem sumInputs_number : ∀ {inputs : List Bytes} {sum value : UInt64}, sumInputs sum inputs = .ok value →
    (sum.toNat : ℕ∞) + (inputs.map number).sum = value.toNat
  | [], sum, value, h => by
    cases h
    simp
  | input :: rest, sum, value, h => by
    rw [sumInputs] at h
    split at h
    · cases h
    rw [List.map_cons, List.sum_cons, number, ← add_assoc, ← Nat.cast_add]
    rcases checkedAdd_cases sum (fromLeBytes input) with ⟨-, hadd, hsum⟩ | ⟨-, hadd⟩
    · rw [hadd] at h
      rw [← hsum]
      exact sumInputs_number h
    · rw [hadd] at h
      cases h

section Templates

variable {contents : ObjectId → Bytes → Prop} {executors : Set Executor} {template : TaskTemplate F} {inputs : List Bytes}
  {output : Bytes}

omit [F64 F] in
/-- A template that sums gives the sum of the numbers. -/
theorem Gives.sum (h : Gives contents executors template none inputs output) (hartifact : template.artifact = "builtin:sum-u64")
    (hinputs : template.inputs = []) : ∃ value : UInt64, output = toLeBytes value ∧ (inputs.map number).sum = value.toNat := by
  obtain ⟨own, hown, executor, -, hrun⟩ := h.runs
  rw [hinputs] at hown
  cases hown
  rw [hartifact, executeOperation, if_pos (by decide +kernel)] at hrun
  simp only [executeBuiltinOperation, bind] at hrun
  obtain ⟨-, -, hrun⟩ := ok_of_bind hrun
  obtain ⟨value, hsum, hrun⟩ := ok_of_bind hrun
  cases hrun
  have htotal := sumInputs_number hsum
  rw [UInt64.toNat_zero, Nat.cast_zero, zero_add] at htotal
  exact ⟨value, rfl, htotal⟩

omit [F64 F] in
/-- A template that sums records gives the total of the range that it reads for its shard. -/
theorem Gives.sumRecords {shard : TaskShard} (h : Gives contents executors template (some shard) inputs output)
    (hartifact : template.artifact = "builtin:sum-records-u64") (hinputs : template.inputs.head? = some o) :
    ∃ b, contents o b ∧ ∃ value : UInt64, output = toLeBytes value ∧
      recordTotal (requested b (shardRange (some shard) 0)) = value.toNat := by
  obtain ⟨own, hown, executor, -, hrun⟩ := h.runs
  obtain ⟨rest, htemplate⟩ := List.head?_eq_some_iff.mp hinputs
  rw [htemplate] at hown
  cases hown with
  | @cons _ bytes _ read hfirst hrest =>
    obtain ⟨b, hb, hreads⟩ := hfirst
    refine ⟨b, hb, ?_⟩
    rw [← hreads.bytes]
    rw [hartifact, executeOperation, if_pos (by decide +kernel), List.cons_append] at hrun
    have hhead : executeBuiltinOperation "builtin:sum-records-u64" template.arguments [bytes] (some shard) = .ok output := by
      simpa only [executeBuiltinOperation, List.head?_cons] using hrun
    obtain ⟨value, htotal, rfl⟩ := (sumTotal_computes template.arguments bytes shard output).mp hhead
    refine ⟨value, rfl, ?_⟩
    unfold sumTotal at htotal
    split at htotal
    · exact htotal
    · cases htotal

end Templates

/-! ## Roles that sum records -/

/-- The role cuts object `o` along its records, sums the records of the parts and reduces the sums. -/
structure SumsRecords (role : LogicalRoleSpec F) (o : ObjectId) (offsets : List UInt64) : Prop where
  shards : ∃ policy : AutoShardPolicy F, role.shards = .policy (.auto policy) ∧ policy.partition = .records 0 offsets
  sums : ∀ implementation ∈ role.implementations,
    implementation.task.artifact = "builtin:sum-records-u64" ∧ implementation.task.inputs.head? = some o
  reduces : ∃ reduction, role.reduction = some reduction ∧ reduction.task.artifact = "builtin:sum-u64" ∧
    reduction.task.inputs = []

section Roles

variable {contents : ObjectId → Bytes → Prop} {executors : Set Executor} {role : LogicalRoleSpec F}

omit [F64 F] in
/-- What the shards give adds up to the total of the object. -/
theorem SumsRecords.sum_shards (h : SumsRecords role o offsets) (hunique : ∀ b, contents o b → b = T)
    (hnewline : ∀ k, 0 < k → k < offsets.length - 1 → T[offsetAt offsets k - 1]? = some 10) {shards : List TaskShard}
    {inputs outputs : List Bytes} (hcut : CutInto contents role shards)
    (hgives : List.Forall₂ (fun shard output => ∃ implementation ∈ role.implementations,
      Gives contents executors implementation.task (some shard) inputs output) shards outputs) :
    outputs ≠ [] ∧ (∀ output ∈ outputs, ∃ value, output = toLeBytes value) ∧ (outputs.map number).sum = recordTotal T := by
  have hvalue : ∀ shard output, (∃ implementation ∈ role.implementations,
      Gives contents executors implementation.task (some shard) inputs output) →
      ∃ value : UInt64, output = toLeBytes value ∧ recordTotal (requested T (shardRange (some shard) 0)) = value.toNat := by
    rintro shard output ⟨implementation, himplementation, hgives⟩
    obtain ⟨hartifact, hinputs⟩ := h.sums implementation himplementation
    obtain ⟨b, hb, hsum⟩ := hgives.sumRecords hartifact hinputs
    rwa [hunique b hb] at hsum
  have hnumbers : List.Forall₂ (fun shard output => number output = recordTotal (requested T (shardRange (some shard) 0)))
      shards outputs := hgives.imp fun shard output hgives => by
    obtain ⟨value, rfl, htotal⟩ := hvalue shard output hgives
    rw [number_toLeBytes, htotal]
  obtain ⟨policy, hpolicy, hpartition⟩ := h.shards
  cases hcut with
  | fixed hfixed => cases hpolicy.symm.trans hfixed
  | @auto policy' o' b object parts hauto hinputs hb hsize hfit htiling hparts _ =>
    cases hpolicy.symm.trans hauto
    rw [hpartition] at hfit htiling hinputs
    obtain ⟨first, hfirst⟩ := List.exists_mem_of_ne_nil outputs fun hnil => by
      rw [hnil] at hgives
      have hlength := hgives.length_eq
      rw [List.length_map, List.length_zipIdx, List.length_nil] at hlength
      exact hparts (List.length_eq_zero_iff.mp hlength)
    obtain ⟨shard, -, implementation, himplementation, -⟩ := forall₂_mem_right hgives hfirst
    have ho : implementation.task.inputs[0]? = some o' := hinputs implementation himplementation
    rw [← List.head?_eq_getElem?, (h.sums implementation himplementation).2] at ho
    cases ho
    obtain rfl := hunique b hb
    refine ⟨List.ne_nil_of_mem hfirst, fun output houtput => ?_, ?_⟩
    · obtain ⟨shard, -, hgives⟩ := forall₂_mem_right hgives houtput
      obtain ⟨value, hvalue, -⟩ := hvalue shard output hgives
      exact ⟨value, hvalue⟩
    · have hpieces : outputs.map number = (pieces b 0 parts).map recordTotal := by
        rw [map_eq_of_forall₂ hnumbers, pieces, List.map_map, List.map_map]
        conv_rhs => rw [← List.zipIdx_map_fst 0 parts, List.map_map]
        rfl
      have hwhole : (pieces b 0 parts).flatten = b := htiling.pieces_flatten hsize
      rw [hpieces, ← recordTotal_flatten (htiling.pieces_newline (hfit 0 offsets rfl) hsize hnewline), hwhole]

/-- **The role means the total of the records**, however it was cut and its sums were reduced. -/
theorem means_recordTotal {job : LogicalJobSpec F} (haccepted : (JobDefinition.logical job).Accepted)
    (hrole : role ∈ job.roles) (h : SumsRecords role o offsets) (hunique : ∀ b, contents o b → b = T)
    (hnewline : ∀ k, 0 < k → k < offsets.length - 1 → T[offsetAt offsets k - 1]? = some 10) {outputs : List Bytes}
    (hmeans : Means contents executors (.logical job) role.name outputs) :
    ∃ value : UInt64, outputs = [toLeBytes value] ∧ recordTotal T = value.toNat := by
  obtain ⟨policy, hpolicy, -⟩ := h.shards
  obtain ⟨reduction, hreduction, hartifact, hinputs⟩ := h.reduces
  generalize hname : role.name = r at hmeans
  cases hmeans with
  | node _ hmakes =>
    cases hmakes with
    | cooperative hdefinition => cases hdefinition
    | whole hdefinition hrole' hfan =>
      cases hdefinition
      obtain rfl := logicalRole_eq haccepted hrole hrole' hname
      rw [hpolicy] at hfan
      cases hfan
    | shards hdefinition hrole' _ hcut hgives hjoined =>
      cases hdefinition
      obtain rfl := logicalRole_eq haccepted hrole hrole' hname
      obtain ⟨hne, hvalues, htotal⟩ := h.sum_shards hunique hnewline hcut hgives
      cases hjoined with
      | plain hplain =>
        have hone : outputs.length ≤ 1 := hplain.resolve_left (by rw [hreduction]; exact Option.some_ne_none _)
        obtain ⟨output, rest, rfl⟩ := List.exists_cons_of_ne_nil hne
        obtain rfl : rest = [] := List.length_eq_zero_iff.mp (by rw [List.length_cons] at hone; omega)
        obtain ⟨value, rfl⟩ := hvalues output (List.mem_singleton_self _)
        rw [List.map_singleton, List.sum_singleton, number_toLeBytes] at htotal
        exact ⟨value, rfl, htotal.symm⟩
      | reduced hreduction' _ hcombines =>
        cases hreduction.symm.trans hreduction'
        have hsum := hcombines.sum number fun group output hgives => by
          obtain ⟨value, rfl, hsum⟩ := hgives.sum hartifact hinputs
          rw [number_toLeBytes, hsum]
        obtain ⟨value, rfl⟩ := hcombines.all (fun group output hgives => (hgives.sum hartifact hinputs).imp fun _ => And.left)
          hvalues _ (List.mem_singleton_self _)
        rw [List.map_singleton, List.sum_singleton, number_toLeBytes, htotal] at hsum
        exact ⟨value, rfl, hsum.symm⟩

end Roles

/-! ## A job of two agents -/

namespace Sample

theorem tallied_records : tallied.Contents tallyDeployment ⟨2⟩ fourRecords where
  written := by
    rw [tallied_ended.1]
    decide
  known := by
    have hknown : (tallied.coordinator.fabric.identityOf ⟨2⟩).map (fun object => (object.digest, object.sizeBytes)) =
        some (some (tallySha.digest fourRecords), 11) := by decide +kernel
    obtain ⟨known, hlookup, hdescribes⟩ := Option.map_eq_some_iff.mp hknown
    obtain ⟨hdigest, hsize⟩ := Prod.mk.inj hdescribes
    exact ⟨known, hlookup, hdigest, hsize⟩

theorem sumsRecords_tallyRole : SumsRecords tallyRole ⟨2⟩ [0, 2, 5, 9, 11] where
  shards := ⟨_, rfl, rfl⟩
  sums implementation himplementation := by
    cases List.mem_singleton.mp himplementation
    exact ⟨rfl, rfl⟩
  reduces := ⟨_, rfl, rfl, rfl⟩

end Sample

/-! ## Completed jobs -/

section Runs

variable {d : Deployment F} {e ids : Env} {m x : UInt64} {events : List (Party × Chance F)}

/-- **A completed sum of records is the sum.** At every moment of every run: if a job is completed whose output is a role that
sums the records of an object, its result is one object, which holds the total of the records as a `u64`. -/
theorem record_sum_completed (hsane : Sane d.sha (reached d e ids m x events).shared)
    (hfresh : FreshRequests e (reached d e ids m x events).shared.log) {j : JobId} {record : CooperativeJobRecord F}
    (hrecord : (reached d e ids m x events).shared.coordinator.fabric.jobs.lookup j = some record) {job : LogicalJobSpec F}
    (hdefinition : record.definition = .logical job) {role : LogicalRoleSpec F} (hrole : role ∈ job.roles)
    (houtputs : job.outputs = [role.name]) (hsums : SumsRecords role o offsets)
    (hcontents : (reached d e ids m x events).shared.Contents d o T)
    (hnewline : ∀ k, 0 < k → k < offsets.length - 1 → T[offsetAt offsets k - 1]? = some 10) {result : List ObjectId}
    (hcompleted : (reached d e ids m x events).shared.coordinator.fabric.cooperativeJobStatus j = some (.completed result)) :
    ∃ (object : ObjectId) (value : UInt64), result = [object] ∧ recordTotal T = value.toNat ∧
      (reached d e ids m x events).shared.Contents d object (toLeBytes value) := by
  have hok := reached_ok hsane
  obtain ⟨value, -, hmeans, hresult⟩ := hok.means hsane hfresh hrecord hcompleted
  have haccepted := (hok.accounted hfresh).accepted j _ (definition_of_lookup hrecord)
  rw [hdefinition] at hmeans hresult haccepted
  have hroles : jobOutputs (.logical job) = [role.name] := houtputs
  rw [hroles, List.flatMap_singleton] at hresult
  have hmean := hmeans role.name (by rw [hroles]; exact List.mem_singleton_self _)
  obtain ⟨sum, hvalue, htotal⟩ :=
    means_recordTotal haccepted hrole hsums (fun b hb => hb.unique hsane hcontents) hnewline hmean
  rw [hvalue] at hresult
  obtain ⟨object, rest, hobject, hrest, rfl⟩ := List.forall₂_cons_right_iff.mp hresult
  cases hrest
  exact ⟨object, sum, rfl, htotal, hobject⟩

theorem record_sum_completed_tallied : ∃ value : UInt64, recordTotal fourRecords = value.toNat ∧
    Sample.tallied.Contents Sample.tallyDeployment ⟨16⟩ (toLeBytes value) := by
  have hnewline : ∀ k, 0 < k → k < ([0, 2, 5, 9, 11] : List UInt64).length - 1 →
      fourRecords[offsetAt [0, 2, 5, 9, 11] k - 1]? = some 10 := by
    have hall : ∀ k < 4, 0 < k → fourRecords[offsetAt [0, 2, 5, 9, 11] k - 1]? = some 10 := by decide
    exact fun k hpos hlt => hall k hlt hpos
  obtain ⟨record, hrecord, hdefinition⟩ := Sample.tallied_ended.job
  have hresults := @record_sum_completed _ _ fourRecords ⟨2⟩ [0, 2, 5, 9, 11] Sample.tallyDeployment (Env.numbered fun _ => 0)
    (Env.numbered fun _ => 0) 100 100 Sample.tally
  rw [← Sample.tallied] at hresults
  obtain ⟨object, value, hobject, htotal, hholds⟩ := hresults Sample.tallied_sane Sample.tallied_ended.fresh hrecord
    hdefinition (List.mem_singleton_self _) rfl Sample.sumsRecords_tallyRole Sample.tallied_records hnewline
    Sample.tallied_ended.completed
  cases hobject
  exact ⟨value, htotal, hholds⟩

end Runs

end Plurifold
