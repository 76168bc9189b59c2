import Mathlib.Data.List.AList

/-!
# Finite maps

`Map K V` is Mathlib's association list with a constant value type. Added here: bulk operations that a hash map of an
imperative program has (change every value, change the value at one key, collect a list of pairs) and what `lookup`
sees after each. Nothing depends on the order of the entries: a program that iterates over a map gets its entries in an
order of its environment's choice.
-/

namespace Lib

/-- A finite map. -/
abbrev Map (K V : Type) := AList (fun _ : K => V)

namespace Map

variable {K V : Type}

/-- The values of the map, in entry order. -/
def values (m : Map K V) : List V := m.entries.map (·.2)

/-- The pairs of the map, in entry order. -/
def pairs (m : Map K V) : List (K × V) := m.entries.map fun e => (e.1, e.2)

/-- Every value replaced by a function of its key and itself. -/
def mapVals (f : K → V → V) (m : Map K V) : Map K V :=
  ⟨m.entries.map fun e => ⟨e.1, f e.1 e.2⟩, by
    have h : (m.entries.map fun e => (⟨e.1, f e.1 e.2⟩ : Sigma fun _ : K => V)).keys = m.entries.keys := by
      simp [List.keys, Function.comp_def]
    rw [List.NodupKeys, h]
    exact m.nodupKeys⟩

variable [DecidableEq K]

/-- The value at one key changed in place; an absent key stays absent. -/
def modify (k : K) (f : V → V) (m : Map K V) : Map K V :=
  match m.lookup k with
  | some v => m.insert k (f v)
  | none => m

/-- A list of pairs collected into a map; a later pair overwrites an earlier one. -/
def collect (l : List (K × V)) : Map K V := l.foldl (fun m e => m.insert e.1 e.2) ∅

/-! ## Lookup -/

theorem lookup_insert_eq (k k' : K) (v : V) (m : Map K V) :
    (m.insert k' v).lookup k = if k = k' then some v else m.lookup k := by
  by_cases h : k = k'
  · subst h; simp
  · simp [h, AList.lookup_insert_ne h]

theorem lookup_erase_eq (k k' : K) (m : Map K V) :
    (m.erase k').lookup k = if k = k' then none else m.lookup k := by
  by_cases h : k = k'
  · subst h; simp
  · simp [h, AList.lookup_erase_ne h]

theorem dlookup_map (f : K → V → V) (k : K) : ∀ l : List (Sigma fun _ : K => V),
    (l.map fun e => (⟨e.1, f e.1 e.2⟩ : Sigma fun _ : K => V)).dlookup k = (l.dlookup k).map (f k)
  | [] => rfl
  | ⟨k', v⟩ :: l => by
    by_cases h : k = k'
    · subst h; simp
    · rw [List.map_cons, List.dlookup_cons_ne _ _ h, List.dlookup_cons_ne _ _ h]
      exact dlookup_map f k l

@[simp] theorem lookup_mapVals (f : K → V → V) (k : K) (m : Map K V) :
    (mapVals f m).lookup k = (m.lookup k).map (f k) := dlookup_map f k m.entries

theorem lookup_modify (k k' : K) (f : V → V) (m : Map K V) :
    (modify k' f m).lookup k = if k = k' then (m.lookup k).map f else m.lookup k := by
  unfold modify
  by_cases h : k = k'
  · subst h
    cases hm : m.lookup k with
    | none => simp [hm]
    | some v => simp
  · cases hm : m.lookup k' with
    | none => simp [h]
    | some v => simp [h, AList.lookup_insert_ne h]

theorem mem_pairs {m : Map K V} {k : K} {v : V} : (k, v) ∈ m.pairs ↔ m.lookup k = some v := by
  have h := AList.mem_lookup_iff (a := k) (b := v) (s := m)
  simp only [Option.mem_def] at h
  rw [h]
  simp only [pairs, List.mem_map, Prod.mk.injEq]
  constructor
  · rintro ⟨e, he, rfl, rfl⟩; exact he
  · intro he; exact ⟨_, he, rfl, rfl⟩

theorem mem_values {m : Map K V} {v : V} : v ∈ m.values ↔ ∃ k, m.lookup k = some v := by
  constructor
  · intro h
    obtain ⟨e, he, rfl⟩ := List.mem_map.mp h
    exact ⟨e.1, mem_pairs.mp (List.mem_map.mpr ⟨e, he, rfl⟩)⟩
  · rintro ⟨k, h⟩
    obtain ⟨e, he, hk⟩ := List.mem_map.mp (mem_pairs.mpr h)
    exact List.mem_map.mpr ⟨e, he, congrArg Prod.snd hk⟩

theorem isEmpty_iff {m : Map K V} : m.entries.isEmpty = true ↔ ∀ k, m.lookup k = none := by
  rw [List.isEmpty_iff]
  constructor
  · intro h k
    exact (List.dlookup_eq_none (l := m.entries)).mpr (by rw [h]; simp)
  · intro h
    by_contra hne
    obtain ⟨entry, hentry⟩ := List.exists_mem_of_ne_nil _ hne
    have hlookup := mem_pairs.mp (List.mem_map.mpr ⟨entry, hentry, rfl⟩)
    rw [h] at hlookup
    cases hlookup

theorem mem_keys {m : Map K V} {k : K} : k ∈ m.keys ↔ ∃ v, m.lookup k = some v := by
  rw [← AList.mem_keys, ← AList.lookup_isSome, Option.isSome_iff_exists]

theorem lookup_foldl_insert (k : K) : ∀ (l : List (K × V)) (m : Map K V), k ∉ l.map Prod.fst →
    (l.foldl (fun m e => m.insert e.1 e.2) m).lookup k = m.lookup k
  | [], _, _ => rfl
  | e :: l, m, h => by
    simp only [List.map_cons, List.mem_cons, not_or] at h
    rw [List.foldl_cons, lookup_foldl_insert k l _ h.2, AList.lookup_insert_ne h.1]

/-- A collected map holds the pairs of a list without repeated keys. -/
theorem lookup_collect {l : List (K × V)} (hl : (l.map Prod.fst).Nodup) {k : K} {v : V} (h : (k, v) ∈ l) :
    (collect l).lookup k = some v := by
  obtain ⟨l₁, l₂, rfl⟩ := List.append_of_mem h
  have hk : k ∉ l₂.map Prod.fst := by
    simp only [List.map_append, List.map_cons] at hl
    exact (List.nodup_cons.mp (List.Nodup.of_append_right hl)).1
  rw [collect, List.foldl_append, List.foldl_cons, lookup_foldl_insert k l₂ _ hk, AList.lookup_insert]

theorem lookup_collect_none {l : List (K × V)} {k : K} (h : k ∉ l.map Prod.fst) : (collect l).lookup k = none := by
  rw [collect, lookup_foldl_insert k l _ h, AList.lookup_empty]

end Map

end Lib
