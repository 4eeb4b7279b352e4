/-
Finite maps as lists of entries whose keys are compared by a projection, as a
search tree over a comparison function does: an insertion replaces the entry of
an equal key, or adds one.
-/
import Mathlib.Data.List.Basic
import Mathlib.Data.List.Nodup

namespace SmlSharp

namespace KeyedList

universe u v w

variable {K : Type u} {V : Type v} {W : Type v} {κ : Type w} [DecidableEq κ]
  (key : K → κ)

/-- The first entry whose key is `k`. -/
def find (k : κ) : List (K × V) → Option (K × V)
  | [] => none
  | entry :: rest => if key entry.1 = k then some entry else find k rest

/-- The new entry takes the place of the one with its key, or comes last. -/
def insert (k : K) (value : V) : List (K × V) → List (K × V)
  | [] => [(k, value)]
  | entry :: rest =>
    if key entry.1 = key k then (k, value) :: rest
    else entry :: insert k value rest

/-- The keys stay as they are. -/
def mapValues (f : V → W) (items : List (K × V)) : List (K × W) :=
  items.map fun entry => (entry.1, f entry.2)

def keys (items : List (K × V)) : List κ :=
  items.map fun entry => key entry.1

attribute [local simp] find insert

variable {key}

omit [DecidableEq κ] in
theorem keys_cons_nodup {entry : K × V} {rest : List (K × V)} :
    (keys key (entry :: rest)).Nodup ↔
      key entry.1 ∉ keys key rest ∧ (keys key rest).Nodup :=
  List.nodup_cons

@[simp] theorem find_nil (k : κ) : find key k ([] : List (K × V)) = none := rfl

/-- What was inserted is found under its key, and nothing else changes. -/
theorem find_insert (k : K) (value : V) (k' : κ) (items : List (K × V)) :
    find key k' (insert key k value items) =
      if key k = k' then some (k, value) else find key k' items := by
  induction items with
  | nil => simp
  | cons entry rest ih =>
    by_cases hentry : key entry.1 = key k
    · by_cases hk : key k = k'
      · simp [hentry, hk]
      · simp [hentry, hk]
    · by_cases hk : key k = k'
      · have hne : ¬ key entry.1 = k' := hk ▸ hentry
        simp [hne, ih, hk]
      · simp [hentry, ih, hk]

theorem mem_insert {k : K} {value : V} {items : List (K × V)}
    {entry : K × V} (hmem : entry ∈ insert key k value items) :
    entry = (k, value) ∨ entry ∈ items := by
  induction items with
  | nil => simpa using hmem
  | cons head rest ih =>
    by_cases hhead : key head.1 = key k
    · simp only [insert, hhead, if_true] at hmem
      rcases List.mem_cons.mp hmem with rfl | hmem
      · exact Or.inl rfl
      · exact Or.inr (List.mem_cons_of_mem _ hmem)
    · simp only [insert, hhead, if_false] at hmem
      rcases List.mem_cons.mp hmem with rfl | hmem
      · exact Or.inr List.mem_cons_self
      · rcases ih hmem with hnew | hold
        · exact Or.inl hnew
        · exact Or.inr (List.mem_cons_of_mem _ hold)

theorem find_key {k : κ} {items : List (K × V)} {entry : K × V}
    (hfind : find key k items = some entry) :
    key entry.1 = k ∧ entry ∈ items := by
  induction items with
  | nil => simp at hfind
  | cons head rest ih =>
    by_cases hhead : key head.1 = k
    · obtain rfl : head = entry := by simpa [hhead] using hfind
      exact ⟨hhead, List.mem_cons_self⟩
    · obtain ⟨hkey, hmem⟩ := ih (by simpa [hhead] using hfind)
      exact ⟨hkey, List.mem_cons_of_mem _ hmem⟩

theorem find_mapValues (f : V → W) (k : κ) (items : List (K × V)) :
    find key k (mapValues f items) =
      (find key k items).map fun entry => (entry.1, f entry.2) := by
  induction items with
  | nil => rfl
  | cons entry rest ih =>
    by_cases hentry : key entry.1 = k
    · simp [mapValues, hentry]
    · simpa [mapValues, hentry] using ih

/-- Values that are computed from their own entries are found where the entries
were. -/
theorem find_map (f : K → V → W) (k : κ) (items : List (K × V)) :
    find key k (items.map fun entry => (entry.1, f entry.1 entry.2)) =
      (find key k items).map fun entry => (entry.1, f entry.1 entry.2) := by
  induction items with
  | nil => rfl
  | cons entry rest ih =>
    by_cases hentry : key entry.1 = k
    · simp [hentry]
    · simpa [hentry] using ih

theorem find_isSome_iff {k : κ} {items : List (K × V)} :
    (find key k items).isSome ↔ k ∈ keys key items := by
  induction items with
  | nil => simp [keys]
  | cons entry rest ih =>
    by_cases hentry : key entry.1 = k
    · simp [keys, hentry]
    · have hne : ¬ k = key entry.1 := fun heq => hentry heq.symm
      simpa [keys, hentry, hne] using ih

theorem mem_keys_insert {k : K} {value : V} {k' : κ} {items : List (K × V)} :
    k' ∈ keys key (insert key k value items) ↔
      k' = key k ∨ k' ∈ keys key items := by
  rw [← find_isSome_iff, find_insert, ← find_isSome_iff]
  by_cases hk : key k = k'
  · simp [hk]
  · have hne : ¬ k' = key k := fun heq => hk heq.symm
    simp [hk, hne]

/-- Inserting keeps the keys distinct. -/
theorem keys_insert_nodup {k : K} {value : V} {items : List (K × V)}
    (hnodup : (keys key items).Nodup) :
    (keys key (insert key k value items)).Nodup := by
  induction items with
  | nil => simp [keys]
  | cons entry rest ih =>
    obtain ⟨hentry, hrest⟩ := keys_cons_nodup.mp hnodup
    by_cases hk : key entry.1 = key k
    · simp only [insert, hk, if_true]
      rw [hk] at hentry
      exact keys_cons_nodup.mpr ⟨hentry, hrest⟩
    · simp only [insert, hk, if_false]
      refine keys_cons_nodup.mpr ⟨?_, ih hrest⟩
      intro hmem
      rcases mem_keys_insert.mp hmem with heq | hold
      · exact hk heq
      · exact hentry hold

omit [DecidableEq κ] in
theorem keys_mapValues (f : V → W) (items : List (K × V)) :
    keys key (mapValues f items) = keys key items := by
  simp [keys, mapValues]

/-- Where the keys are distinct, every entry is the one that is found. -/
theorem find_of_mem {items : List (K × V)} (hnodup : (keys key items).Nodup)
    {entry : K × V} (hmem : entry ∈ items) :
    find key (key entry.1) items = some entry := by
  induction items with
  | nil => simp at hmem
  | cons head rest ih =>
    obtain ⟨hhead, hrest⟩ := keys_cons_nodup.mp hnodup
    rcases List.mem_cons.mp hmem with rfl | hmem
    · simp
    · have hne : ¬ key head.1 = key entry.1 := by
        intro heq
        rw [heq] at hhead
        exact hhead (List.mem_map_of_mem (f := fun entry => key entry.1) hmem)
      simpa [hne] using ih hrest hmem

/-- The same of the library's association lists. -/
theorem lookup_eq_some_iff {K : Type u} {V : Type v} [DecidableEq K] {entries : List (K × V)}
    (hnodup : (entries.map Prod.fst).Nodup) {k : K} {value : V} :
    entries.lookup k = some value ↔ (k, value) ∈ entries := by
  induction entries with
  | nil => simp
  | cons entry rest ih =>
    obtain ⟨k', v⟩ := entry
    obtain ⟨hfresh, hrest⟩ := List.nodup_cons.mp hnodup
    by_cases hkey : k = k'
    · subst hkey
      have hnot : (k, value) ∉ rest := fun hmem =>
        hfresh (List.mem_map.mpr ⟨(k, value), hmem, rfl⟩)
      simp [hnot, eq_comm]
    · have hbeq : (k == k') = false := by simpa using hkey
      simp [List.lookup_cons, hbeq, ih hrest, hkey]

end KeyedList

end SmlSharp
