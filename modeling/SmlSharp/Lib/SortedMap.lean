/-
Finite maps as strictly sorted association lists.  The order of the entries is
part of the value, so a right fold over a map visits the keys in descending
order, as the `foldri` of a balanced search tree does.
-/
import Mathlib.Order.Lattice
import Mathlib.Order.Basic
import Mathlib.Data.List.Nodup

namespace SmlSharp

universe u v

/-- A finite map whose entries are listed in strictly ascending key order. -/
structure SortedMap (K : Type u) [LinearOrder K] (V : Type v) where
  items : List (K × V)
  sorted : items.Pairwise fun left right => left.1 < right.1

namespace SortedMap

variable {K : Type u} [LinearOrder K] {V : Type v}

def empty : SortedMap K V := ⟨[], List.Pairwise.nil⟩

/-- Insert one entry into an ascending list, replacing an equal key. -/
def insertItems (key : K) (value : V) : List (K × V) → List (K × V)
  | [] => [(key, value)]
  | entry :: rest =>
    if key < entry.1 then (key, value) :: entry :: rest
    else if key = entry.1 then (key, value) :: rest
    else entry :: insertItems key value rest

/-- Drop the entry of one key, if there is one. -/
def removeItems (key : K) (items : List (K × V)) : List (K × V) :=
  items.filter fun entry => entry.1 ≠ key

theorem mem_insertItems {key : K} {value : V} {items : List (K × V)}
    {entry : K × V} (hmem : entry ∈ insertItems key value items) :
    entry = (key, value) ∨ entry ∈ items := by
  induction items with
  | nil => simpa [insertItems] using hmem
  | cons head rest ih =>
    unfold insertItems at hmem
    split at hmem
    · simpa using hmem
    · split at hmem
      · rcases List.mem_cons.mp hmem with heq | hrest
        · exact Or.inl heq
        · exact Or.inr (List.mem_cons_of_mem head hrest)
      · rcases List.mem_cons.mp hmem with rfl | hrest
        · exact Or.inr List.mem_cons_self
        · rcases ih hrest with heq | hold
          · exact Or.inl heq
          · exact Or.inr (List.mem_cons_of_mem head hold)

theorem insertItems_sorted (key : K) (value : V) {items : List (K × V)}
    (hsorted : items.Pairwise fun left right => left.1 < right.1) :
    (insertItems key value items).Pairwise
      fun left right => left.1 < right.1 := by
  induction items with
  | nil => simp [insertItems]
  | cons head rest ih =>
    obtain ⟨hhead, hrest⟩ := List.pairwise_cons.mp hsorted
    unfold insertItems
    split
    · next hlt =>
        refine List.pairwise_cons.mpr ⟨?_, hsorted⟩
        intro entry hentry
        rcases List.mem_cons.mp hentry with rfl | hentry
        · exact hlt
        · exact lt_trans hlt (hhead entry hentry)
    · split
      · next _ heq =>
          refine List.pairwise_cons.mpr ⟨?_, hrest⟩
          intro entry hentry
          simpa [heq] using hhead entry hentry
      · next hnlt hne =>
          refine List.pairwise_cons.mpr ⟨?_, ih hrest⟩
          intro entry hentry
          rcases mem_insertItems hentry with rfl | hold
          · exact lt_of_le_of_ne (not_lt.mp hnlt) (Ne.symm hne)
          · exact hhead entry hold

def insert (map : SortedMap K V) (key : K) (value : V) : SortedMap K V :=
  ⟨insertItems key value map.items, insertItems_sorted key value map.sorted⟩

def remove (map : SortedMap K V) (key : K) : SortedMap K V :=
  ⟨removeItems key map.items, map.sorted.filter _⟩

/-- The map that a list of entries builds, later entries replacing earlier
ones. -/
def ofList (entries : List (K × V)) : SortedMap K V :=
  entries.foldl (fun map entry => map.insert entry.1 entry.2) empty

/-- `foldri`: the entry with the greatest key is folded first. -/
def foldri {B : Type*} (step : K → V → B → B) (start : B)
    (map : SortedMap K V) : B :=
  map.items.foldr (fun entry acc => step entry.1 entry.2 acc) start

def listKeys (map : SortedMap K V) : List K :=
  map.items.map Prod.fst

def find (map : SortedMap K V) (key : K) : Option V :=
  (map.items.find? fun entry => entry.1 = key).map Prod.snd

/-- The place a key takes in the ascending order does not depend on the value
stored there: inserting splits the map without that key into a lower and an
upper part. -/
theorem insert_items_split (map : SortedMap K V) (key : K) :
    ∃ lower upper : List (K × V), (map.remove key).items = lower ++ upper ∧
        ∀ value : V, (map.insert key value).items =
          lower ++ (key, value) :: upper := by
  obtain ⟨items, hsorted⟩ := map
  change ∃ lower upper, removeItems key items = lower ++ upper ∧
    ∀ value, insertItems key value items = lower ++ (key, value) :: upper
  induction items with
  | nil => exact ⟨[], [], rfl, fun _ => rfl⟩
  | cons head rest ih =>
    obtain ⟨hhead, hrest⟩ := List.pairwise_cons.mp hsorted
    have hkeep : ∀ bound, bound ≤ head.1 → removeItems bound rest = rest := by
      intro bound hbound
      refine List.filter_eq_self.mpr fun entry hentry => ?_
      simpa using (lt_of_le_of_lt hbound (hhead entry hentry)).ne'
    rcases lt_trichotomy key head.1 with hlt | heq | hgt
    · refine ⟨[], head :: rest, ?_, fun value => ?_⟩
      · simpa [removeItems, hlt.ne'] using hkeep key hlt.le
      · simp [insertItems, hlt]
    · refine ⟨[], rest, ?_, fun value => ?_⟩
      · simpa [removeItems, heq] using hkeep head.1 le_rfl
      · simp [insertItems, heq]
    · obtain ⟨lower, upper, hremove, hinsert⟩ := ih hrest
      refine ⟨head :: lower, upper, ?_, fun value => ?_⟩
      · simpa [removeItems, hgt.ne] using hremove
      · simp [insertItems, not_lt.mpr hgt.le, hgt.ne', hinsert value]

theorem insert_listKeys_eq (map : SortedMap K V) (key : K) (left right : V) :
    (map.insert key left).listKeys = (map.insert key right).listKeys := by
  obtain ⟨lower, upper, _, hinsert⟩ := map.insert_items_split key
  simp [listKeys, hinsert]

theorem find_insertItems (key key' : K) (value : V) (items : List (K × V)) :
    ((insertItems key value items).find? fun entry => entry.1 = key').map Prod.snd =
      if key' = key then some value
      else (items.find? fun entry => entry.1 = key').map Prod.snd := by
  induction items with
  | nil =>
    by_cases hkey : key' = key
    · simp [insertItems, hkey]
    · simp [insertItems, hkey, Ne.symm hkey]
  | cons entry rest ih =>
    unfold insertItems
    split
    · by_cases hkey : key' = key
      · simp [hkey]
      · simp [hkey, Ne.symm hkey]
    · split
      · next _ hentry =>
          by_cases hkey : key' = key
          · simp [hkey]
          · simp [hkey, Ne.symm hkey, ← hentry]
      · next _ hentry =>
          by_cases hhead : entry.1 = key'
          · have hkey : key' ≠ key := fun heq => hentry (hhead.trans heq).symm
            simp [hhead, hkey]
          · rw [List.find?_cons_of_neg (by simpa using hhead), ih,
              List.find?_cons_of_neg (by simpa using hhead)]

theorem find_insert (map : SortedMap K V) (key key' : K) (value : V) :
    (map.insert key value).find key' =
      if key' = key then some value else map.find key' :=
  find_insertItems key key' value map.items

theorem mem_listKeys_iff {map : SortedMap K V} {key : K} :
    key ∈ map.listKeys ↔ ∃ value, map.find key = some value := by
  simp only [listKeys, find, List.mem_map, Option.map_eq_some_iff]
  constructor
  · rintro ⟨entry, hentry, rfl⟩
    have hsome : (map.items.find? fun e => e.1 = entry.1).isSome := by
      rw [List.find?_isSome]
      exact ⟨entry, hentry, by simp⟩
    obtain ⟨found, hfound⟩ := Option.isSome_iff_exists.mp hsome
    exact ⟨found.2, found, hfound, rfl⟩
  · rintro ⟨value, entry, hfound, rfl⟩
    refine ⟨entry, List.mem_of_find?_eq_some hfound, ?_⟩
    simpa using List.find?_some hfound

theorem mem_listKeys_insert {map : SortedMap K V} {key key' : K} {value : V} :
    key' ∈ (map.insert key value).listKeys ↔ key' = key ∨ key' ∈ map.listKeys := by
  rw [mem_listKeys_iff, mem_listKeys_iff]
  simp only [find_insert]
  by_cases hkey : key' = key
  · simp [hkey]
  · simp [hkey]

theorem listKeys_nodup (map : SortedMap K V) : map.listKeys.Nodup := by
  rw [listKeys, List.Nodup, List.pairwise_map]
  exact map.sorted.imp fun hlt => hlt.ne

theorem find_of_mem {map : SortedMap K V} {entry : K × V}
    (hentry : entry ∈ map.items) : map.find entry.1 = some entry.2 := by
  have hkey : entry.1 ∈ map.listKeys := List.mem_map_of_mem hentry
  obtain ⟨value, hfind⟩ := mem_listKeys_iff.mp hkey
  obtain ⟨found, hfound, rfl⟩ := Option.map_eq_some_iff.mp hfind
  have hfirst : found.1 = entry.1 := by simpa using List.find?_some hfound
  have hmem := List.mem_of_find?_eq_some hfound
  have heq : found = entry :=
    List.inj_on_of_nodup_map map.listKeys_nodup hmem hentry hfirst
  rw [hfind, heq]

theorem mem_of_find {map : SortedMap K V} {key : K} {value : V}
    (hfind : map.find key = some value) : (key, value) ∈ map.items := by
  obtain ⟨⟨key', value'⟩, hfound, rfl⟩ := Option.map_eq_some_iff.mp hfind
  obtain rfl : key' = key := by simpa using List.find?_some hfound
  exact List.mem_of_find?_eq_some hfound

end SortedMap

end SmlSharp
