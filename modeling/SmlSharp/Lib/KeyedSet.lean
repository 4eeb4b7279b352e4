/-
Sets as lists in strictly ascending order of a key.  Elements with one key are
the same element of a set.
-/
import Mathlib.Order.Lattice
import Mathlib.Order.Basic
import Mathlib.Data.List.Nodup
import Mathlib.Data.List.Perm.Subperm

namespace SmlSharp

universe u v

variable {α : Type u} {K : Type v} [LinearOrder K]

/-- A set whose elements are listed in strictly ascending order of their keys. -/
structure KeyedSet (key : α → K) where
  items : List α
  sorted : items.Pairwise fun left right => key left < key right

namespace KeyedSet

section Items

variable (key : α → K)

/-- The lists are merged by key; of two items with one key the first is kept. -/
def unionItems : List α → List α → List α
  | [], set => set
  | set, [] => set
  | h1 :: t1, h2 :: t2 =>
    if key h1 = key h2 then h1 :: unionItems t1 t2
    else if key h2 < key h1 then h2 :: unionItems (h1 :: t1) t2
    else h1 :: unionItems t1 (h2 :: t2)
termination_by l1 l2 => l1.length + l2.length

/-- The items of the first list whose keys are in the second. -/
def intersectItems : List α → List α → List α
  | [], _ => []
  | _, [] => []
  | h1 :: t1, h2 :: t2 =>
    if key h1 = key h2 then h1 :: intersectItems t1 t2
    else if key h2 < key h1 then intersectItems (h1 :: t1) t2
    else intersectItems t1 (h2 :: t2)
termination_by l1 l2 => l1.length + l2.length

/-- The items of the first list whose keys are not in the second. -/
def setMinusItems : List α → List α → List α
  | [], _ => []
  | set, [] => set
  | h1 :: t1, h2 :: t2 =>
    if key h1 = key h2 then setMinusItems t1 t2
    else if key h2 < key h1 then setMinusItems (h1 :: t1) t2
    else h1 :: setMinusItems t1 (h2 :: t2)
termination_by l1 l2 => l1.length + l2.length

def isSubsetOfItems : List α → List α → Bool
  | [], _ => true
  | _, [] => false
  | h1 :: t1, h2 :: t2 =>
    if key h1 = key h2 then isSubsetOfItems t1 t2
    else if key h2 < key h1 then isSubsetOfItems (h1 :: t1) t2
    else false
termination_by l1 l2 => l1.length + l2.length

variable {key}

/-- Ascending lists: the head has the least key. -/
abbrev Ascending (key : α → K) (items : List α) : Prop :=
  items.Pairwise fun left right => key left < key right

theorem lt_of_mem_tail {h : α} {t : List α} (hsorted : Ascending key (h :: t))
    {k : K} (hk : k ∈ t.map key) : key h < k := by
  obtain ⟨x, hx, rfl⟩ := List.mem_map.mp hk
  exact (List.pairwise_cons.mp hsorted).1 x hx

theorem ascending_cons {h : α} {t : List α} :
    Ascending key (h :: t) ↔ (∀ k ∈ t.map key, key h < k) ∧ Ascending key t := by
  rw [Ascending, List.pairwise_cons, List.forall_mem_map]

/-- The keys of the union are those of both lists, sorted or not. -/
theorem mem_unionItems {k : K} (l1 l2 : List α) :
    k ∈ (unionItems key l1 l2).map key ↔ k ∈ l1.map key ∨ k ∈ l2.map key := by
  fun_induction unionItems key l1 l2 with
  | case1 set => simp
  | case2 set => simp
  | case3 h1 t1 h2 t2 heq ih =>
    simp only [List.map_cons, List.mem_cons, ih, heq]
    tauto
  | case4 h1 t1 h2 t2 hne hlt ih =>
    simp only [List.map_cons, List.mem_cons, ih]
    tauto
  | case5 h1 t1 h2 t2 hne hge ih =>
    simp only [List.map_cons, List.mem_cons, ih]
    tauto

theorem unionItems_sorted {l1 l2 : List α} (hl1 : Ascending key l1)
    (hl2 : Ascending key l2) : Ascending key (unionItems key l1 l2) := by
  fun_induction unionItems key l1 l2 with
  | case1 set => exact hl2
  | case2 set => exact hl1
  | case3 h1 t1 h2 t2 heq ih =>
    rw [ascending_cons] at hl1 hl2
    refine ascending_cons.mpr ⟨?_, ih hl1.2 hl2.2⟩
    intro k hk
    rcases (mem_unionItems t1 t2).mp hk with hk | hk
    · exact hl1.1 k hk
    · rw [heq]
      exact hl2.1 k hk
  | case4 h1 t1 h2 t2 hne hlt ih =>
    rw [ascending_cons] at hl2
    refine ascending_cons.mpr ⟨?_, ih hl1 hl2.2⟩
    intro k hk
    rcases (mem_unionItems (h1 :: t1) t2).mp hk with hk | hk
    · rcases List.mem_cons.mp hk with rfl | hk
      · exact hlt
      · exact hlt.trans (lt_of_mem_tail hl1 hk)
    · exact hl2.1 k hk
  | case5 h1 t1 h2 t2 hne hge ih =>
    have hlt : key h1 < key h2 := lt_of_le_of_ne (not_lt.mp hge) hne
    rw [ascending_cons] at hl1
    refine ascending_cons.mpr ⟨?_, ih hl1.2 hl2⟩
    intro k hk
    rcases (mem_unionItems t1 (h2 :: t2)).mp hk with hk | hk
    · exact hl1.1 k hk
    · rcases List.mem_cons.mp hk with rfl | hk
      · exact hlt
      · exact hlt.trans (lt_of_mem_tail hl2 hk)

/-- In ascending lists an item that is passed over is in neither rest. -/
theorem mem_intersectItems {k : K} {l1 l2 : List α} (hl1 : Ascending key l1)
    (hl2 : Ascending key l2) :
    k ∈ (intersectItems key l1 l2).map key ↔ k ∈ l1.map key ∧ k ∈ l2.map key := by
  fun_induction intersectItems key l1 l2 with
  | case1 set => simp
  | case2 set => simp
  | case3 h1 t1 h2 t2 heq ih =>
    have h1_lt := fun hk => lt_of_mem_tail (k := k) hl1 hk
    have h2_lt := fun hk => lt_of_mem_tail (k := k) hl2 hk
    rw [ascending_cons] at hl1 hl2
    simp only [List.map_cons, List.mem_cons, ih hl1.2 hl2.2, heq] at h1_lt h2_lt ⊢
    constructor
    · tauto
    · rintro ⟨rfl | hk, hk' | hk'⟩ <;> tauto
  | case4 h1 t1 h2 t2 hne hlt ih =>
    have h1_lt := fun hk => lt_of_mem_tail (k := k) hl1 hk
    rw [ascending_cons] at hl2
    rw [ih hl1 hl2.2]
    simp only [List.map_cons, List.mem_cons]
    constructor
    · tauto
    · rintro ⟨hk, rfl | hk'⟩
      · rcases hk with heq | hk
        · exact absurd heq.symm hne
        · exact absurd (h1_lt hk) (not_lt.mpr hlt.le)
      · exact ⟨hk, hk'⟩
  | case5 h1 t1 h2 t2 hne hge ih =>
    have hlt : key h1 < key h2 := lt_of_le_of_ne (not_lt.mp hge) hne
    have h2_lt := fun hk => lt_of_mem_tail (k := k) hl2 hk
    rw [ascending_cons] at hl1
    rw [ih hl1.2 hl2]
    simp only [List.map_cons, List.mem_cons]
    constructor
    · tauto
    · rintro ⟨rfl | hk, hk'⟩
      · rcases hk' with heq | hk'
        · exact absurd heq hne
        · exact absurd (h2_lt hk') (not_lt.mpr hlt.le)
      · exact ⟨hk, hk'⟩

theorem intersectItems_sublist (l1 l2 : List α) :
    (intersectItems key l1 l2).Sublist l1 := by
  fun_induction intersectItems key l1 l2 with
  | case1 set => exact List.Sublist.refl _
  | case2 set => exact List.nil_sublist _
  | case3 h1 t1 h2 t2 heq ih => exact ih.cons_cons h1
  | case4 h1 t1 h2 t2 hne hlt ih => exact ih
  | case5 h1 t1 h2 t2 hne hge ih => exact ih.cons h1

theorem setMinusItems_sublist (l1 l2 : List α) :
    (setMinusItems key l1 l2).Sublist l1 := by
  fun_induction setMinusItems key l1 l2 with
  | case1 set => exact List.Sublist.refl _
  | case2 set => exact List.Sublist.refl _
  | case3 h1 t1 h2 t2 heq ih => exact ih.cons h1
  | case4 h1 t1 h2 t2 hne hlt ih => exact ih
  | case5 h1 t1 h2 t2 hne hge ih => exact ih.cons_cons h1

/-- Dropping an element of the second list that is below the first list. -/
theorem mem_and_not_mem_cons {k : K} {l1 t2 : List α} {h2 : α}
    (hbelow : ∀ k ∈ l1.map key, key h2 < k) :
    k ∈ l1.map key ∧ k ∉ (h2 :: t2).map key ↔
      k ∈ l1.map key ∧ k ∉ t2.map key := by
  apply and_congr_right
  intro hk
  have hne : k ≠ key h2 := (hbelow k hk).ne'
  simp [hne]

theorem mem_setMinusItems {k : K} {l1 l2 : List α} (hl1 : Ascending key l1)
    (hl2 : Ascending key l2) :
    k ∈ (setMinusItems key l1 l2).map key ↔ k ∈ l1.map key ∧ k ∉ l2.map key := by
  fun_induction setMinusItems key l1 l2 with
  | case1 set => simp
  | case2 set => simp
  | case3 h1 t1 h2 t2 heq ih =>
    have hl1' := ascending_cons.mp hl1
    have hl2' := ascending_cons.mp hl2
    rw [ih hl1'.2 hl2'.2]
    simp only [List.map_cons, List.mem_cons, heq, not_or]
    constructor
    · rintro ⟨hk, hnot⟩
      have hlt := hl1'.1 k hk
      exact ⟨Or.inr hk, (heq ▸ hlt).ne', hnot⟩
    · rintro ⟨hk, hne, hnot⟩
      exact ⟨hk.resolve_left hne, hnot⟩
  | case4 h1 t1 h2 t2 hne hlt ih =>
    rw [ih hl1 (ascending_cons.mp hl2).2, mem_and_not_mem_cons]
    intro k hk
    rcases List.mem_cons.mp hk with rfl | hk
    · exact hlt
    · exact hlt.trans (lt_of_mem_tail hl1 hk)
  | case5 h1 t1 h2 t2 hne hge ih =>
    have hlt : key h1 < key h2 := lt_of_le_of_ne (not_lt.mp hge) hne
    have hnot : key h1 ∉ (h2 :: t2).map key := by
      intro hk
      rcases List.mem_cons.mp hk with heq | hk
      · exact hne heq
      · exact absurd (lt_of_mem_tail hl2 hk) (not_lt.mpr hlt.le)
    have hhead : ∀ l, k ∈ (h1 :: l).map key ↔ k = key h1 ∨ k ∈ l.map key :=
      fun _ => List.mem_cons
    rw [hhead, hhead, ih (ascending_cons.mp hl1).2 hl2]
    constructor
    · rintro (rfl | ⟨hk, hk'⟩)
      · exact ⟨Or.inl rfl, hnot⟩
      · exact ⟨Or.inr hk, hk'⟩
    · rintro ⟨hk | hk, hk'⟩
      · exact Or.inl hk
      · exact Or.inr ⟨hk, hk'⟩

theorem isSubsetOfItems_iff {l1 l2 : List α} (hl1 : Ascending key l1)
    (hl2 : Ascending key l2) :
    isSubsetOfItems key l1 l2 = true ↔ ∀ k ∈ l1.map key, k ∈ l2.map key := by
  fun_induction isSubsetOfItems key l1 l2 with
  | case1 set => simp
  | case2 set hset =>
    cases set with
    | nil => simp at hset
    | cons h t =>
      simp only [Bool.false_eq_true, false_iff]
      intro hsub
      exact List.not_mem_nil (hsub (key h) List.mem_cons_self)
  | case3 h1 t1 h2 t2 heq ih =>
    have hl1' := ascending_cons.mp hl1
    rw [ih hl1'.2 (ascending_cons.mp hl2).2, List.map_cons, List.map_cons]
    constructor
    · intro hsub k hk
      rcases List.mem_cons.mp hk with rfl | hk
      · exact heq ▸ List.mem_cons_self
      · exact List.mem_cons_of_mem _ (hsub k hk)
    · intro hsub k hk
      have hne : k ≠ key h2 := heq ▸ (hl1'.1 k hk).ne'
      exact (List.mem_cons.mp (hsub k (List.mem_cons_of_mem _ hk))).resolve_left hne
  | case4 h1 t1 h2 t2 hne hlt ih =>
    rw [ih hl1 (ascending_cons.mp hl2).2]
    apply forall₂_congr
    intro k hk
    have hne' : k ≠ key h2 := by
      rcases List.mem_cons.mp hk with rfl | hk
      · exact hne
      · exact (hlt.trans (lt_of_mem_tail hl1 hk)).ne'
    rw [List.map_cons, List.mem_cons, or_iff_right hne']
  | case5 h1 t1 h2 t2 hne hge =>
    have hlt : key h1 < key h2 := lt_of_le_of_ne (not_lt.mp hge) hne
    simp only [Bool.false_eq_true, false_iff]
    intro hsub
    rcases List.mem_cons.mp (hsub (key h1) List.mem_cons_self) with heq | hk
    · exact hne heq
    · exact absurd (lt_of_mem_tail hl2 hk) (not_lt.mpr hlt.le)

end Items

/-! ### Sets -/

variable {key : α → K}

instance : Membership K (KeyedSet key) := ⟨fun set k => k ∈ set.items.map key⟩

/-- Inclusion, by the keys. -/
instance : Preorder (KeyedSet key) where
  le s t := ∀ k ∈ s, k ∈ t
  le_refl _ _ hk := hk
  le_trans _ _ _ hst htu k hk := htu k (hst k hk)

theorem le_def {s t : KeyedSet key} : s ≤ t ↔ ∀ k ∈ s, k ∈ t := Iff.rfl

theorem mem_def {s : KeyedSet key} {k : K} : k ∈ s ↔ ∃ x ∈ s.items, key x = k :=
  List.mem_map

def empty : KeyedSet key := ⟨[], List.Pairwise.nil⟩

def singleton (x : α) : KeyedSet key := ⟨[x], List.pairwise_singleton _ x⟩

def union (s t : KeyedSet key) : KeyedSet key :=
  ⟨unionItems key s.items t.items, unionItems_sorted s.sorted t.sorted⟩

def intersect (s t : KeyedSet key) : KeyedSet key :=
  ⟨intersectItems key s.items t.items,
    s.sorted.sublist (intersectItems_sublist s.items t.items)⟩

def setMinus (s t : KeyedSet key) : KeyedSet key :=
  ⟨setMinusItems key s.items t.items,
    s.sorted.sublist (setMinusItems_sublist s.items t.items)⟩

def isSubsetOf (s t : KeyedSet key) : Bool :=
  isSubsetOfItems key s.items t.items

def numItems (s : KeyedSet key) : Nat := s.items.length

/-- The sets are united two by two. -/
def mergeStep : List (KeyedSet key) → List (KeyedSet key) → List (KeyedSet key)
  | z, [] => z
  | z, [x] => x :: z
  | z, h1 :: h2 :: t => mergeStep (union h1 h2 :: z) t

theorem length_mergeStep (z l : List (KeyedSet key)) :
    (mergeStep z l).length = z.length + (l.length + 1) / 2 := by
  fun_induction mergeStep z l with
  | case1 z => simp
  | case2 z x => simp
  | case3 z h1 h2 t ih =>
    simp only [ih, List.length_cons]
    omega

def merge : List (KeyedSet key) → KeyedSet key
  | [] => empty
  | [x] => x
  | h1 :: h2 :: t => merge (mergeStep [] (h1 :: h2 :: t))
termination_by l => l.length
decreasing_by
  rw [length_mergeStep]
  simp only [List.length_cons, List.length_nil]
  omega

/-- The set of the elements of a list. -/
def fromList (xs : List α) : KeyedSet key :=
  merge (xs.map singleton).reverse

section Members

variable {s t : KeyedSet key} {k : K}

@[simp]
theorem mem_empty : k ∉ (empty : KeyedSet key) := List.not_mem_nil

@[simp]
theorem mem_singleton {x : α} : k ∈ (singleton x : KeyedSet key) ↔ k = key x :=
  List.mem_singleton

@[simp]
theorem mem_union : k ∈ union s t ↔ k ∈ s ∨ k ∈ t :=
  mem_unionItems s.items t.items

@[simp]
theorem mem_intersect : k ∈ intersect s t ↔ k ∈ s ∧ k ∈ t :=
  mem_intersectItems s.sorted t.sorted

@[simp]
theorem mem_setMinus : k ∈ setMinus s t ↔ k ∈ s ∧ k ∉ t :=
  mem_setMinusItems s.sorted t.sorted

theorem isSubsetOf_iff : isSubsetOf s t = true ↔ s ≤ t :=
  isSubsetOfItems_iff s.sorted t.sorted

theorem mem_mergeStep (z l : List (KeyedSet key)) :
    (∃ s ∈ mergeStep z l, k ∈ s) ↔ (∃ s ∈ z, k ∈ s) ∨ ∃ s ∈ l, k ∈ s := by
  fun_induction mergeStep z l with
  | case1 z => simp
  | case2 z x => simp [or_comm]
  | case3 z h1 h2 t ih =>
    simp only [ih, List.exists_mem_cons_iff, mem_union]
    rw [@or_comm (k ∈ h1 ∨ k ∈ h2), or_assoc, or_assoc]

/-- Merging by pairs has the keys of all sets. -/
@[simp]
theorem mem_merge (l : List (KeyedSet key)) : k ∈ merge l ↔ ∃ s ∈ l, k ∈ s := by
  fun_induction merge l with
  | case1 => simp
  | case2 x => simp
  | case3 h1 h2 t ih => rw [ih, mem_mergeStep]; simp

@[simp]
theorem mem_fromList {xs : List α} :
    k ∈ (fromList xs : KeyedSet key) ↔ ∃ x ∈ xs, k = key x := by
  simp [fromList]

theorem nodup (s : KeyedSet key) : (s.items.map key).Nodup := by
  rw [List.Nodup, List.pairwise_map]
  exact s.sorted.imp fun hlt => hlt.ne

/-- A subset has no more items, for its keys are distinct. -/
theorem numItems_mono (hle : s ≤ t) : s.numItems ≤ t.numItems := by
  have hperm := List.subperm_of_subset s.nodup hle
  simpa [numItems] using hperm.length_le

theorem numItems_fromList_le (xs : List α) :
    (fromList xs : KeyedSet key).numItems ≤ xs.length := by
  have hsub : ((fromList xs : KeyedSet key).items.map key) ⊆ xs.map key := by
    intro k hk
    obtain ⟨x, hx, rfl⟩ := mem_fromList.mp hk
    exact List.mem_map_of_mem hx
  have hperm := List.subperm_of_subset (nodup _) hsub
  simpa [numItems] using hperm.length_le

/-- A strictly larger set has more elements. -/
theorem numItems_lt (hle : s ≤ t) (hnot : ¬ t ≤ s) : s.numItems < t.numItems := by
  apply Nat.lt_of_le_of_ne (numItems_mono hle)
  intro heq
  apply hnot
  have hperm : (s.items.map key).Perm (t.items.map key) := by
    apply (List.subperm_of_subset s.nodup hle).perm_of_length_le
    simpa [numItems] using Nat.le_of_eq heq.symm
  intro k hk
  exact hperm.mem_iff.mpr hk

end Members

end KeyedSet

end SmlSharp
