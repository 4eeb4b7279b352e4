/-
The quick sort of `ListSorter`, on an array written as a list.
-/
import Mathlib.Data.List.Basic
import Mathlib.Data.List.Perm.Basic

namespace SmlSharp

namespace ListSorter

universe u

variable {α : Type u}

/-- `Array.sub` and `Array.update` are only reached with positions inside the
array; outside of it nothing is exchanged. -/
def swap (i j : Nat) (items : List α) : List α :=
  match items[i]?, items[j]? with
  | some x, some y => (items.set i y).set j x
  | _, _ => items

/-- The `count` values from `cursor` on: those less than the pivot value are
moved to the positions after `pivot`.  The last such position is returned. -/
def scan (compare : α → α → Ordering) (pivotValue : α) :
    Nat → Nat → Nat → List α → Nat × List α
  | 0, _, pivot, items => (pivot, items)
  | count + 1, cursor, pivot, items =>
    match items[cursor]? with
    | none => (pivot, items)
    | some value =>
      if compare value pivotValue = .lt then
        scan compare pivotValue count (cursor + 1) (pivot + 1)
          (swap (pivot + 1) cursor items)
      else scan compare pivotValue count (cursor + 1) pivot items

theorem scan_pivot_le (compare : α → α → Ordering) (pivotValue : α)
    (count cursor pivot : Nat) (items : List α) :
    pivot ≤ (scan compare pivotValue count cursor pivot items).1 ∧
      (scan compare pivotValue count cursor pivot items).1 ≤ pivot + count := by
  induction count generalizing cursor pivot items with
  | zero => simp [scan]
  | succ count ih =>
    cases hvalue : items[cursor]? with
    | none => simp [scan, hvalue]
    | some value =>
      by_cases hless : compare value pivotValue = .lt
      · have hrest := ih (cursor + 1) (pivot + 1) (swap (pivot + 1) cursor items)
        simp only [scan, hvalue, hless, if_true]
        omega
      · have hrest := ih (cursor + 1) pivot items
        simp only [scan, hvalue, hless, if_false]
        omega

/-- `quickSort (left, right)` with `count = right - left + 1`. -/
def quickSort (compare : α → α → Ordering) (left count : Nat)
    (items : List α) : List α :=
  if _hcount : 2 ≤ count then
    let center := (left + (left + count - 1)) / 2
    match items[center]?, items[left]? with
    | some pivotValue, some first =>
      let scanned := scan compare pivotValue (count - 1) (left + 1) left
        (items.set center first)
      let pivot := scanned.1
      match scanned.2[pivot]? with
      | none => items
      | some last =>
        let parted := (scanned.2.set left last).set pivot pivotValue
        quickSort compare (pivot + 1) (left + count - 1 - pivot)
          (quickSort compare left (pivot - left) parted)
    | _, _ => items
  else items
termination_by count
decreasing_by
  all_goals
    have hbound := scan_pivot_le compare pivotValue (count - 1) (left + 1) left
      (items.set ((left + (left + count - 1)) / 2) first)
    omega

def sort (compare : α → α → Ordering) (items : List α) : List α :=
  quickSort compare 0 items.length items

/-! ### Sorting moves the values only -/

theorem swap_perm (i j : Nat) (items : List α) : (swap i j items).Perm items := by
  unfold swap
  cases hi : items[i]? with
  | none => exact List.Perm.refl _
  | some x =>
    cases hj : items[j]? with
    | none => exact List.Perm.refl _
    | some y =>
      obtain ⟨hilt, rfl⟩ := List.getElem?_eq_some_iff.mp hi
      obtain ⟨hjlt, rfl⟩ := List.getElem?_eq_some_iff.mp hj
      exact List.set_set_perm hilt hjlt

theorem set_swap {left i j : Nat} (hi : left ≠ i) (hj : left ≠ j)
    (value : α) (items : List α) :
    (swap i j items).set left value = swap i j (items.set left value) := by
  unfold swap
  rw [List.getElem?_set_ne hi, List.getElem?_set_ne hj]
  cases hx : items[i]? with
  | none => rfl
  | some x =>
    cases hy : items[j]? with
    | none => rfl
    | some y =>
      simp only
      rw [List.set_comm _ _ (Ne.symm hj), List.set_comm _ _ (Ne.symm hi)]

theorem scan_set_perm (compare : α → α → Ordering) (pivotValue : α)
    {left : Nat} (value : α) (count cursor pivot : Nat) (items : List α)
    (hcursor : left < cursor) (hpivot : left ≤ pivot) :
    ((scan compare pivotValue count cursor pivot items).2.set left value).Perm
      (items.set left value) := by
  induction count generalizing cursor pivot items with
  | zero => exact List.Perm.refl _
  | succ count ih =>
    cases hvalue : items[cursor]? with
    | none => simp [scan, hvalue]
    | some current =>
      by_cases hless : compare current pivotValue = .lt
      · simp only [scan, hvalue, hless, if_true]
        refine (ih (cursor + 1) (pivot + 1) _ (by omega) (by omega)).trans ?_
        rw [set_swap (by omega) (by omega)]
        exact swap_perm _ _ _
      · simp only [scan, hvalue, hless, if_false]
        exact ih (cursor + 1) pivot items (by omega) hpivot

/-- The pivot value ends between the two parts. -/
theorem set_pivot_perm {left pivot : Nat} {last pivotValue : α} {items : List α}
    (hlast : items[pivot]? = some last) (hleft : left < items.length) :
    ((items.set left last).set pivot pivotValue).Perm
      (items.set left pivotValue) := by
  obtain ⟨hpivot, rfl⟩ := List.getElem?_eq_some_iff.mp hlast
  by_cases heq : left = pivot
  · subst heq
    rw [List.set_set]
  · have hleft' : left < (items.set left pivotValue).length := by
      simpa using hleft
    have hpivot' : pivot < (items.set left pivotValue).length := by
      simpa using hpivot
    have hswap := List.set_set_perm hleft' hpivot'
    rw [List.set_set, List.getElem_set_ne heq, List.getElem_set_self] at hswap
    exact hswap

theorem quickSort_perm (compare : α → α → Ordering) (left count : Nat)
    (items : List α) : (quickSort compare left count items).Perm items := by
  induction count using Nat.strongRecOn generalizing left items with
  | ind count ih =>
    rw [quickSort]
    split
    · simp only
      split
      · rename_i pivotValue first hcenter hfirst
        have hbound := scan_pivot_le compare pivotValue (count - 1) (left + 1)
          left (items.set ((left + (left + count - 1)) / 2) first)
        have hscan := scan_set_perm compare pivotValue pivotValue (count - 1)
          (left + 1) left (items.set ((left + (left + count - 1)) / 2) first)
          (Nat.lt_succ_self left) (Nat.le_refl left)
        obtain ⟨hleft, rfl⟩ := List.getElem?_eq_some_iff.mp hfirst
        obtain ⟨hmiddle, rfl⟩ := List.getElem?_eq_some_iff.mp hcenter
        have hstart := List.set_set_perm hmiddle hleft
        split
        · exact List.Perm.refl _
        · rename_i last hlast
          have hlength := hscan.length_eq
          simp only [List.length_set] at hlength
          refine (ih _ (by omega) _ _).trans ((ih _ (by omega) _ _).trans ?_)
          exact ((set_pivot_perm hlast (by omega)).trans hscan).trans hstart
      · exact List.Perm.refl _
    · exact List.Perm.refl _

theorem sort_perm (compare : α → α → Ordering) (items : List α) :
    (sort compare items).Perm items :=
  quickSort_perm compare 0 items.length items

end ListSorter

end SmlSharp
