/-
Record labels and the comparison that orders the fields of every record type.
-/
import SmlSharp.Lib.BinaryMap
import Mathlib.Data.String.Basic
import Mathlib.Order.Basic

namespace SmlSharp

namespace RecordLabel

abbrev Label := String

/-- `String.compare`: the lexicographic order of the characters. -/
def stringCompare (x y : String) : Ordering :=
  if x.toList < y.toList then .lt else if x = y then .eq else .gt

/-- `IntInf.compare`. -/
def intCompare (m n : Nat) : Ordering :=
  if m < n then .lt else if m = n then .eq else .gt

/-- `IntInf.scan` of a text that starts with a decimal digit. -/
def scanDec (s : List Char) : Nat × List Char :=
  ((s.takeWhile Char.isDigit).foldl
      (fun n c => 10 * n + (c.toNat - '0'.toNat)) 0,
    s.dropWhile Char.isDigit)

/-- Match with `^[1-9][0-9]*($|_)`. -/
def numericPrefix (s : Label) : Option Nat :=
  match s.toList with
  | [] => none
  | c :: rest =>
    if c.isDigit && c != '0' then
      match scanDec (c :: rest) with
      | (n, []) => some n
      | (n, c :: _) => if c = '_' then some n else none
    else none

/-- There are four kinds of record labels: numeric, numeric-with-id, id, and
string.  Numeric and numeric-with-id ones are ordered by their numeric parts. -/
def compare (x y : Label) : Ordering :=
  match numericPrefix x, numericPrefix y with
  | some m, some n =>
    match intCompare m n with
    | .eq => stringCompare x y
    | order => order
  | _, _ => stringCompare x y

attribute [local simp] intCompare compare

theorem stringCompare_lt {x y : String} :
    stringCompare x y = .lt ↔ x.toList < y.toList := by
  by_cases hlt : x.toList < y.toList
  · simp [stringCompare, hlt]
  · by_cases heq : x = y <;> simp [stringCompare, hlt, heq]

theorem stringCompare_eq {x y : String} : stringCompare x y = .eq ↔ x = y := by
  by_cases hlt : x.toList < y.toList
  · have hne : x ≠ y := by
      rintro rfl
      exact lt_irrefl _ hlt
    simp [stringCompare, hlt, hne]
  · by_cases heq : x = y <;> simp [stringCompare, hlt, heq]

theorem stringCompare_swap (x y : String) :
    stringCompare y x = (stringCompare x y).swap := by
  rcases lt_trichotomy x.toList y.toList with hlt | heq | hgt
  · have hne : y ≠ x := by
      rintro rfl
      exact lt_irrefl _ hlt
    simp [stringCompare, hlt, hlt.asymm, hne]
  · obtain rfl := String.toList_injective heq
    simp [stringCompare]
  · have hne : x ≠ y := by
      rintro rfl
      exact lt_irrefl _ hgt
    simp [stringCompare, hgt, hgt.asymm, hne]

/-! ### The comparison on a set of labels -/

/-- Two labels with numbers are ordered by the numbers first. -/
def NumberedBefore (a b : Label) : Prop :=
  ∃ m n, numericPrefix a = some m ∧ numericPrefix b = some n ∧ m < n

/-- No label without a number stands, as a string, between two labels whose
numbers are in the other order than their strings. -/
def Separated (labels : Label → Prop) : Prop :=
  ∀ a b c, labels a → labels b → labels c → NumberedBefore a b →
    numericPrefix c = none → ¬ (b.toList < c.toList ∧ c.toList < a.toList)

theorem compare_of_none_left {x y : Label} (hx : numericPrefix x = none) :
    compare x y = stringCompare x y := by
  simp [hx]

theorem compare_of_none_right {x y : Label} (hy : numericPrefix y = none) :
    compare x y = stringCompare x y := by
  cases hx : numericPrefix x <;> simp [hx, hy]

theorem compare_lt_of_some {x y : Label} {m n : Nat}
    (hx : numericPrefix x = some m) (hy : numericPrefix y = some n) :
    compare x y = .lt ↔ m < n ∨ m = n ∧ x.toList < y.toList := by
  rcases lt_trichotomy m n with hlt | heq | hgt
  · simp [hx, hy, hlt]
  · simp [hx, hy, heq, stringCompare_lt]
  · simp [hx, hy, hgt.asymm, hgt.ne']

theorem compare_eq (x y : Label) : compare x y = .eq ↔ x = y := by
  cases hx : numericPrefix x with
  | none => rw [compare_of_none_left hx, stringCompare_eq]
  | some m =>
    cases hy : numericPrefix y with
    | none => rw [compare_of_none_right hy, stringCompare_eq]
    | some n =>
      rcases lt_trichotomy m n with hlt | heq | hgt
      · have hne : x ≠ y := by
          rintro rfl
          simp_all
        simp [hx, hy, hlt, hne]
      · simp [hx, hy, heq, stringCompare_eq]
      · have hne : x ≠ y := by
          rintro rfl
          simp_all
        simp [hx, hy, hgt.asymm, hgt.ne', hne]

theorem compare_swap (x y : Label) : compare y x = (compare x y).swap := by
  cases hx : numericPrefix x with
  | none =>
    rw [compare_of_none_left hx, compare_of_none_right hx,
      stringCompare_swap]
  | some m =>
    cases hy : numericPrefix y with
    | none =>
      rw [compare_of_none_right hy, compare_of_none_left hy,
        stringCompare_swap]
    | some n =>
      rcases lt_trichotomy m n with hlt | heq | hgt
      · simp [hx, hy, hlt, hlt.asymm, hlt.ne']
      · simp [hx, hy, heq, stringCompare_swap x y]
      · simp [hx, hy, hgt, hgt.asymm, hgt.ne']

/-- The middle label of a chain that is broken separates two numbered ones. -/
theorem compare_trans {labels : Label → Prop} (hsep : Separated labels)
    {a b c : Label} (ha : labels a) (hb : labels b) (hc : labels c)
    (hab : compare a b = .lt) (hbc : compare b c = .lt) :
    compare a c = .lt := by
  cases hna : numericPrefix a with
  | none =>
    rw [compare_of_none_left hna, stringCompare_lt] at hab ⊢
    cases hnb : numericPrefix b with
    | none =>
      rw [compare_of_none_left hnb, stringCompare_lt] at hbc
      exact hab.trans hbc
    | some n =>
      cases hnc : numericPrefix c with
      | none =>
        rw [compare_of_none_right hnc, stringCompare_lt] at hbc
        exact hab.trans hbc
      | some k =>
        rcases (compare_lt_of_some hnb hnc).mp hbc with hlt | ⟨-, hlt⟩
        · -- the strings of `b` and `c` may be in the other order
          have hnot := hsep b c a hb hc ha ⟨n, k, hnb, hnc, hlt⟩ hna
          have hne : a ≠ c := by
            rintro rfl
            simp [hna] at hnc
          have hne' : a.toList ≠ c.toList :=
            fun heq => hne (String.toList_injective heq)
          exact lt_of_le_of_ne
            (not_lt.mp fun hca => hnot ⟨hca, hab⟩) hne'
        · exact hab.trans hlt
  | some m =>
    cases hnb : numericPrefix b with
    | none =>
      rw [compare_of_none_right hnb, stringCompare_lt] at hab
      rw [compare_of_none_left hnb, stringCompare_lt] at hbc
      cases hnc : numericPrefix c with
      | none =>
        rw [compare_of_none_right hnc, stringCompare_lt]
        exact hab.trans hbc
      | some k =>
        apply (compare_lt_of_some hna hnc).mpr
        rcases lt_trichotomy m k with hlt | heq | hgt
        · exact Or.inl hlt
        · exact Or.inr ⟨heq, hab.trans hbc⟩
        · exact absurd ⟨hab, hbc⟩
            (hsep c a b hc ha hb ⟨k, m, hnc, hna, hgt⟩ hnb)
    | some n =>
      have hmn := (compare_lt_of_some hna hnb).mp hab
      cases hnc : numericPrefix c with
      | none =>
        rw [compare_of_none_right hnc, stringCompare_lt] at hbc ⊢
        rcases hmn with hlt | ⟨-, hlt⟩
        · have hnot := hsep a b c ha hb hc ⟨m, n, hna, hnb, hlt⟩ hnc
          have hne : a ≠ c := by
            rintro rfl
            simp [hna] at hnc
          have hne' : a.toList ≠ c.toList :=
            fun heq => hne (String.toList_injective heq)
          exact lt_of_le_of_ne
            (not_lt.mp fun hca => hnot ⟨hbc, hca⟩) hne'
        · exact hlt.trans hbc
      | some k =>
        have hnk := (compare_lt_of_some hnb hnc).mp hbc
        apply (compare_lt_of_some hna hnc).mpr
        rcases hmn with hlt | ⟨heq, hlt⟩
        · rcases hnk with hlt' | ⟨heq', -⟩
          · exact Or.inl (hlt.trans hlt')
          · exact Or.inl (heq' ▸ hlt)
        · rcases hnk with hlt' | ⟨heq', hlt'⟩
          · exact Or.inl (heq ▸ hlt')
          · exact Or.inr ⟨heq.trans heq', hlt.trans hlt'⟩

theorem compare_strictTotalOn {labels : Label → Prop}
    (hsep : Separated labels) : StrictTotalOn compare labels where
  eq_iff a b _ _ := compare_eq a b
  swap a b _ _ := compare_swap a b
  trans _ _ _ ha hb hc := compare_trans hsep ha hb hc

theorem separated_of_trans {labels : Label → Prop}
    (htotal : StrictTotalOn compare labels) : Separated labels := by
  rintro a b c ha hb hc ⟨m, n, hna, hnb, hlt⟩ hnc ⟨hbc, hca⟩
  have hab : compare a b = .lt := (compare_lt_of_some hna hnb).mpr (Or.inl hlt)
  have hbc' : compare b c = .lt := by
    rwa [compare_of_none_right hnc, stringCompare_lt]
  have hac := htotal.trans a b c ha hb hc hab hbc'
  rw [compare_of_none_right hnc, stringCompare_lt] at hac
  exact lt_asymm hac hca

/-- Maps and sets over some labels do not depend on the order of insertion. -/
def InsertionIndependent (labels : Label → Prop) : Prop :=
  (∀ (V : Type) (first second : List (Label × V)), first.Perm second →
    (∀ entry ∈ first, labels entry.1) → (first.map Prod.fst).Nodup →
    ∃ left right, BinaryMap.insertAll compare first = some left ∧
      BinaryMap.insertAll compare second = some right ∧
      left.listItemsi = right.listItemsi) ∧
  (∀ first second : List Label, first.Perm second →
    (∀ label ∈ first, labels label) → first.Nodup →
    ∃ left right, BinaryMap.addAll compare first = some left ∧
      BinaryMap.addAll compare second = some right ∧
      left.listItemsi = right.listItemsi)

/-- The comparison is a strict total order, with the maps and sets it builds
independent of the order of insertion, exactly on separated sets of labels. -/
theorem compare_total_iff (labels : Label → Prop) :
    StrictTotalOn compare labels ∧ InsertionIndependent labels ↔
      Separated labels := by
  constructor
  · rintro ⟨htotal, -⟩
    exact separated_of_trans htotal
  · intro hsep
    have htotal := compare_strictTotalOn hsep
    refine ⟨htotal, ?_, ?_⟩
    · intro V first second hperm hkeys hnodup
      exact BinaryMap.insertAll_perm htotal hperm hkeys hnodup
    · intro first second hperm hkeys hnodup
      exact BinaryMap.addAll_perm htotal hperm hkeys hnodup

/-- `9` stands before `10` as a number, and `1a` between them as strings. -/
theorem compare_not_total :
    ¬ (StrictTotalOn compare (fun _ => True) ∧
      InsertionIndependent fun _ => True) := by
  rintro ⟨htotal, -⟩
  have h := htotal.trans "9" "10" "1a" trivial trivial trivial (by decide)
    (by decide)
  exact absurd h (by decide)

end RecordLabel

end SmlSharp
