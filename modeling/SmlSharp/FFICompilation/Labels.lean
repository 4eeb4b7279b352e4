/-
Maps of labels whose entries are already listed in their order, and the labels
of tuples.
-/
import Mathlib.Data.List.TakeWhile
import SmlSharp.FFICompilation.TypedCalc

namespace SmlSharp.FFICompilation

open RecordLabel (Label)

/-- The labels are listed in their order. -/
def AscendingLabels (labels : List Label) : Prop :=
  labels.Pairwise fun label1 label2 => RecordLabel.compare label1 label2 = .lt

theorem compare_ne_lt_of_lt {label1 label2 : Label}
    (h : RecordLabel.compare label1 label2 = .lt) :
    RecordLabel.compare label2 label1 ≠ .lt := by
  rw [RecordLabel.compare_swap, h]
  decide

theorem AscendingLabels.nodup {labels : List Label} (h : AscendingLabels labels) :
    labels.Nodup := by
  refine h.imp ?_
  rintro label label' hlt rfl
  exact compare_ne_lt_of_lt hlt hlt

/-- The comparison is a total order on labels that are listed in their order. -/
theorem AscendingLabels.strictTotalOn {labels : List Label} (h : AscendingLabels labels) :
    StrictTotalOn RecordLabel.compare fun label => label ∈ labels where
  eq_iff a b _ _ := RecordLabel.compare_eq a b
  swap a b _ _ := RecordLabel.compare_swap a b
  trans := by
    induction labels with
    | nil =>
      intro a b c ha
      cases ha
    | cons label labels ih =>
      obtain ⟨hhead, htail⟩ := List.pairwise_cons.1 h
      intro a b c ha hb hc hab hbc
      rcases List.mem_cons.1 hc with heq | hc
      · rcases List.mem_cons.1 hb with hbeq | hb
        · rw [heq, hbeq] at hbc
          exact absurd hbc (compare_ne_lt_of_lt hbc)
        · rw [heq] at hbc
          exact absurd hbc (compare_ne_lt_of_lt (hhead b hb))
      · rcases List.mem_cons.1 ha with heq | ha
        · rw [heq]
          exact hhead c hc
        · rcases List.mem_cons.1 hb with hbeq | hb
          · rw [hbeq] at hab
            exact absurd hab (compare_ne_lt_of_lt (hhead a ha))
          · exact ih htail a b c ha hb hc hab hbc

theorem labelMapFromList_ascending {α : Type} {fields : List (Label × α)}
    (h : AscendingLabels (fields.map Prod.fst)) : labelMapFromList fields = .ok fields := by
  have htotal := h.strictTotalOn
  have hkeys : ∀ entry ∈ fields, entry.1 ∈ fields.map Prod.fst :=
    fun entry hentry => List.mem_map_of_mem hentry
  obtain ⟨map, hmap, hasc, hperm⟩ :=
    BinaryMap.insertAll_spec htotal fields hkeys h.nodup
  have hfields : BinaryMap.Ascending RecordLabel.compare fields := List.pairwise_map.1 h
  rw [labelMapFromList, hmap]
  exact congrArg Except.ok
    (BinaryMap.ascending_perm_eq htotal (fun entry hentry => hkeys entry (hperm.mem_iff.1 hentry))
      hperm hasc hfields)

/-! ### The labels of tuples -/

theorem head_toDigits {n : Nat} (hpos : 0 < n) :
    ∃ c rest, Nat.toDigits 10 n = c :: rest ∧ c ≠ '0' := by
  induction n using Nat.strong_induction_on with
  | _ n ih =>
    rcases Nat.lt_or_ge n 10 with hlt | hge
    · refine ⟨n.digitChar, [], Nat.toDigits_of_lt_base hlt, ?_⟩
      rw [ne_eq, Nat.digitChar_eq_zero]
      omega
    · obtain ⟨c, rest, hdigits, hne⟩ := ih (n / 10) (by omega) (by omega)
      refine ⟨c, rest ++ [(n % 10).digitChar], ?_, hne⟩
      rw [Nat.toDigits_of_base_le (by omega) hge, hdigits]
      rfl

theorem numericPrefix_toString {n : Nat} (hpos : 0 < n) :
    RecordLabel.numericPrefix (toString n) = some n := by
  obtain ⟨c, rest, hdigits, hne⟩ := head_toDigits hpos
  have hall : ∀ d ∈ Nat.toDigits 10 n, d.isDigit = true :=
    fun d hd => Nat.isDigit_of_mem_toDigits (by omega) (by omega) hd
  have hlist : (toString n).toList = c :: rest := by
    rw [Nat.toString_eq_repr, Nat.toList_repr, hdigits]
  rw [hdigits] at hall
  have hscan : RecordLabel.scanDec (c :: rest) = (n, []) := by
    rw [RecordLabel.scanDec, List.takeWhile_eq_self_iff.2 hall, List.dropWhile_eq_nil_iff.2 hall,
      ← hdigits]
    exact congrArg (·, []) (Nat.ofDigitChars_toDigits (by omega) (by omega))
  have hc : c.isDigit = true := hall c List.mem_cons_self
  rw [RecordLabel.numericPrefix, hlist]
  simp [hc, hne, hscan]

theorem compare_toString {m n : Nat} (hpos : 0 < m) (hlt : m < n) :
    RecordLabel.compare (toString m) (toString n) = .lt :=
  (RecordLabel.compare_lt_of_some (numericPrefix_toString hpos)
    (numericPrefix_toString (hpos.trans hlt))).2 (Or.inl hlt)

theorem mem_tupleListFrom_label {α : Type} {n : Nat} {values : List α} {label : Label}
    (h : label ∈ (tupleListFrom n values).map Prod.fst) : ∃ k, n ≤ k ∧ label = toString k := by
  induction values generalizing n with
  | nil => cases h
  | cons value values ih =>
    rcases List.mem_cons.1 h with rfl | h
    · exact ⟨n, le_refl n, rfl⟩
    · obtain ⟨k, hle, hlabel⟩ := ih h
      exact ⟨k, by omega, hlabel⟩

theorem ascendingLabels_tupleListFrom {α : Type} {n : Nat} (values : List α) (hpos : 0 < n) :
    AscendingLabels ((tupleListFrom n values).map Prod.fst) := by
  induction values generalizing n with
  | nil => exact List.Pairwise.nil
  | cons value values ih =>
    refine List.pairwise_cons.2 ⟨?_, ih (Nat.succ_pos n)⟩
    intro label hlabel
    obtain ⟨k, hle, rfl⟩ := mem_tupleListFrom_label hlabel
    exact compare_toString hpos (by omega)

theorem labelMapFromList_tupleList {α : Type} (values : List α) :
    labelMapFromList (tupleList values) = .ok (tupleList values) :=
  labelMapFromList_ascending (ascendingLabels_tupleListFrom values Nat.one_pos)

theorem tupleMap_ok {α : Type} (values : List α) : tupleMap values = .ok (tupleList values) :=
  labelMapFromList_tupleList values

end SmlSharp.FFICompilation
