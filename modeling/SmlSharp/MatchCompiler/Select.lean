/-
The selections of rows that a test makes: they keep the matrix typed, they lose
weight, and they do not change the first row that matches.
-/
import SmlSharp.MatchCompiler.Split

namespace SmlSharp

namespace MatchCompiler

variable {τ : Type} {S : Semantics τ}

/-- A typed row whose head needs a test or none. -/
def FitRow (S : Semantics τ) (c : Col τ) (cols : List (Col τ)) (row : Row τ) :
    Prop :=
  ∃ pat rest, row.pats = pat :: rest ∧ Plain pat ∧ c.Fits S pat ∧
    List.Forall₂ (Col.Fits S) cols rest

theorem FitRow.plainRow {c : Col τ} {cols : List (Col τ)} {row : Row τ}
    (hfit : FitRow S c cols row) : PlainRow S c row := by
  obtain ⟨pat, rest, hpats, hplain, hfits, -⟩ := hfit
  exact ⟨pat, rest, hpats, hplain, hfits⟩

/-- The rows that a selection makes are typed by the columns, and no heavier
than the rows they come from. -/
def Selects (S : Semantics τ) (cols : List (Col τ)) (rows : List (Row τ))
    (select : Row τ → Option (Row τ)) : Prop :=
  ∀ row ∈ rows, ∀ row', select row = some row' →
    row'.branch = row.branch ∧ row'.env = row.env ∧
      List.Forall₂ (Col.Fits S) cols row'.pats ∧ row'.weight ≤ row.weight

theorem Selects.rowsWeight_le {cols : List (Col τ)} {rows : List (Row τ)}
    {select : Row τ → Option (Row τ)} (hselects : Selects S cols rows select) :
    rowsWeight (rows.filterMap select) ≤ rowsWeight rows :=
  rowsWeight_filterMap_le fun row hrow row' hselect =>
    (hselects row hrow row' hselect).2.2.2

theorem mapM_eq_filterMap {f : Row τ → Except Failure (Row τ)}
    {select : Row τ → Option (Row τ)} {rows : List (Row τ)}
    (hrows : ∀ row ∈ rows, ∃ row', f row = .ok row' ∧ select row = some row') :
    rows.mapM f = .ok (rows.filterMap select) := by
  induction rows with
  | nil => rfl
  | cons row rows ih =>
    obtain ⟨row', hf, hselect⟩ := hrows row List.mem_cons_self
    have htail := ih fun other hother => hrows other (by simp [hother])
    rw [List.filterMap_cons_some hselect]
    simp [List.mapM_cons, hf, htail, bind, Except.bind, pure, Except.pure]

/-- A step that gives a row for each row selects what it gives. -/
theorem selects_of_rows {cols : List (Col τ)} {f : Row τ → Except Failure (Row τ)}
    {select : Row τ → Option (Row τ)} {rows : List (Row τ)}
    (hrows : ∀ row ∈ rows, ∃ row', f row = .ok row' ∧ select row = some row' ∧
      row'.branch = row.branch ∧ row'.env = row.env ∧
      List.Forall₂ (Col.Fits S) cols row'.pats ∧ row'.weight ≤ row.weight) :
    Selects S cols rows select ∧ rows.mapM f = .ok (rows.filterMap select) := by
  constructor
  · intro row hmem row' hselect
    obtain ⟨row'', -, hselect', hfacts⟩ := hrows row hmem
    obtain rfl : row'' = row' := by
      rw [hselect'] at hselect
      simpa using hselect
    exact hfacts
  · apply mapM_eq_filterMap
    intro row hmem
    obtain ⟨row', hok, hselect, -⟩ := hrows row hmem
    exact ⟨row', hok, hselect⟩

/-- The rows of a column that is not tested. -/
def selDrop : Row τ → Option (Row τ)
  | ⟨_ :: rest, branch, env⟩ => some ⟨rest, branch, env⟩
  | _ => none

/-- The rows under the only field of a record. -/
def selOnly (fieldTy : τ) : Row τ → Option (Row τ)
  | ⟨.recPat [(_, pat)] _ :: rest, branch, env⟩ =>
    some ⟨pat :: rest, branch, env⟩
  | ⟨.wildPat _ :: rest, branch, env⟩ =>
    some ⟨.wildPat fieldTy :: rest, branch, env⟩
  | _ => none

def selFirst (recordTy fieldTy : τ) : Row τ → Option (Row τ)
  | ⟨.recPat ((_, pat) :: fields) ty :: rest, branch, env⟩ =>
    some ⟨pat :: .recPat fields ty :: rest, branch, env⟩
  | ⟨.wildPat _ :: rest, branch, env⟩ =>
    some ⟨.wildPat fieldTy :: .wildPat recordTy :: rest, branch, env⟩
  | _ => none

variable {label : String} {fieldTy : τ} {fieldTys : List (String × τ)} {path : VarInfo τ}
  {ty : τ} {cons : List (Nat × Option τ)} {tag : Nat} {hasArg : Bool} {arg : Pat τ}
  {argv : Option Value} {w : Value} {id : Nat}

section Rows

variable {c : Col τ} {cols : List (Col τ)} {rows : List (Row τ)}

/-- The rows that are selected, seen by the heads of the rows they come from. -/
theorem selects_of_heads {cols' : List (Col τ)} {select : Row τ → Option (Row τ)}
    (hrows : ∀ row ∈ rows, FitRow S c cols row)
    (hheads : ∀ pat rest branch env row', c.Fits S pat → List.Forall₂ (Col.Fits S) cols rest →
      select ⟨pat :: rest, branch, env⟩ = some row' →
        row'.branch = branch ∧ row'.env = env ∧ List.Forall₂ (Col.Fits S) cols' row'.pats ∧
          row'.weight ≤ Row.weight ⟨pat :: rest, branch, env⟩) :
    Selects S cols' rows select := by
  intro row hrow row' hselect
  obtain ⟨pat, rest, hpats, -, hfits, hrest⟩ := hrows row hrow
  obtain ⟨pats, branch, env⟩ := row
  obtain rfl : pats = pat :: rest := hpats
  exact hheads pat rest branch env row' hfits hrest hselect

theorem selDrop_selects (hrows : ∀ row ∈ rows, FitRow S c cols row) :
    Selects S cols rows selDrop := by
  refine selects_of_heads hrows fun pat rest branch env row' _ hrest hselect => ?_
  obtain rfl : _ = row' := by simpa [selDrop] using hselect
  exact ⟨rfl, rfl, hrest, by simp [Row.weight]⟩

theorem mapM_dropHead (hrows : ∀ row ∈ rows, FitRow S c cols row) :
    rows.mapM dropHead = .ok (rows.filterMap selDrop) := by
  apply mapM_eq_filterMap
  intro row hrow
  obtain ⟨pat, rest, hpats, -⟩ := hrows row hrow
  obtain ⟨pats, branch, env⟩ := row
  obtain rfl : pats = pat :: rest := hpats
  exact ⟨_, rfl, rfl⟩

theorem selWild_selects (hrows : ∀ row ∈ rows, FitRow S c cols row) :
    Selects S cols rows selWild := by
  refine selects_of_heads hrows fun pat rest branch env row' _ hrest hselect => ?_
  cases pat with
  | wildPat ty =>
    obtain rfl : _ = row' := by simpa [selWild] using hselect
    exact ⟨rfl, rfl, hrest, by simp [Row.weight]⟩
  | _ => simp [selWild] at hselect

theorem selConst_selects (hrows : ∀ row ∈ rows, FitRow S c cols row)
    (k : Const) : Selects S cols rows (selConst k) := by
  refine selects_of_heads hrows fun pat rest branch env row' _ hrest hselect => ?_
  cases pat with
  | wildPat ty =>
    obtain rfl : _ = row' := by simpa [selConst] using hselect
    exact ⟨rfl, rfl, hrest, by simp [Row.weight]⟩
  | constPat k' ty =>
    by_cases hk : k' = k
    · obtain rfl : _ = row' := by simpa [selConst, hk] using hselect
      exact ⟨rfl, rfl, hrest, by simp [Row.weight]⟩
    · simp [selConst, hk] at hselect
  | _ => simp [selConst] at hselect

/-- The rows under a constructor, where the arguments of its patterns fit the
column of the argument. -/
theorem selCon_selects {K κ : Type} [DecidableEq κ] {key : K → κ}
    {readCon : Pat τ → Option (K × Pat τ)} {k : κ} {argument : Col τ}
    (hrows : ∀ row ∈ rows, FitRow S c cols row)
    (hread : ∀ pat con arg, readCon pat = some (con, arg) →
      arg.weight < pat.weight)
    (hargs : ∀ pat con arg, c.Fits S pat → readCon pat = some (con, arg) →
      key con = k → argument.Fits S arg) : Selects S (argument :: cols) rows
      (selCon key readCon k argument.ty) := by
  refine selects_of_heads hrows fun pat rest branch env row' hfits hrest hselect => ?_
  cases hr : readCon pat with
  | some found =>
    obtain ⟨con, arg⟩ := found
    by_cases hk : key con = k
    · obtain rfl : _ = row' := by simpa [selCon, hr, hk] using hselect
      have hless := hread pat con arg hr
      refine ⟨rfl, rfl, .cons (hargs pat con arg hfits hr hk) hrest, ?_⟩
      simp only [Row.weight, List.map_cons, List.sum_cons]
      omega
    · simp [selCon, hr, hk] at hselect
  | none =>
    cases pat with
    | wildPat ty =>
      obtain rfl : _ = row' := by simpa [selCon, hr] using hselect
      exact ⟨rfl, rfl, .cons argument.fits_wild hrest,
        by simp [Row.weight, Pat.weight]⟩
    | _ => simp [selCon, hr] at hselect

theorem onlyField_row (hfields : c.HasFields S [(label, fieldTy)])
    (hrows : ∀ row ∈ rows, FitRow S c cols row) :
    ∀ row ∈ rows, ∃ row', onlyField fieldTy row = .ok row' ∧
      selOnly fieldTy row = some row' ∧ row'.branch = row.branch ∧
      row'.env = row.env ∧
      List.Forall₂ (Col.Fits S) (.whole fieldTy :: cols) row'.pats ∧
      row'.weight ≤ row.weight := by
  intro row hrow
  obtain ⟨pat, rest, hpats, hplain, hfits, hrest⟩ := hrows row hrow
  obtain ⟨pats, branch, env⟩ := row
  obtain rfl : pats = pat :: rest := hpats
  rcases head_record hfields hplain hfits with
    ⟨ty, rfl⟩ | ⟨fields, rfl, htyped⟩
  · refine ⟨_, rfl, rfl, rfl, rfl, .cons ?_ hrest, ?_⟩
    · exact (Col.whole fieldTy).fits_wild
    · simp [Row.weight, Pat.weight]
  · cases fields with
    | nil => simp [fieldsTyped] at htyped
    | cons first others =>
      obtain ⟨label', pat⟩ := first
      obtain ⟨ty', restTys, htys, hpat, hothers⟩ := fieldsTyped_cons htyped
      obtain ⟨⟨rfl, rfl⟩, rfl⟩ :
          (label = label' ∧ fieldTy = ty') ∧ [] = restTys := by
        simpa using htys
      cases others with
      | nil =>
        refine ⟨_, rfl, rfl, rfl, rfl, .cons hpat hrest, ?_⟩
        simp only [Row.weight, List.map_cons, List.sum_cons, Pat.weight,
          fieldsWeight]
        omega
      | cons second others => simp [fieldsTyped] at hothers

theorem selOnly_selects (hfields : c.HasFields S [(label, fieldTy)])
    (hrows : ∀ row ∈ rows, FitRow S c cols row) :
    Selects S (.whole fieldTy :: cols) rows (selOnly fieldTy) ∧
      rows.mapM (onlyField fieldTy) =
        .ok (rows.filterMap (selOnly fieldTy)) :=
  selects_of_rows (onlyField_row hfields hrows)

theorem firstField_row (hfields : c.HasFields S ((label, fieldTy) :: fieldTys))
    (hrows : ∀ row ∈ rows, FitRow S c cols row) :
    ∀ row ∈ rows, ∃ row', firstField c.ty fieldTy row = .ok row' ∧
      selFirst c.ty fieldTy row = some row' ∧ row'.branch = row.branch ∧
      row'.env = row.env ∧ List.Forall₂ (Col.Fits S)
        (.whole fieldTy :: .part c.ty fieldTys :: cols) row'.pats ∧
      row'.weight ≤ row.weight := by
  intro row hrow
  obtain ⟨pat, rest, hpats, hplain, hfits, hrest⟩ := hrows row hrow
  obtain ⟨pats, branch, env⟩ := row
  obtain rfl : pats = pat :: rest := hpats
  rcases head_record hfields hplain hfits with
    ⟨ty, rfl⟩ | ⟨fields, rfl, htyped⟩
  · refine ⟨_, rfl, rfl, rfl, rfl, .cons ?_ (.cons ?_ hrest), ?_⟩
    · exact (Col.whole fieldTy).fits_wild
    · exact (Col.part c.ty fieldTys).fits_wild
    · simp [Row.weight, Pat.weight]
  · cases fields with
    | nil => simp [fieldsTyped] at htyped
    | cons first others =>
      obtain ⟨label', pat⟩ := first
      obtain ⟨ty', restTys, htys, hpat, hothers⟩ := fieldsTyped_cons htyped
      obtain ⟨⟨rfl, rfl⟩, rfl⟩ :
          (label = label' ∧ fieldTy = ty') ∧ fieldTys = restTys := by
        simpa using htys
      refine ⟨_, rfl, rfl, rfl, rfl, .cons hpat (.cons ?_ hrest), ?_⟩
      · exact Or.inr ⟨others, rfl, hothers⟩
      · simp only [Row.weight, List.map_cons, List.sum_cons, Pat.weight,
          fieldsWeight]
        omega

theorem selFirst_selects (hfields : c.HasFields S ((label, fieldTy) :: fieldTys))
    (hrows : ∀ row ∈ rows, FitRow S c cols row) :
    Selects S (.whole fieldTy :: .part c.ty fieldTys :: cols) rows
        (selFirst c.ty fieldTy) ∧ rows.mapM (firstField c.ty fieldTy) =
        .ok (rows.filterMap (selFirst c.ty fieldTy)) :=
  selects_of_rows (firstField_row hfields hrows)

/-! ### Selections that lose weight -/

theorem selCon_lt {K κ : Type} [DecidableEq κ] {key : K → κ}
    {readCon : Pat τ → Option (K × Pat τ)} {k : κ} {argument : Col τ}
    (hselects : Selects S (argument :: cols) rows
      (selCon key readCon k argument.ty))
    (hread : ∀ pat con arg, readCon pat = some (con, arg) →
      arg.weight < pat.weight) (hsome : ∃ row ∈ rows,
      HasHead (fun pat => ∃ found, readCon pat = some found) row) :
    rowsWeight (rows.filterMap (selCon key readCon k argument.ty)) <
      rowsWeight rows := by
  obtain ⟨row, hmem, pat, rest, hpats, ⟨con, arg⟩, hr⟩ := hsome
  have hless := hread pat con arg hr
  refine rowsWeight_filterMap_lt (fun row hrow row' hselect =>
    (hselects row hrow row' hselect).2.2.2) hmem ?_ ?_
  · simp only [Row.weight, hpats, List.map_cons, List.sum_cons]
    omega
  · intro row' hselect
    obtain ⟨pats, branch, env⟩ := row
    obtain rfl : pats = _ := hpats
    by_cases hk : key con = k
    · obtain rfl : _ = row' := by simpa [selCon, hr, hk] using hselect
      simp only [Row.weight, List.map_cons, List.sum_cons]
      omega
    · simp [selCon, hr, hk] at hselect

theorem selOnly_lt (hfields : c.HasFields S [(label, fieldTy)])
    (hrows : ∀ row ∈ rows, FitRow S c cols row)
    (hsome : ∃ row ∈ rows, HasHead IsRecord row) :
    rowsWeight (rows.filterMap (selOnly fieldTy)) < rowsWeight rows := by
  obtain ⟨row, hmem, pat, rest, hpats, fields, ty, rfl⟩ := hsome
  refine rowsWeight_filterMap_lt (fun row hrow row' hselect =>
    ((selOnly_selects hfields hrows).1 row hrow row' hselect).2.2.2) hmem ?_ ?_
  · simp only [Row.weight, hpats, List.map_cons, List.sum_cons, Pat.weight]
    omega
  · intro row' hselect
    obtain ⟨pats, branch, env⟩ := row
    obtain rfl : pats = _ := hpats
    rcases fields with _ | ⟨⟨label, pat⟩, _ | ⟨second, others⟩⟩
    · simp [selOnly] at hselect
    · obtain rfl : _ = row' := by simpa [selOnly] using hselect
      simp only [Row.weight, List.map_cons, List.sum_cons, Pat.weight,
        fieldsWeight]
      omega
    · simp [selOnly] at hselect

theorem selFirst_lt (hfields : c.HasFields S ((label, fieldTy) :: fieldTys))
    (hrows : ∀ row ∈ rows, FitRow S c cols row)
    (hsome : ∃ row ∈ rows, HasHead IsRecord row) :
    rowsWeight (rows.filterMap (selFirst c.ty fieldTy)) < rowsWeight rows := by
  obtain ⟨row, hmem, pat, rest, hpats, fields, ty, rfl⟩ := hsome
  refine rowsWeight_filterMap_lt (fun row hrow row' hselect =>
    ((selFirst_selects hfields hrows).1 row hrow row' hselect).2.2.2) hmem ?_ ?_
  · simp only [Row.weight, hpats, List.map_cons, List.sum_cons, Pat.weight]
    omega
  · intro row' hselect
    obtain ⟨pats, branch, env⟩ := row
    obtain rfl : pats = _ := hpats
    cases fields with
    | nil => simp [selFirst] at hselect
    | cons first others =>
      obtain rfl : _ = row' := by simpa [selFirst] using hselect
      simp only [Row.weight, List.map_cons, List.sum_cons, Pat.weight,
        fieldsWeight]
      omega

/-! ### Selections that keep the first match -/

theorem reduces_wild (hwild : ∀ row ∈ rows, HasHead IsWild row) (v : Value) (vs : List Value) :
    Reduces S path rows v vs vs (rows.filterMap selDrop) := by
  intro B bind ofEnv _
  refine (firstMatch_filterMap ?_).symm
  intro row hrow
  obtain ⟨pat, rest, hpats, ty, rfl⟩ := hwild row hrow
  obtain ⟨pats, branch, env⟩ := row
  obtain rfl : pats = _ := hpats
  simp [selDrop, Row.outcome, matchPats, matchPat]

/-- A selection keeps the first match if it keeps the outcome of every row, seen by
its head. -/
theorem reduces_of_heads {select : Row τ → Option (Row τ)}
    (hrows : ∀ row ∈ rows, FitRow S c cols row) {v : Value} {vs vs' : List Value}
    (hheads : ∀ pat rest branch env, ⟨pat :: rest, branch, env⟩ ∈ rows → Plain pat →
      c.Fits S pat → ∀ (B : Type) (bind : B → VarInfo τ → Value → B) (ofEnv : Env τ → B),
        (select ⟨pat :: rest, branch, env⟩).bind (Row.outcome S bind ofEnv vs') =
          Row.outcome S bind ofEnv (v :: vs) ⟨pat :: rest, branch, env⟩) :
    Reduces S path rows v vs vs' (rows.filterMap select) := by
  intro B bind ofEnv _
  refine (firstMatch_filterMap ?_).symm
  intro row hrow
  obtain ⟨pat, rest, hpats, hplain, hfits, -⟩ := hrows row hrow
  obtain ⟨pats, branch, env⟩ := row
  obtain rfl : pats = pat :: rest := hpats
  exact hheads pat rest branch env hrow hplain hfits B bind ofEnv

theorem reduces_unit (hfields : c.HasFields S [])
    (hrows : ∀ row ∈ rows, FitRow S c cols row) {v : Value}
    (hholds : c.Holds S v) (vs : List Value) :
    Reduces S path rows v vs vs (rows.filterMap selDrop) := by
  obtain ⟨fields, rfl, -⟩ := hholds.record hfields
  refine reduces_of_heads hrows fun pat rest branch env hrow hplain hfits B bind ofEnv => ?_
  rcases head_record hfields hplain hfits with ⟨ty, rfl⟩ | ⟨pats, rfl, htyped⟩
  · simp [selDrop, Row.outcome, matchPats, matchPat]
  · cases pats with
    | nil => simp [selDrop, Row.outcome, matchPats, matchPat, matchFields]
    | cons first others =>
      obtain ⟨label, pat⟩ := first
      simp [fieldsTyped] at htyped

theorem reduces_const {values : Const → Prop}
    (hshape : S.shape ty = .const values)
    (hrows : ∀ row ∈ rows, FitRow S (.whole ty) cols row) (k : Const)
    (vs : List Value) :
    Reduces S path rows (.const k) vs vs (rows.filterMap (selConst k)) := by
  refine reduces_of_heads hrows fun pat rest branch env hrow hplain hfits B bind ofEnv => ?_
  rcases head_const hshape hplain hfits with ⟨t, rfl⟩ | ⟨k', rfl, -⟩
  · simp [selConst, Row.outcome, matchPats, matchPat]
  · by_cases hk : k' = k
    · simp [selConst, Row.outcome, matchPats, matchPat, hk]
    · simp [selConst, Row.outcome, matchPats, matchPat, hk]

/-- The argument that a typed value of a datatype has. -/
theorem HasType.data_inv {con : Nat} {arg : Option Value} (htyped : HasType S (.data con arg) ty)
    (hshape : S.shape ty = .data cons) :
    ∃ argTy, (con, argTy) ∈ cons ∧ arg.isSome = argTy.isSome ∧
      ∀ v t, arg = some v → argTy = some t → HasType S v t := by
  cases htyped with
  | data hshape' hmem =>
    rw [hshape] at hshape'
    obtain rfl : cons = _ := by simpa using hshape'
    exact ⟨none, hmem, rfl, by simp⟩
  | dataArg hshape' hmem hv =>
    rw [hshape] at hshape'
    obtain rfl : cons = _ := by simpa using hshape'
    refine ⟨_, hmem, rfl, ?_⟩
    rintro u t ⟨⟩ ⟨⟩
    exact hv

theorem HasType.exn_inv {arg : Option Value}
    (htyped : HasType S (.exn tag arg) ty) :
    arg.isSome = (S.exnArg tag).isSome ∧
      ∀ v t, arg = some v → S.exnArg tag = some t → HasType S v t := by
  cases htyped with
  | exn _ hnone => exact ⟨by simp [hnone], by simp [hnone]⟩
  | exnArg _ hsome hv =>
    refine ⟨by simp [hsome], ?_⟩
    rintro u t ⟨⟩ ht
    rw [hsome] at ht
    obtain rfl : _ = t := by simpa using ht
    exact hv

theorem eq_of_mem_nodup (hnodup : (cons.map Prod.fst).Nodup) {con : Nat} {a b : Option τ}
    (ha : (con, a) ∈ cons) (hb : (con, b) ∈ cons) : a = b := by
  have hpair := List.inj_on_of_nodup_map hnodup ha hb rfl
  simpa using hpair

/-- A pattern for a constructor, on a value of the same constructor. -/
theorem matchPat_data {B : Type} {bind : B → VarInfo τ → Value → B}
    {con : ConInfo τ} {inst : Option (List τ)} {argTy : Option τ} (hhasArg : hasArg = argTy.isSome)
    (hfits : (argCol S argTy).Fits S arg) (hargv : argv.isSome = argTy.isSome)
    (hw : ∀ u, argv = some u → w = u) (b : B) :
    matchPat S bind (.dataConPat con inst hasArg arg ty) (.data con.id argv) b =
      matchPat S bind arg w b := by
  subst hhasArg
  cases argTy with
  | none =>
    obtain rfl : arg = .wildPat S.unitTy := hfits
    simp [matchPat]
  | some t =>
    cases argv with
    | none => simp at hargv
    | some u =>
      obtain rfl := hw u rfl
      simp [matchPat]

theorem matchPat_exn {B : Type} {bind : B → VarInfo τ → Value → B}
    {exn : ExnCon τ} {argTy : Option τ}
    (hhasArg : hasArg = argTy.isSome) (hfits : (argCol S argTy).Fits S arg)
    (hargv : argv.isSome = argTy.isSome)
    (hw : ∀ u, argv = some u → w = u) (b : B) :
    matchPat S bind (.exnConPat exn hasArg arg ty)
      (.exn (S.exnTag exn.key) argv) b = matchPat S bind arg w b := by
  subst hhasArg
  cases argTy with
  | none =>
    obtain rfl : arg = .wildPat S.unitTy := hfits
    simp [matchPat]
  | some t =>
    cases argv with
    | none => simp at hargv
    | some u =>
      obtain rfl := hw u rfl
      simp [matchPat]

theorem matchPat_data_ne {B : Type} {bind : B → VarInfo τ → Value → B}
    {con : ConInfo τ} {inst : Option (List τ)} (hne : con.id ≠ id) (argv : Option Value) (b : B) :
    matchPat S bind (.dataConPat con inst hasArg arg ty) (.data id argv) b =
      none := by
  cases hasArg <;> cases argv <;> simp [matchPat, hne]

theorem matchPat_exn_ne {B : Type} {bind : B → VarInfo τ → Value → B}
    {exn : ExnCon τ}
    (hne : S.exnTag exn.key ≠ tag) (argv : Option Value) (b : B) :
    matchPat S bind (.exnConPat exn hasArg arg ty) (.exn tag argv) b =
      none := by
  cases hasArg <;> cases argv <;> simp [matchPat, hne]

theorem reduces_data (hshape : S.shape ty = .data cons)
    (hrows : ∀ row ∈ rows, FitRow S (.whole ty) cols row) (htyped : HasType S (.data id argv) ty)
    (hw : ∀ u, argv = some u → w = u) (argTy : τ) (vs : List Value) :
    Reduces S path rows (.data id argv) vs (w :: vs)
      (rows.filterMap (selCon DataKey.id readDataCon id argTy)) := by
  obtain ⟨argTy', hmem', hargv, -⟩ := htyped.data_inv hshape
  refine reduces_of_heads hrows fun pat rest branch env hrow hplain hfits B bind ofEnv => ?_
  rcases head_data hshape hplain hfits with
    ⟨t, rfl⟩ | ⟨con, inst, hasArg, arg, argTy'', rfl, -, hmem, hhasArg, harg⟩
  · simp [selCon, readDataCon, Row.outcome, matchPats, matchPat]
  · by_cases hid : con.id = id
    · subst hid
      obtain rfl := eq_of_mem_nodup (S.data_nodup ty cons hshape) hmem hmem'
      simp only [selCon, readDataCon, DataKey.id, if_true, Option.bind_some,
        Row.outcome, matchPats, matchPat_data hhasArg harg hargv hw]
    · simp [selCon, readDataCon, DataKey.id, hid, Row.outcome, matchPats,
        matchPat_data_ne hid]

theorem reduces_data_default (hshape : S.shape ty = .data cons)
    (hrows : ∀ row ∈ rows, FitRow S (.whole ty) cols row)
    (hnot : ¬ TestsCon DataKey.id readDataCon id rows) (argv : Option Value)
    (vs : List Value) :
    Reduces S path rows (.data id argv) vs vs (rows.filterMap selWild) := by
  refine reduces_of_heads hrows fun pat rest branch env hrow hplain hfits B bind ofEnv => ?_
  rcases head_data hshape hplain hfits with
    ⟨t, rfl⟩ | ⟨con, inst, hasArg, arg, argTy, rfl, -⟩
  · simp [selWild, Row.outcome, matchPats, matchPat]
  · have hid : con.id ≠ id := fun heq =>
      hnot ⟨_, hrow, _, rest, rfl, (con, inst, hasArg), arg, rfl, heq⟩
    simp [selWild, Row.outcome, matchPats, matchPat_data_ne hid]

theorem reduces_exn (hshape : S.shape ty = .exn)
    (hrows : ∀ row ∈ rows, FitRow S (.whole ty) cols row) {key : ExnKey}
    (hkey : S.exnCons key) (htyped : HasType S (.exn (S.exnTag key) argv) ty)
    (hw : ∀ u, argv = some u → w = u) (argTy : τ)
    (vs : List Value) :
    Reduces S path rows (.exn (S.exnTag key) argv) vs (w :: vs)
      (rows.filterMap (selCon ExnConKey.key readExnCon key argTy)) := by
  obtain ⟨hargv, -⟩ := htyped.exn_inv
  refine reduces_of_heads hrows fun pat rest branch env hrow hplain hfits B bind ofEnv => ?_
  rcases head_exn hshape hplain hfits with
    ⟨t, rfl⟩ | ⟨exn, hasArg, arg, argTy', rfl, hcon, rfl, hhasArg, harg⟩
  · simp [selCon, readExnCon, Row.outcome, matchPats, matchPat]
  · by_cases heq : exn.key = key
    · subst heq
      simp only [selCon, readExnCon, ExnConKey.key, if_true, Option.bind_some,
        Row.outcome, matchPats, matchPat_exn hhasArg harg hargv hw]
    · have htag : S.exnTag exn.key ≠ S.exnTag key := fun htag =>
        heq (S.exn_distinct _ _ hcon hkey htag)
      simp [selCon, readExnCon, ExnConKey.key, heq, Row.outcome, matchPats,
        matchPat_exn_ne htag]

theorem reduces_exn_default (hshape : S.shape ty = .exn)
    (hrows : ∀ row ∈ rows, FitRow S (.whole ty) cols row)
    (hnot : ∀ key, TestsCon ExnConKey.key readExnCon key rows →
      S.exnTag key ≠ tag) (argv : Option Value) (vs : List Value) :
    Reduces S path rows (.exn tag argv) vs vs (rows.filterMap selWild) := by
  refine reduces_of_heads hrows fun pat rest branch env hrow hplain hfits B bind ofEnv => ?_
  rcases head_exn hshape hplain hfits with
    ⟨t, rfl⟩ | ⟨exn, hasArg, arg, argTy, rfl, -⟩
  · simp [selWild, Row.outcome, matchPats, matchPat]
  · have htag : S.exnTag exn.key ≠ tag := hnot exn.key
      ⟨_, hrow, _, rest, rfl, (exn, hasArg), arg, rfl, rfl⟩
    simp [selWild, Row.outcome, matchPats, matchPat_exn_ne htag]

theorem reduces_only (hfields : c.HasFields S [(label, fieldTy)])
    (hrows : ∀ row ∈ rows, FitRow S c cols row) {fields : List (String × Value)}
    (hlookup : fields.lookup label = some w) (vs : List Value) :
    Reduces S path rows (.record fields) vs (w :: vs)
      (rows.filterMap (selOnly fieldTy)) := by
  refine reduces_of_heads hrows fun pat rest branch env hrow hplain hfits B bind ofEnv => ?_
  rcases head_record hfields hplain hfits with ⟨ty, rfl⟩ | ⟨pats, rfl, htyped⟩
  · simp [selOnly, Row.outcome, matchPats, matchPat]
  · cases pats with
    | nil => simp [fieldsTyped] at htyped
    | cons first others =>
      obtain ⟨label', pat⟩ := first
      obtain ⟨ty', restTys, htys, -, hothers⟩ := fieldsTyped_cons htyped
      obtain ⟨⟨rfl, rfl⟩, rfl⟩ :
          (label = label' ∧ fieldTy = ty') ∧ [] = restTys := by
        simpa using htys
      cases others with
      | cons second others => simp [fieldsTyped] at hothers
      | nil =>
        simp [selOnly, Row.outcome, matchPats, matchPat, matchFields,
          hlookup]

theorem reduces_first (hfields : c.HasFields S ((label, fieldTy) :: fieldTys))
    (hrows : ∀ row ∈ rows, FitRow S c cols row) {fields : List (String × Value)}
    (hlookup : fields.lookup label = some w) (vs : List Value) :
    Reduces S path rows (.record fields) vs (w :: .record fields :: vs)
      (rows.filterMap (selFirst c.ty fieldTy)) := by
  refine reduces_of_heads hrows fun pat rest branch env hrow hplain hfits B bind ofEnv => ?_
  rcases head_record hfields hplain hfits with ⟨ty, rfl⟩ | ⟨pats, rfl, htyped⟩
  · simp [selFirst, Row.outcome, matchPats, matchPat]
  · cases pats with
    | nil => simp [fieldsTyped] at htyped
    | cons first others =>
      obtain ⟨label', pat⟩ := first
      obtain ⟨ty', restTys, htys, -, -⟩ := fieldsTyped_cons htyped
      obtain ⟨⟨rfl, rfl⟩, rfl⟩ :
          (label = label' ∧ fieldTy = ty') ∧ fieldTys = restTys := by
        simpa using htys
      simp [selFirst, Row.outcome, matchPats, matchPat, matchFields, hlookup,
        Option.bind_assoc]

end Rows

end MatchCompiler

end SmlSharp
