/-
How a tested column splits the matrix: the branches of constants and of
constructors, and the rows under the fields of a record.
-/
import SmlSharp.MatchCompiler.Matrix

namespace SmlSharp

namespace MatchCompiler

variable {τ : Type} {S : Semantics τ}

/-! ### The heads of a column -/

/-- A row whose head is a pattern of the column that needs a test or none. -/
def PlainRow (S : Semantics τ) (c : Col τ) (row : Row τ) : Prop :=
  ∃ pat rest, row.pats = pat :: rest ∧ Plain pat ∧ c.Fits S pat

def IsWild (pat : Pat τ) : Prop :=
  ∃ ty, pat = .wildPat ty

/-- A row has a head that some test asks for. -/
def HasHead (head : Pat τ → Prop) (row : Row τ) : Prop :=
  ∃ pat rest, row.pats = pat :: rest ∧ head pat

theorem head_const {ty : τ} {values : Const → Prop} {pat : Pat τ}
    (hshape : S.shape ty = .const values) (hplain : Plain pat)
    (hfits : (Col.whole ty).Fits S pat) :
    IsWild pat ∨ ∃ c, pat = .constPat c ty ∧ values c := by
  cases pat with
  | wildPat t => exact Or.inl ⟨t, rfl⟩
  | constPat c t =>
    simp only [Col.Fits, Pat.Typed, hshape] at hfits
    obtain ⟨rfl, values', hvalues, hc⟩ := hfits
    obtain rfl : values = values' := by simpa using hvalues
    exact Or.inr ⟨c, rfl, hc⟩
  | varPat x => exact hplain.elim
  | layerPat left right => exact hplain.elim
  | orPat left right => exact hplain.elim
  | dataConPat con inst hasArg arg t =>
    simp [Col.Fits, Pat.Typed, hshape] at hfits
  | exnConPat exn hasArg arg t =>
    simp [Col.Fits, Pat.Typed, hshape] at hfits
  | recPat fields t => simp [Col.Fits, Pat.Typed, hshape] at hfits

/-- The column of a constructor's argument. -/
def argCol (S : Semantics τ) : Option τ → Col τ
  | some ty => .whole ty
  | none => .unused S.unitTy

theorem head_data {ty : τ} {cons : List (Nat × Option τ)} {pat : Pat τ}
    (hshape : S.shape ty = .data cons) (hplain : Plain pat)
    (hfits : (Col.whole ty).Fits S pat) :
    IsWild pat ∨ ∃ con inst hasArg arg argTy,
      pat = .dataConPat con inst hasArg arg ty ∧
        getTagNums S.toTypes con = .ok cons.length ∧
        (con.id, argTy) ∈ cons ∧ hasArg = argTy.isSome ∧
        (argCol S argTy).Fits S arg := by
  cases pat with
  | wildPat t => exact Or.inl ⟨t, rfl⟩
  | dataConPat con inst hasArg arg t =>
    simp only [Col.Fits, Pat.Typed, hshape] at hfits
    obtain ⟨rfl, cons', hcons, htag, harg⟩ := hfits
    obtain rfl : cons = cons' := by simpa using hcons
    refine Or.inr ⟨con, inst, hasArg, arg, ?_⟩
    rcases harg with ⟨rfl, argTy, hmem, htyped⟩ | ⟨rfl, hmem, rfl⟩
    · exact ⟨some argTy, rfl, htag, hmem, rfl, htyped⟩
    · exact ⟨none, rfl, htag, hmem, rfl, rfl⟩
  | varPat x => exact hplain.elim
  | layerPat left right => exact hplain.elim
  | orPat left right => exact hplain.elim
  | constPat c t => simp [Col.Fits, Pat.Typed, hshape] at hfits
  | exnConPat exn hasArg arg t =>
    simp [Col.Fits, Pat.Typed, hshape] at hfits
  | recPat fields t => simp [Col.Fits, Pat.Typed, hshape] at hfits

theorem head_exn {ty : τ} {pat : Pat τ} (hshape : S.shape ty = .exn)
    (hplain : Plain pat) (hfits : (Col.whole ty).Fits S pat) :
    IsWild pat ∨ ∃ exn hasArg arg argTy,
      pat = .exnConPat exn hasArg arg ty ∧ S.exnCons exn.key ∧
        S.exnArg (S.exnTag exn.key) = argTy ∧ hasArg = argTy.isSome ∧
        (argCol S argTy).Fits S arg := by
  cases pat with
  | wildPat t => exact Or.inl ⟨t, rfl⟩
  | exnConPat exn hasArg arg t =>
    simp only [Col.Fits, Pat.Typed, hshape] at hfits
    obtain ⟨rfl, -, hcon, harg⟩ := hfits
    refine Or.inr ⟨exn, hasArg, arg, ?_⟩
    rcases harg with ⟨rfl, argTy, hexn, htyped⟩ | ⟨rfl, hexn, rfl⟩
    · exact ⟨some argTy, rfl, hcon, hexn, rfl, htyped⟩
    · exact ⟨none, rfl, hcon, hexn, rfl, rfl⟩
  | varPat x => exact hplain.elim
  | layerPat left right => exact hplain.elim
  | orPat left right => exact hplain.elim
  | constPat c t => simp [Col.Fits, Pat.Typed, hshape] at hfits
  | dataConPat con inst hasArg arg t =>
    simp [Col.Fits, Pat.Typed, hshape] at hfits
  | recPat fields t => simp [Col.Fits, Pat.Typed, hshape] at hfits

theorem head_record {c : Col τ} {fieldTys : List (String × τ)} {pat : Pat τ}
    (hfields : c.HasFields S fieldTys) (hplain : Plain pat)
    (hfits : c.Fits S pat) : IsWild pat ∨ ∃ pats, pat = .recPat pats c.ty ∧
      fieldsTyped S pats fieldTys := by
  cases pat with
  | wildPat t => exact Or.inl ⟨t, rfl⟩
  | recPat pats t =>
    obtain ⟨rfl, fieldTys', hfields', htyped⟩ := hfits.record
    rw [hfields'.unique hfields] at htyped
    exact Or.inr ⟨pats, rfl, htyped⟩
  | varPat x => exact hplain.elim
  | layerPat left right => exact hplain.elim
  | orPat left right => exact hplain.elim
  | constPat k t =>
    cases c with
    | whole ty =>
      have hshape : S.shape ty = .record fieldTys := hfields
      simp [Col.Fits, Pat.Typed, hshape] at hfits
    | part ty rest => simp [Col.Fits] at hfits
    | unused ty => simp [Col.Fits] at hfits
  | dataConPat con inst hasArg arg t =>
    cases c with
    | whole ty =>
      have hshape : S.shape ty = .record fieldTys := hfields
      simp [Col.Fits, Pat.Typed, hshape] at hfits
    | part ty rest => simp [Col.Fits] at hfits
    | unused ty => simp [Col.Fits] at hfits
  | exnConPat exn hasArg arg t =>
    cases c with
    | whole ty =>
      have hshape : S.shape ty = .record fieldTys := hfields
      simp [Col.Fits, Pat.Typed, hshape] at hfits
    | part ty rest => simp [Col.Fits] at hfits
    | unused ty => simp [Col.Fits] at hfits

def IsConst (pat : Pat τ) : Prop :=
  ∃ c ty, pat = .constPat c ty

def IsDataCon (pat : Pat τ) : Prop :=
  ∃ con inst hasArg arg ty, pat = .dataConPat con inst hasArg arg ty

def IsExnCon (pat : Pat τ) : Prop :=
  ∃ exn hasArg arg ty, pat = .exnConPat exn hasArg arg ty

def IsRecord (pat : Pat τ) : Prop :=
  ∃ fields ty, pat = .recPat fields ty

/-- The node for a column of records. -/
def recordKind (recordTy : τ) : List (String × τ) → RootKind τ
  | [] => .unit
  | [(label, ty)] => .nrec label ty
  | (label, ty) :: _ :: _ => .irec recordTy label ty

/-- What `decideRootNode` can answer on a typed column. -/
inductive Decided (S : Semantics τ) (c : Col τ) (rows : List (Row τ)) :
    RootKind τ → Prop where
  | univ : (∀ row ∈ rows, HasHead IsWild row) → Decided S c rows .univ
  | eq {ty : τ} {values : Const → Prop} : c = .whole ty →
      S.shape ty = .const values → (∃ row ∈ rows, HasHead IsConst row) →
      Decided S c rows .eq
  | dataCon {ty : τ} {cons : List (Nat × Option τ)} : c = .whole ty →
      S.shape ty = .data cons → (∃ row ∈ rows, HasHead IsDataCon row) →
      Decided S c rows (.dataCon cons.length)
  | exnCon {ty : τ} : c = .whole ty → S.shape ty = .exn →
      (∃ row ∈ rows, HasHead IsExnCon row) → Decided S c rows .exnCon
  | record {fields : List (String × τ)} : c.HasFields S fields →
      (∃ row ∈ rows, HasHead IsRecord row) →
      Decided S c rows (recordKind c.ty fields)

theorem Decided.cons {c : Col τ} {row : Row τ} {rows : List (Row τ)}
    {kind : RootKind τ} (hdecided : Decided S c rows kind)
    (hwild : HasHead IsWild row) : Decided S c (row :: rows) kind := by
  cases hdecided with
  | univ hall =>
    refine .univ ?_
    intro other hother
    rcases List.mem_cons.mp hother with rfl | hother
    · exact hwild
    · exact hall other hother
  | eq hc hshape hrow =>
    obtain ⟨other, hother, hhead⟩ := hrow
    exact .eq hc hshape ⟨other, List.mem_cons_of_mem _ hother, hhead⟩
  | dataCon hc hshape hrow =>
    obtain ⟨other, hother, hhead⟩ := hrow
    exact .dataCon hc hshape ⟨other, List.mem_cons_of_mem _ hother, hhead⟩
  | exnCon hc hshape hrow =>
    obtain ⟨other, hother, hhead⟩ := hrow
    exact .exnCon hc hshape ⟨other, List.mem_cons_of_mem _ hother, hhead⟩
  | record hfields hrow =>
    obtain ⟨other, hother, hhead⟩ := hrow
    exact .record hfields ⟨other, List.mem_cons_of_mem _ hother, hhead⟩

/-- The patterns of the fields have the labels and types of the fields. -/
theorem fieldsTyped_cons {label : String} {pat : Pat τ}
    {rest : List (String × Pat τ)} {fieldTys : List (String × τ)}
    (htyped : fieldsTyped S ((label, pat) :: rest) fieldTys) :
    ∃ ty restTys, fieldTys = (label, ty) :: restTys ∧ pat.Typed S ty ∧
      fieldsTyped S rest restTys := by
  simpa only [fieldsTyped] using htyped

theorem fieldsTyped_nil {fieldTys : List (String × τ)}
    (htyped : fieldsTyped S [] fieldTys) : fieldTys = [] := by
  simpa only [fieldsTyped] using htyped

theorem decideRootNode_record {c : Col τ} {fields : List (String × Pat τ)}
    {fieldTys : List (String × τ)} (htyped : fieldsTyped S fields fieldTys)
    {rest : List (Pat τ)} {branch : Nat} {env : Env τ} {rows : List (Row τ)} :
    decideRootNode S.toTypes (⟨.recPat fields c.ty :: rest, branch, env⟩ :: rows) =
      .ok (recordKind c.ty fieldTys) := by
  cases fields with
  | nil =>
    obtain rfl := fieldsTyped_nil htyped
    rfl
  | cons first fields =>
    obtain ⟨label, pat⟩ := first
    obtain ⟨ty, restTys, rfl, hpat, hrest⟩ := fieldsTyped_cons htyped
    cases fields with
    | nil =>
      obtain rfl := fieldsTyped_nil hrest
      simp [decideRootNode, recordKind, hpat.getTyInPat]
    | cons second fields =>
      obtain ⟨label', pat'⟩ := second
      obtain ⟨ty', restTys', rfl, -, -⟩ := fieldsTyped_cons hrest
      simp [decideRootNode, recordKind, hpat.getTyInPat]

theorem decideRootNode_decided {c : Col τ} (rows : List (Row τ))
    (hplain : ∀ row ∈ rows, PlainRow S c row) :
    ∃ kind, decideRootNode S.toTypes rows = .ok kind ∧
      Decided S c rows kind := by
  induction rows with
  | nil => exact ⟨.univ, rfl, .univ (by simp)⟩
  | cons row rows ih =>
    obtain ⟨pats, branch, env⟩ := row
    obtain ⟨pat, rest, hpats, hhead, hfits⟩ := hplain _ List.mem_cons_self
    obtain rfl : pats = pat :: rest := hpats
    have hrow : ∀ head : Pat τ → Prop, head pat →
        ∃ row ∈ (⟨pat :: rest, branch, env⟩ : Row τ) :: rows,
          HasHead head row :=
      fun head hpat => ⟨_, List.mem_cons_self, pat, rest, rfl, hpat⟩
    cases pat with
    | wildPat t =>
      obtain ⟨kind, hdecide, hdecided⟩ :=
        ih fun other hother => hplain other (by simp [hother])
      exact ⟨kind, hdecide, hdecided.cons ⟨_, rest, rfl, t, rfl⟩⟩
    | constPat k t =>
      cases c with
      | whole ty =>
        have htyped := hfits
        simp only [Col.Fits, Pat.Typed] at htyped
        obtain ⟨-, values, hshape, -⟩ := htyped
        exact ⟨.eq, rfl, .eq rfl hshape (hrow _ ⟨k, t, rfl⟩)⟩
      | part ty fields => simp [Col.Fits] at hfits
      | unused ty => simp [Col.Fits] at hfits
    | dataConPat con inst hasArg arg t =>
      cases c with
      | whole ty =>
        have htyped := hfits
        simp only [Col.Fits, Pat.Typed] at htyped
        obtain ⟨-, cons, hshape, htag, -⟩ := htyped
        refine ⟨.dataCon cons.length, ?_, .dataCon rfl hshape
          (hrow _ ⟨con, inst, hasArg, arg, t, rfl⟩)⟩
        simp [decideRootNode, htag, bind, Except.bind]
      | part ty fields => simp [Col.Fits] at hfits
      | unused ty => simp [Col.Fits] at hfits
    | exnConPat exn hasArg arg t =>
      cases c with
      | whole ty =>
        have htyped := hfits
        simp only [Col.Fits, Pat.Typed] at htyped
        exact ⟨.exnCon, rfl, .exnCon rfl htyped.2.1
          (hrow _ ⟨exn, hasArg, arg, t, rfl⟩)⟩
      | part ty fields => simp [Col.Fits] at hfits
      | unused ty => simp [Col.Fits] at hfits
    | recPat fields t =>
      obtain ⟨rfl, fieldTys, hfields, htyped⟩ := hfits.record
      exact ⟨_, decideRootNode_record htyped,
        .record hfields (hrow _ ⟨fields, _, rfl⟩)⟩
    | varPat x => exact hhead.elim
    | layerPat left right => exact hhead.elim
    | orPat left right => exact hhead.elim

/-! ### The rows that a test selects -/

/-- The rows that no test of the column selects. -/
def selWild : Row τ → Option (Row τ)
  | ⟨.wildPat _ :: rest, branch, env⟩ => some ⟨rest, branch, env⟩
  | _ => none

def selConst (c : Const) : Row τ → Option (Row τ)
  | ⟨.constPat c' _ :: rest, branch, env⟩ =>
    if c' = c then some ⟨rest, branch, env⟩ else none
  | ⟨.wildPat _ :: rest, branch, env⟩ => some ⟨rest, branch, env⟩
  | _ => none

/-- The rows under a constructor: a wildcard becomes one for the argument. -/
def selCon {K κ : Type} [DecidableEq κ] (key : K → κ)
    (readCon : Pat τ → Option (K × Pat τ)) (k : κ) (argTy : τ) :
    Row τ → Option (Row τ)
  | ⟨pat :: rest, branch, env⟩ =>
    match readCon pat, pat with
    | some (con, arg), _ =>
      if key con = k then some ⟨arg :: rest, branch, env⟩ else none
    | none, .wildPat _ => some ⟨.wildPat argTy :: rest, branch, env⟩
    | none, _ => none
  | _ => none

/-- Some row tests for this constant. -/
def TestsConst (c : Const) (rows : List (Row τ)) : Prop :=
  ∃ row ∈ rows, HasHead (fun pat => ∃ ty, pat = .constPat c ty) row

theorem filterMap_selConst_of_not {c : Const} {rows : List (Row τ)}
    (hnot : ¬ TestsConst c rows) :
    rows.filterMap (selConst c) = rows.filterMap selWild := by
  apply List.filterMap_congr
  intro row hrow
  obtain ⟨pats, branch, env⟩ := row
  cases pats with
  | nil => rfl
  | cons pat rest =>
    cases pat with
    | constPat c' ty =>
      have hne : c' ≠ c := by
        rintro rfl
        exact hnot ⟨_, hrow, _, rest, rfl, ty, rfl⟩
      simp [selConst, selWild, hne]
    | _ => rfl

/-- The branches of a column of constants. -/
theorem constBranches_spec (rows : List (Row τ))
    (hheads : ∀ row ∈ rows, HasHead (fun pat => IsWild pat ∨ IsConst pat) row) :
    ∃ branches, constBranches rows = .ok (branches, rows.filterMap selWild) ∧
      (KeyedList.keys id branches).Nodup ∧
      (∀ c, c ∈ KeyedList.keys id branches ↔ TestsConst c rows) ∧
      ∀ c entry, KeyedList.find id c branches = some entry →
        entry.2 = rows.filterMap (selConst c) := by
  induction rows with
  | nil => exact ⟨[], rfl, List.nodup_nil, by simp [KeyedList.keys, TestsConst],
      by simp⟩
  | cons row rows ih =>
    obtain ⟨branches, hbranches, hnodup, hkeys, hfind⟩ :=
      ih fun other hother => hheads other (by simp [hother])
    obtain ⟨pats, branch, env⟩ := row
    obtain ⟨pat, rest, hpats, hhead⟩ := hheads _ List.mem_cons_self
    obtain rfl : pats = pat :: rest := hpats
    have htests : ∀ c, TestsConst c
        ((⟨pat :: rest, branch, env⟩ : Row τ) :: rows) ↔
          (∃ ty, pat = .constPat c ty) ∨ TestsConst c rows := by
      intro c
      simp [TestsConst, HasHead]
    rcases hhead with ⟨t, rfl⟩ | ⟨c₀, t, rfl⟩
    · refine ⟨_, by rw [constBranches, hbranches]; rfl, ?_, ?_, ?_⟩
      · rwa [KeyedList.keys_mapValues]
      · intro c
        rw [KeyedList.keys_mapValues, hkeys, htests]
        simp
      · intro c entry hentry
        rw [KeyedList.find_mapValues] at hentry
        obtain ⟨old, hold, rfl⟩ := Option.map_eq_some_iff.mp hentry
        simp [selConst, hfind c old hold]
    · refine ⟨_, by rw [constBranches, hbranches]; rfl, ?_, ?_, ?_⟩
      · exact KeyedList.keys_insert_nodup hnodup
      · intro c
        rw [KeyedList.mem_keys_insert, hkeys, htests]
        constructor
        · rintro (rfl | hold)
          · exact Or.inl ⟨t, rfl⟩
          · exact Or.inr hold
        · rintro (⟨ty, heq⟩ | hold)
          · obtain ⟨rfl, -⟩ : c₀ = c ∧ t = ty := by simpa using heq
            exact Or.inl rfl
          · exact Or.inr hold
      · intro c entry hentry
        rw [KeyedList.find_insert] at hentry
        by_cases hc : c₀ = c
        · subst hc
          obtain rfl : _ = entry := by simpa using hentry
          have hold : ((KeyedList.find id c₀ branches).map
              Prod.snd).getD (rows.filterMap selWild) =
                rows.filterMap (selConst c₀) := by
            cases hc : KeyedList.find id c₀ branches with
            | some old => simp [hfind c₀ old hc]
            | none =>
              have hnot : ¬ TestsConst c₀ rows := by
                rw [← hkeys, ← KeyedList.find_isSome_iff, hc]
                simp
              simp [filterMap_selConst_of_not hnot]
          simp [selConst, hold]
        · have hfind' : KeyedList.find id c branches = some entry := by
            simpa [hc] using hentry
          simp [selConst, hc, hfind c entry hfind']

section Constructors

variable {K κ : Type} [DecidableEq κ] {key : K → κ}
  {readCon : Pat τ → Option (K × Pat τ)}

/-- Some row tests for this constructor. -/
def TestsCon (key : K → κ) (readCon : Pat τ → Option (K × Pat τ)) (k : κ)
    (rows : List (Row τ)) : Prop :=
  ∃ row ∈ rows, HasHead (fun pat => ∃ con arg, readCon pat = some (con, arg) ∧
    key con = k) row

theorem filterMap_selCon_of_not {k : κ} {argTy : τ} {rows : List (Row τ)}
    (hnot : ¬ TestsCon key readCon k rows)
    (hwild : ∀ ty, readCon (.wildPat ty) = none) :
    rows.filterMap (selCon key readCon k argTy) =
      (rows.filterMap selWild).map fun row =>
        ⟨.wildPat argTy :: row.pats, row.branch, row.env⟩ := by
  rw [List.map_filterMap]
  apply List.filterMap_congr
  intro row hrow
  obtain ⟨pats, branch, env⟩ := row
  cases pats with
  | nil => rfl
  | cons pat rest =>
    cases hread : readCon pat with
    | some found =>
      obtain ⟨con, arg⟩ := found
      have hne : ¬ key con = k := fun heq =>
        hnot ⟨_, hrow, pat, rest, rfl, con, arg, hread, heq⟩
      have hnwild : ∀ ty, pat ≠ .wildPat ty := by
        rintro ty rfl
        simp [hwild ty] at hread
      cases pat with
      | wildPat ty => exact absurd rfl (hnwild ty)
      | _ => simp [selCon, selWild, hread, hne]
    | none => cases pat <;> simp [selCon, selWild, hread]

/-- Every branch starts with a pattern of the type of its argument. -/
def ArgHeads (key : K → κ) (argTy : κ → τ)
    (branches : List (K × List (Row τ))) : Prop :=
  ∀ entry ∈ branches, ∃ pat rest branch env rows,
    entry.2 = ⟨pat :: rest, branch, env⟩ :: rows ∧
      getTyInPat pat = argTy (key entry.1)

omit [DecidableEq κ] in
theorem addWildAll_ok {argTy : κ → τ} (rule : List (Pat τ)) (branch : Nat)
    (env : Env τ) (branches : List (K × List (Row τ)))
    (hheads : ArgHeads key argTy branches) :
    addWildAll rule branch env branches = .ok (branches.map fun entry =>
      (entry.1, ⟨.wildPat (argTy (key entry.1)) :: rule, branch, env⟩ ::
        entry.2)) := by
  induction branches with
  | nil => rfl
  | cons entry rest ih =>
    obtain ⟨con, rows⟩ := entry
    obtain ⟨pat, pats, b, e, others, hrows, hty⟩ :=
      hheads _ List.mem_cons_self
    have htail := ih fun other hother => hheads other (by simp [hother])
    obtain rfl : rows = _ := hrows
    simp only at hty
    simp [addWildAll, addWild, htail, bind, Except.bind, hty]

/-- The branches of a column of constructors. -/
theorem conBranches_spec (key : K → κ)
    (readCon : Pat τ → Option (K × Pat τ)) (argTy : κ → τ) (rows : List (Row τ))
    (hwild : ∀ ty, readCon (.wildPat ty) = none)
    (hheads : ∀ row ∈ rows, HasHead (fun pat => IsWild pat ∨
      ∃ con arg, readCon pat = some (con, arg) ∧
        getTyInPat arg = argTy (key con)) row) :
    ∃ branches, conBranches key readCon rows =
        .ok (branches, rows.filterMap selWild) ∧
      (KeyedList.keys key branches).Nodup ∧
      (∀ k, k ∈ KeyedList.keys key branches ↔ TestsCon key readCon k rows) ∧
      ArgHeads key argTy branches ∧ (∀ entry ∈ branches, ∃ row ∈ rows,
        HasHead (fun pat => ∃ arg, readCon pat = some (entry.1, arg)) row) ∧
      ∀ k entry, KeyedList.find key k branches = some entry →
        entry.2 = rows.filterMap (selCon key readCon k (argTy k)) := by
  induction rows with
  | nil =>
    exact ⟨[], rfl, List.nodup_nil, by simp [KeyedList.keys, TestsCon],
      by simp [ArgHeads], by simp, by simp⟩
  | cons row rows ih =>
    obtain ⟨branches, hbranches, hnodup, hkeys, hargs, hfrom, hfind⟩ :=
      ih fun other hother => hheads other (by simp [hother])
    obtain ⟨pats, branch, env⟩ := row
    obtain ⟨pat, rest, hpats, hhead⟩ := hheads _ List.mem_cons_self
    obtain rfl : pats = pat :: rest := hpats
    have htests : ∀ k, TestsCon key readCon k
        ((⟨pat :: rest, branch, env⟩ : Row τ) :: rows) ↔
          (∃ con arg, readCon pat = some (con, arg) ∧ key con = k) ∨
            TestsCon key readCon k rows := by
      intro k
      simp [TestsCon, HasHead]
    rcases hhead with ⟨t, rfl⟩ | ⟨con, arg, hread, hty⟩
    · have hadd := addWildAll_ok rest branch env branches hargs
      refine ⟨branches.map fun entry => (entry.1,
        ⟨.wildPat (argTy (key entry.1)) :: rest, branch, env⟩ :: entry.2),
        ?_, ?_, ?_, ?_, ?_, ?_⟩
      · rw [conBranches, hbranches]
        simp [hwild, hadd, bind, Except.bind, selWild]
      · simpa [KeyedList.keys, Function.comp_def] using hnodup
      · intro k
        have hsame : k ∈ KeyedList.keys key (branches.map fun entry =>
            (entry.1, (⟨.wildPat (argTy (key entry.1)) :: rest, branch,
              env⟩ : Row τ) :: entry.2)) ↔
              k ∈ KeyedList.keys key branches := by
          simp [KeyedList.keys]
        rw [hsame, hkeys, htests]
        simp [hwild]
      · intro entry hentry
        obtain ⟨old, hold, rfl⟩ := List.mem_map.mp hentry
        exact ⟨_, rest, branch, env, old.2, rfl, rfl⟩
      · intro entry hentry
        obtain ⟨old, hold, rfl⟩ := List.mem_map.mp hentry
        obtain ⟨other, hother, hhead⟩ := hfrom old hold
        exact ⟨other, List.mem_cons_of_mem _ hother, hhead⟩
      · intro k entry hentry
        rw [KeyedList.find_map (fun con rows =>
          (⟨.wildPat (argTy (key con)) :: rest, branch, env⟩ : Row τ) ::
            rows)] at hentry
        obtain ⟨old, hold, rfl⟩ := Option.map_eq_some_iff.mp hentry
        obtain ⟨hkey, -⟩ := KeyedList.find_key hold
        simp [selCon, hwild, hfind k old hold, hkey]
    · have hold : ((KeyedList.find key (key con) branches).map
          Prod.snd).getD ((rows.filterMap selWild).map fun row =>
            ⟨.wildPat (getTyInPat arg) :: row.pats, row.branch, row.env⟩) =
            rows.filterMap (selCon key readCon (key con)
              (argTy (key con))) := by
        cases hc : KeyedList.find key (key con) branches with
        | some old => simp [hfind _ old hc]
        | none =>
          have hnot : ¬ TestsCon key readCon (key con) rows := by
            rw [← hkeys, ← KeyedList.find_isSome_iff, hc]
            simp
          simp [filterMap_selCon_of_not hnot hwild, hty]
      have hnwild : ∀ ty, pat ≠ .wildPat ty := by
        rintro ty rfl
        simp [hwild ty] at hread
      have hselWild : selWild (⟨pat :: rest, branch, env⟩ : Row τ) = none := by
        cases pat with
        | wildPat ty => exact absurd rfl (hnwild ty)
        | _ => rfl
      refine ⟨KeyedList.insert key con (⟨arg :: rest, branch, env⟩ ::
        rows.filterMap (selCon key readCon (key con) (argTy (key con))))
          branches, ?_, KeyedList.keys_insert_nodup hnodup, ?_, ?_, ?_, ?_⟩
      · rw [conBranches, hbranches]
        simp only [bind, Except.bind, hread]
        rw [hold, List.filterMap_cons_none hselWild]
      · intro k
        rw [KeyedList.mem_keys_insert, hkeys, htests]
        constructor
        · rintro (rfl | hrest)
          · exact Or.inl ⟨con, arg, hread, rfl⟩
          · exact Or.inr hrest
        · rintro (⟨con', arg', hread', rfl⟩ | hrest)
          · obtain ⟨rfl, rfl⟩ : con = con' ∧ arg = arg' := by
              simpa [hread] using hread'
            exact Or.inl rfl
          · exact Or.inr hrest
      · intro entry hentry
        rcases KeyedList.mem_insert hentry with rfl | hentry
        · exact ⟨arg, rest, branch, env, _, rfl, hty⟩
        · exact hargs entry hentry
      · intro entry hentry
        rcases KeyedList.mem_insert hentry with rfl | hentry
        · exact ⟨_, List.mem_cons_self, pat, rest, rfl, arg, hread⟩
        · obtain ⟨other, hother, hhead⟩ := hfrom entry hentry
          exact ⟨other, List.mem_cons_of_mem _ hother, hhead⟩
      · intro k entry hentry
        rw [KeyedList.find_insert] at hentry
        by_cases hk : key con = k
        · subst hk
          obtain rfl : _ = entry := by simpa using hentry
          simp [selCon, hread]
        · have hfind' : KeyedList.find key k branches = some entry := by
            simpa [hk] using hentry
          simp [selCon, hread, hk, hfind k entry hfind']

end Constructors

end MatchCompiler

end SmlSharp
