/-
The errors and warnings of the match compiler: redundant rules and matches that
are not exhaustive.
-/
import SmlSharp.MatchCompiler.Correct
import SmlSharp.MatchCompiler.Outcomes

namespace SmlSharp

namespace MatchCompiler

variable {τ β : Type}

/-! ### Reports -/

inductive CaseKind where
  | matchCase
  | bindCase
  | handleCase
deriving DecidableEq

inductive ErrorKind where
  | error
  | warning
deriving DecidableEq

def bindRedundantMessage : String := "binding redundant"
def bindNotExhaustiveMessage : String := "binding not exhaustive"
def bindBothMessage : String := "binding redundant and not exhaustive"
def matchRedundantMessage : String := "match redundant"
def matchNotExhaustiveMessage : String := "match nonexhaustive"
def matchBothMessage : String := "match redundant and nonexhaustive"

/-- The message for the two flags; handlers are not expected to be
exhaustive. -/
def checkError : CaseKind → Bool → Bool → Option (ErrorKind × String)
  | .handleCase, true, _ => some (.error, matchRedundantMessage)
  | .bindCase, true, true => some (.error, bindBothMessage)
  | .bindCase, true, false => some (.error, bindRedundantMessage)
  | .bindCase, false, true => some (.warning, bindNotExhaustiveMessage)
  | .matchCase, true, true => some (.error, matchBothMessage)
  | .matchCase, true, false => some (.error, matchRedundantMessage)
  | .matchCase, false, true => some (.warning, matchNotExhaustiveMessage)
  | _, _, _ => none

def Build.useCount (st : Build) (branchId : Nat) : Nat :=
  st.used.count branchId

def haveRedundantRules (branchEnv : List (Nat × β)) (st : Build) : Bool :=
  branchEnv.any fun entry => st.useCount entry.1 = 0

def formatFlag (useCount : Nat) : String :=
  if useCount = 0 then "--> " else "    "

/-- A message, with the flag printed before each rule. -/
structure Report where
  kind : ErrorKind
  message : String
  flags : List String
deriving DecidableEq

def report (kind : CaseKind) (branchEnv : List (Nat × β)) (st : Build) :
    Option Report :=
  (checkError kind (haveRedundantRules branchEnv st) st.notExhaustive).map
    fun found => ⟨found.1, found.2,
      branchEnv.map fun entry => formatFlag (st.useCount entry.1)⟩

/-- The report marks a rule as redundant. -/
def MarksRedundant (found : Option Report) (i : Nat) : Prop :=
  ∃ r, found = some r ∧ r.flags[i]? = some "--> "

/-- The report says that the match is not exhaustive. -/
def SaysNotExhaustive (found : Option Report) : Prop :=
  ∃ r, found = some r ∧ r.message ∈ [bindNotExhaustiveMessage,
    bindBothMessage, matchNotExhaustiveMessage, matchBothMessage]

theorem checkError_redundant (kind : CaseKind) (notExhaustive : Bool) :
    (checkError kind true notExhaustive).isSome := by
  cases kind <;> cases notExhaustive <;> rfl

theorem marksRedundant_iff {kind : CaseKind} {branchEnv : List (Nat × β)}
    {st : Build} {i branch : Nat} {body : β}
    (hget : branchEnv[i]? = some (branch, body)) :
    MarksRedundant (report kind branchEnv st) i ↔ branch ∉ st.used := by
  have hflag : (branchEnv.map fun entry =>
      formatFlag (st.useCount entry.1))[i]? =
        some (formatFlag (st.useCount branch)) := by
    rw [List.getElem?_map, hget]
    rfl
  constructor
  · rintro ⟨r, hr, hmark⟩ hused
    obtain ⟨found, -, rfl⟩ := Option.map_eq_some_iff.mp hr
    have hpos : st.useCount branch ≠ 0 :=
      Nat.ne_of_gt (List.count_pos_iff.mpr hused)
    rw [hflag, formatFlag, if_neg hpos] at hmark
    simp at hmark
  · intro hunused
    have hzero : st.useCount branch = 0 := List.count_eq_zero.mpr hunused
    have hredundant : haveRedundantRules branchEnv st = true :=
      List.any_eq_true.mpr
        ⟨(branch, body), List.mem_of_getElem? hget, by simpa using hzero⟩
    obtain ⟨found, hfound⟩ := Option.isSome_iff_exists.mp
      (checkError_redundant kind st.notExhaustive)
    refine ⟨_, by rw [report, hredundant, hfound]; rfl, ?_⟩
    rw [hflag, hzero]
    rfl

theorem saysNotExhaustive_iff {kind : CaseKind} {branchEnv : List (Nat × β)}
    {st : Build} : SaysNotExhaustive (report kind branchEnv st) ↔
      kind ≠ .handleCase ∧ st.notExhaustive = true := by
  unfold SaysNotExhaustive report
  cases kind <;> cases haveRedundantRules branchEnv st <;>
    cases st.notExhaustive <;> simp [checkError] <;> decide

/-! ### The branches that rules reach -/

section Rules

variable {S : Semantics τ}

/-- A rule is the first that matches. -/
def FirstRule (S : Semantics τ) (rules : List (TpRule τ β)) (vs : List Value)
    (i : Nat) : Prop :=
  (∃ rule : TpRule τ β, rules[i]? = some rule ∧ rule.Matches S vs) ∧
    ∀ j < i, ∀ other : TpRule τ β, rules[j]? = some other →
      ¬ other.Matches S vs

theorem firstRule_or_none (rules : List (TpRule τ β)) (vs : List Value) :
    (∀ rule ∈ rules, ¬ rule.Matches S vs) ∨ ∃ i, FirstRule S rules vs i := by
  induction rules with
  | nil => exact Or.inl (by simp)
  | cons rule rules ih =>
    by_cases hmatches : rule.Matches S vs
    · exact Or.inr ⟨0, ⟨rule, rfl, hmatches⟩, by simp⟩
    · rcases ih with hnone | ⟨i, ⟨found, hget, hfound⟩, hfirst⟩
      · exact Or.inl (List.forall_mem_cons.mpr ⟨hmatches, hnone⟩)
      · refine Or.inr ⟨i + 1, ⟨found, by simpa using hget, hfound⟩, ?_⟩
        intro j hj other hother
        cases j with
        | zero =>
          obtain rfl : rule = other := by simpa using hother
          exact hmatches
        | succ j => exact hfirst j (by omega) other (by simpa using hother)

theorem firstRow_branch {ρ : Nat → Value} {vs : List Value}
    {rows : List (Row τ)} :
    firstBranch S vs rows = match firstRow S ρ vs rows with
      | .leaf branch _ => some branch
      | _ => none := by
  have hsame : (firstMatch S (fun _ _ _ => ()) (fun _ => ()) vs rows).map
      Prod.fst =
      (firstMatch S Bindings.insert (Env.values ρ) vs rows).map Prod.fst := by
    induction rows with
    | nil => rfl
    | cons row rows ih =>
      have hhead : (matchPats S (fun _ _ _ => ()) row.pats vs ()).isSome =
          (matchPats S Bindings.insert row.pats vs
            (row.env.values ρ)).isSome := by
        exact (matchPats_isSome S row.pats vs _).symm
      simp only [firstMatch, List.findSome?_cons, Row.outcome] at ih ⊢
      cases hunit : matchPats S (fun _ _ _ => ()) row.pats vs () with
      | none =>
        rw [hunit] at hhead
        have hnone := Option.isSome_eq_false_iff.mp hhead.symm
        simpa [Option.isNone_iff_eq_none.mp hnone] using ih
      | some u =>
        rw [hunit] at hhead
        obtain ⟨b, hb⟩ := Option.isSome_iff_exists.mp hhead.symm
        simp [hb]
  rw [firstBranch, hsame, firstRow]
  cases firstMatch S Bindings.insert (Env.values ρ) vs rows <;> rfl

variable {rules : List (TpRule τ β)} {tys : List τ} {rows : List (Row τ)}

theorem firstBranch_none {vs : List Value}
    (hvs : List.Forall₂ (HasType S) vs tys)
    (hrows : List.Forall₂ (RowOf S tys) rules rows)
    (hnone : ∀ rule ∈ rules, ¬ rule.Matches S vs) :
    firstBranch S vs rows = none := by
  have hfail := (firstRow_none_iff (ρ := fun _ => .other 0) hvs hrows).mpr hnone
  rw [firstRow_branch (ρ := fun _ => .other 0), hfail]

theorem firstBranch_some {vs : List Value}
    (hvs : List.Forall₂ (HasType S) vs tys)
    (hrows : List.Forall₂ (RowOf S tys) rules rows) {i : Nat}
    (hfirst : FirstRule S rules vs i) :
    ∃ row, rows[i]? = some row ∧ firstBranch S vs rows = some row.branch := by
  obtain ⟨⟨rule, hget, hmatches⟩, hearlier⟩ := hfirst
  obtain ⟨row, b, hrow, hrun, -⟩ := firstRow_some (ρ := fun _ => .other 0) hvs
    hrows hget hmatches hearlier
  refine ⟨row, hrow, ?_⟩
  rw [firstRow_branch (ρ := fun _ => .other 0), hrun]

theorem holds_whole {vs : List Value} :
    List.Forall₂ (Col.Holds S) (tys.map Col.whole) vs ↔
      List.Forall₂ (HasType S) vs tys := by
  rw [List.forall₂_map_left_iff]
  exact ⟨fun h => h.flip, fun h => h.flip⟩

theorem none_mem_outcomes (hrows : List.Forall₂ (RowOf S tys) rules rows) :
    none ∈ outcomes S (tys.map Col.whole) rows ↔ ∃ vs,
      List.Forall₂ (HasType S) vs tys ∧ ∀ rule ∈ rules, ¬ rule.Matches S vs := by
  constructor
  · rintro ⟨vs, hholds, hnone⟩
    have hvs := holds_whole.mp hholds
    refine ⟨vs, hvs, ?_⟩
    rcases firstRule_or_none rules vs with hno | ⟨i, hfirst⟩
    · exact hno
    · obtain ⟨row, -, hsome⟩ := firstBranch_some hvs hrows hfirst
      simp [hnone] at hsome
  · rintro ⟨vs, hvs, hno⟩
    exact ⟨vs, holds_whole.mpr hvs, firstBranch_none hvs hrows hno⟩

theorem branch_mem_outcomes (hrows : List.Forall₂ (RowOf S tys) rules rows)
    (hnodup : (rows.map Row.branch).Nodup) {i : Nat} {row : Row τ}
    (hrow : rows[i]? = some row) :
    some row.branch ∈ outcomes S (tys.map Col.whole) rows ↔ ∃ vs,
      List.Forall₂ (HasType S) vs tys ∧ FirstRule S rules vs i := by
  constructor
  · rintro ⟨vs, hholds, hbranch⟩
    have hvs := holds_whole.mp hholds
    refine ⟨vs, hvs, ?_⟩
    rcases firstRule_or_none rules vs with hno | ⟨k, hfirst⟩
    · have hnone := firstBranch_none hvs hrows hno
      simp [hbranch] at hnone
    · obtain ⟨row', hrow', hsome⟩ := firstBranch_some hvs hrows hfirst
      have hsame : row.branch = row'.branch := by
        simpa [hbranch] using hsome
      obtain ⟨hlt, -⟩ := List.getElem?_eq_some_iff.mp hrow
      have hindex : i = k := by
        apply (List.getElem?_inj (by simpa using hlt) hnodup).mp
        simp [hrow, hrow', hsame]
      exact hindex ▸ hfirst
  · rintro ⟨vs, hvs, hfirst⟩
    obtain ⟨row', hrow', hsome⟩ := firstBranch_some hvs hrows hfirst
    obtain rfl : row' = row := by simpa [hrow'] using hrow
    exact ⟨vs, holds_whole.mpr hvs, hsome⟩

end Rules

/-- The reports are exact for arguments of types with values: a rule is marked
where an earlier rule matches whatever it matches, and a match or a binding is
reported as not exhaustive where some values are matched by no rule. -/
theorem report_exact (S : Semantics τ) (rules : List (TpRule τ β))
    (topVars : List (VarInfo τ)) (firstBranch nextId : Nat)
    (hrules : ∀ rule ∈ rules, rule.Typed S (topVars.map VarInfo.ty))
    (hfresh : ∀ x ∈ topVars, x.id < nextId)
    (hpopulated : ∀ x ∈ topVars, Populated S x.ty) :
    ∃ bound, ∀ fuel ≥ bound, ∃ branchEnv tree st,
      compileRules S.toTypes fuel firstBranch topVars rules nextId =
        .ok (branchEnv, tree, st) ∧
      ∀ kind,
        (∀ (i : Nat) (rule : TpRule τ β), rules[i]? = some rule →
          (MarksRedundant (report kind branchEnv st) i ↔
            ∀ vs, List.Forall₂ (HasType S) vs (topVars.map VarInfo.ty) →
              rule.Matches S vs → ∃ j < i, ∃ other : TpRule τ β,
                rules[j]? = some other ∧ other.Matches S vs)) ∧
        (SaysNotExhaustive (report kind branchEnv st) ↔
          kind ≠ .handleCase ∧
            ∃ vs, List.Forall₂ (HasType S) vs (topVars.map VarInfo.ty) ∧
              ∀ rule ∈ rules, ¬ rule.Matches S vs) := by
  obtain ⟨rows, branchEnv, hrows, hbranchEnv, hnodup, hbranches, hmatrix,
    hcompile⟩ := compileRules_matrix firstBranch
      (fun rule hrule => (hrules rule hrule).args) hfresh
  refine ⟨2 * rowsWeight rows + topVars.length + 1, fun fuel hfuel => ?_⟩
  have hcols : ∀ c ∈ (topVars.map VarInfo.ty).map Col.whole,
      c.Populated S := by
    simpa [Col.Populated] using hpopulated
  obtain ⟨tree, st, htree, hadds⟩ := matchToTree_records fuel _ _ _ _ hmatrix
    (by simp only [List.length_map]; omega) hcols
  refine ⟨branchEnv, tree, st, hcompile fuel tree st htree, fun kind => ⟨?_, ?_⟩⟩
  · intro i rule hget
    obtain ⟨hlt, -⟩ := List.getElem?_eq_some_iff.mp hget
    obtain ⟨row, hrow⟩ : ∃ row, rows[i]? = some row :=
      ⟨_, List.getElem?_eq_getElem (hrows.length_eq ▸ hlt)⟩
    have hbranch : branchEnv[i]? = some (row.branch, rule.body) := by
      rw [hbranchEnv, List.getElem?_zipWith, hrow, hget]
    rw [marksRedundant_iff hbranch, hadds.used,
      branch_mem_outcomes hrows hnodup hrow]
    constructor
    · intro hunused vs hvs hmatches
      by_contra hnone
      push Not at hnone
      exact hunused (Or.inr ⟨vs, hvs, ⟨rule, hget, hmatches⟩, hnone⟩)
    · rintro hearlier (hused | ⟨vs, hvs, ⟨rule', hget', hmatches⟩, hfirst⟩)
      · simp at hused
      · obtain rfl : rule = rule' := by simpa [hget] using hget'
        obtain ⟨j, hj, other, hother, hmatch⟩ := hearlier vs hvs hmatches
        exact hfirst j hj other hother hmatch
  · rw [saysNotExhaustive_iff, hadds.notExhaustive, none_mem_outcomes hrows]
    simp

/-! ### Types without values -/

theorem unusedRules_populated : ∀ x ∈ [subject], Populated intTypes x.ty := by
  intro x _
  refine ⟨?_, ?_, ?_⟩
  · rintro part -
    exact ⟨.const (.int 0), .const rfl ⟨0, rfl⟩⟩
  · rintro part values - hshape known
    obtain rfl : (fun c => ∃ n, c = .int n) = values := by
      simpa [intTypes] using hshape
    have hbound : ∀ known : List Const, ∃ n : Nat, ∀ m : Nat,
        Const.int m ∈ known → m < n := by
      intro known
      induction known with
      | nil => exact ⟨0, by simp⟩
      | cons c known ih =>
        obtain ⟨n, hn⟩ := ih
        cases c with
        | int k =>
          refine ⟨max n (k.toNat + 1), fun m hm => ?_⟩
          rcases List.mem_cons.mp hm with heq | hm
          · have hk : (m : Int) = k := by simpa using heq
            omega
          · have hlt := hn m hm
            omega
        | _ => exact ⟨n, fun m hm => hn m (by simpa using hm)⟩
    obtain ⟨n, hn⟩ := hbound known
    exact ⟨.int n, fun hmem => Nat.lt_irrefl n (hn n hmem), n, rfl⟩
  · rintro part - hshape
    simp [intTypes] at hshape

/-- The rules `0 => "zero" | y => "other"` give no report. -/
theorem report_exact_unused :
    ∃ bound, ∀ fuel ≥ bound, ∃ branchEnv tree st,
      compileRules intTypes.toTypes fuel 0 [subject] unusedRules 2 =
        .ok (branchEnv, tree, st) ∧
      ¬ SaysNotExhaustive (report .matchCase branchEnv st) := by
  obtain ⟨bound, hbound⟩ := report_exact intTypes unusedRules [subject] 0 2
    unusedRules_typed (by decide) unusedRules_populated
  refine ⟨bound, fun fuel hfuel => ?_⟩
  obtain ⟨branchEnv, tree, st, hok, hreport⟩ := hbound fuel hfuel
  refine ⟨branchEnv, tree, st, hok, ?_⟩
  rw [(hreport .matchCase).2]
  rintro ⟨-, vs, hvs, hno⟩
  obtain ⟨v, rfl⟩ : ∃ v, vs = [v] := by
    have hlength := hvs.length_eq
    exact List.length_eq_one_iff.mp (by simpa using hlength)
  exact hno ⟨[.var ⟨["y"], (), 1⟩], "other", []⟩ (by simp [unusedRules])
    (.cons (by simp [TpPat.Matches]) .nil)

/-- `datatype void = V of void` and `datatype t = A of void | B`. -/
inductive VoidTy where
  | t
  | void
  | voidToT
  | other

def voidTypes : Semantics VoidTy where
  view
    | .t => .construct ["A", "B"]
    | .void => .construct ["V"]
    | .voidToT => .funM [.void] .t
    | .other => .other "other"
  unitTy := .other
  shape
    | .t => .data [(0, some .void), (1, none)]
    | .void => .data [(2, some .void)]
    | _ => .other
  exnCons _ := False
  exnTag _ := 0
  exnArg _ := none
  data_nodup := by
    intro ty cons hshape
    cases ty <;> simp at hshape <;> subst hshape <;> decide
  record_nodup := by
    intro ty fields hshape
    cases ty <;> simp at hshape
  record_fields := by
    intro ty fields hshape
    cases ty <;> simp at hshape
  exn_distinct := intTypes.exn_distinct
  unit_not_const := by
    intro ty values hshape
    cases ty <;> simp at hshape

theorem void_empty (v : Value) : ¬ HasType voidTypes v .void := by
  intro htyped
  generalize hty : VoidTy.void = ty at htyped
  induction htyped with
  | dataArg hshape hmem _ ih =>
    subst hty
    obtain rfl : [(2, some VoidTy.void)] = _ := by
      simpa [voidTypes] using hshape
    obtain ⟨-, rfl⟩ : _ = 2 ∧ _ = VoidTy.void := by simpa using hmem
    exact ih rfl
  | data hshape hmem =>
    subst hty
    obtain rfl : [(2, some VoidTy.void)] = _ := by
      simpa [voidTypes] using hshape
    simp at hmem
  | _ hshape =>
    subst hty
    simp [voidTypes] at hshape

/-- `case x of B => "b"`. -/
def voidRules : List (TpRule VoidTy String) :=
  [⟨[.dataConstruct ⟨["B"], .t, 1⟩ none .t], "b", []⟩]

/-- A match over an argument type with values is reported as not exhaustive,
although its rule matches every value. -/
theorem reports_void_case :
    ∃ (rules : List (TpRule VoidTy String)) (topVars : List (VarInfo VoidTy)),
      (∀ rule ∈ rules, rule.Typed voidTypes (topVars.map VarInfo.ty)) ∧
      (∀ x ∈ topVars, ∃ v, HasType voidTypes v x.ty) ∧
      (∃ branchEnv tree st,
        compileRules voidTypes.toTypes 5 0 topVars rules 2 =
          .ok (branchEnv, tree, st) ∧
        SaysNotExhaustive (report .matchCase branchEnv st)) ∧
      ∀ vs, List.Forall₂ (HasType voidTypes) vs (topVars.map VarInfo.ty) →
        ∃ rule ∈ rules, rule.Matches voidTypes vs := by
  refine ⟨voidRules, [⟨["x"], .t, 0⟩], ?_, ?_, ?_, ?_⟩
  · intro rule hrule
    obtain rfl := List.mem_singleton.mp hrule
    refine ⟨.cons ?_ .nil, by simp [TpPat.vars]⟩
    simp [TpPat.Typed, voidTypes]
    rfl
  · intro x hx
    obtain rfl := List.mem_singleton.mp hx
    exact ⟨.data 1 none, .data rfl (by simp)⟩
  · refine ⟨_, _, _, rfl, ?_⟩
    rw [saysNotExhaustive_iff]
    exact ⟨by decide, rfl⟩
  · intro vs hvs
    obtain ⟨v, rfl⟩ := List.length_eq_one_iff.mp hvs.length_eq
    have hv := (List.forall₂_cons.mp hvs).1
    obtain ⟨con, argv, rfl⟩ := data_of_shape hv rfl
    obtain ⟨argTy, hmem, hargv, hall⟩ := hv.data_inv rfl
    refine ⟨_, List.mem_singleton.mpr rfl, .cons ?_ .nil⟩
    rcases List.mem_pair.mp hmem with heq | heq
    · obtain ⟨rfl, rfl⟩ : con = 0 ∧ argTy = some .void := by simpa using heq
      obtain ⟨w, rfl⟩ := Option.isSome_iff_exists.mp hargv
      exact absurd (hall w _ rfl rfl) (void_empty w)
    · obtain ⟨rfl, rfl⟩ : con = 1 ∧ argTy = none := by simpa using heq
      obtain rfl : argv = none := by simpa using hargv
      simp [TpPat.Matches]

end MatchCompiler

end SmlSharp
