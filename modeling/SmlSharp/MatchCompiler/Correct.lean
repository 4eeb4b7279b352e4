/-
Compiled case expressions implement first-match semantics.
-/
import SmlSharp.MatchCompiler.Normalise

namespace SmlSharp

namespace MatchCompiler

variable {τ β : Type}

/-! ### Rules -/

mutual

/-- The variables of a source pattern. -/
def TpPat.vars : TpPat τ → List (VarInfo τ)
  | .var x => [x]
  | .dataConstructArg _ _ arg _ => arg.vars
  | .exnConstructArg _ arg _ => arg.vars
  | .record fields _ => tpFieldsVars fields
  | .layered varPat asPat => varPat.vars ++ asPat.vars
  | _ => []

def tpFieldsVars : List (String × TpPat τ) → List (VarInfo τ)
  | [] => []
  | (_, pat) :: rest => pat.vars ++ tpFieldsVars rest

end

/-- The patterns of a rule have the types of the arguments, and its variables
are distinct. -/
structure TpRule.Typed (S : Semantics τ) (rule : TpRule τ β) (tys : List τ) :
    Prop where
  args : List.Forall₂ (TpPat.Typed S) rule.args tys
  distinct : ((rule.args.flatMap TpPat.vars).map VarInfo.id).Nodup

def TpRule.Matches (S : Semantics τ) (rule : TpRule τ β) (vs : List Value) :
    Prop :=
  List.Forall₂ (TpPat.Matches S) rule.args vs

def placesAll : List (TpPat τ) → List Value → List (VarInfo τ × Value)
  | pat :: pats, v :: vs => pat.places v ++ placesAll pats vs
  | _, _ => []

def TpRule.places (rule : TpRule τ β) (vs : List Value) :
    List (VarInfo τ × Value) :=
  placesAll rule.args vs

mutual

theorem TpPat.places_vars (p : TpPat τ) (v : Value) :
    ((p.places v).map Prod.fst).Sublist p.vars := by
  cases p with
  | var x => simp [TpPat.places, TpPat.vars]
  | dataConstructArg con inst arg ty =>
    cases v with
    | data id argv =>
      cases argv with
      | none => simp [TpPat.places]
      | some w => exact TpPat.places_vars arg w
    | _ => simp [TpPat.places]
  | exnConstructArg exn arg ty =>
    cases v with
    | exn tag argv =>
      cases argv with
      | none => simp [TpPat.places]
      | some w => exact TpPat.places_vars arg w
    | _ => simp [TpPat.places]
  | record fields ty =>
    cases v with
    | record vs => exact tpFieldsPlaces_vars fields vs
    | _ => simp [TpPat.places]
  | layered varPat asPat =>
    simp only [TpPat.places, TpPat.vars, List.map_append]
    exact (TpPat.places_vars varPat v).append (TpPat.places_vars asPat v)
  | _ => simp [TpPat.places]

theorem tpFieldsPlaces_vars (fields : List (String × TpPat τ))
    (vs : List (String × Value)) :
    ((tpFieldsPlaces fields vs).map Prod.fst).Sublist (tpFieldsVars fields) := by
  cases fields with
  | nil => simp [tpFieldsPlaces]
  | cons field rest =>
    obtain ⟨label, p⟩ := field
    simp only [tpFieldsPlaces, tpFieldsVars, List.map_append]
    apply List.Sublist.append _ (tpFieldsPlaces_vars rest vs)
    cases vs.lookup label with
    | none => simp
    | some w => exact TpPat.places_vars p w

end

theorem placesAll_vars (pats : List (TpPat τ)) (vs : List Value) :
    ((placesAll pats vs).map Prod.fst).Sublist (pats.flatMap TpPat.vars) := by
  fun_induction placesAll pats vs with
  | case1 pat pats v vs ih =>
    simp only [List.map_append, List.flatMap_cons]
    exact (pat.places_vars v).append ih
  | case2 => simp

variable {rule : TpRule τ β} {tys : List τ} {vs : List Value} {rules : List (TpRule τ β)}

/-- A variable of a rule is placed at one sub-value. -/
theorem TpRule.Typed.place_unique {S : Semantics τ} (htyped : rule.Typed S tys)
    {x y : VarInfo τ} {w u : Value} (hx : (x, w) ∈ rule.places vs)
    (hy : (y, u) ∈ rule.places vs) (hid : x.id = y.id) : (x, w) = (y, u) := by
  have hsub : ((rule.places vs).map fun placed => placed.1.id).Nodup := by
    have hids := (placesAll_vars rule.args vs).map VarInfo.id
    rw [List.map_map] at hids
    exact htyped.distinct.sublist hids
  exact List.inj_on_of_nodup_map hsub hx hy hid

/-! ### Normalised rules -/

section Rules

variable {S : Semantics τ} {FV : List Nat}

/-- The normalised patterns of a rule stand for its patterns. -/
inductive PatsStandFor (S : Semantics τ) (FV : List Nat) :
    List (TpPat τ) → List τ → List (Pat τ) → Prop where
  | nil : PatsStandFor S FV [] [] []
  | cons {p : TpPat τ} {ty : τ} {q : Pat τ} {ps : List (TpPat τ)}
      {tys : List τ} {qs : List (Pat τ)} : StandsFor S FV p ty q →
      PatsStandFor S FV ps tys qs → PatsStandFor S FV (p :: ps) (ty :: tys)
        (q :: qs)

theorem normalise_args (FV : List Nat) {args : List (TpPat τ)}
    (htyped : List.Forall₂ (TpPat.Typed S) args tys) :
    ∃ pats, args.mapM (tppatToPat S.toTypes FV) = .ok pats ∧
      PatsStandFor S FV args tys pats := by
  induction htyped with
  | nil => exact ⟨[], rfl, .nil⟩
  | @cons p ty ps tys hp _ ih =>
    obtain ⟨q, hok, hstands⟩ := tppatToPat_standsFor FV p ty hp
    obtain ⟨qs, hoks, hall⟩ := ih
    refine ⟨q :: qs, ?_, .cons hstands hall⟩
    simp [List.mapM_cons, hok, hoks, bind, Except.bind, pure, Except.pure]

theorem PatsStandFor.fits {args : List (TpPat τ)}
    {pats : List (Pat τ)} (hstand : PatsStandFor S FV args tys pats) :
    List.Forall₂ (Col.Fits S) (tys.map Col.whole) pats := by
  induction hstand with
  | nil => exact .nil
  | cons hp _ ih => exact .cons hp.typed ih

theorem Resolves.congr {ps qs : List (VarInfo τ × Value)} {b b' : Bindings}
    {id : Nat} (hmem : ∀ x w, (x, w) ∈ ps ↔ (x, w) ∈ qs)
    (hresolves : Resolves ps b b' id) : Resolves qs b b' id := by
  simpa only [Resolves, hmem] using hresolves

/-- The places of the variables that the body uses. -/
def usedPlaces (FV : List Nat) (places : List (VarInfo τ × Value)) :
    List (VarInfo τ × Value) :=
  places.filter fun placed => placed.1.id ∈ FV

theorem StandsFor.resolves {p : TpPat τ} {ty : τ} {q : Pat τ} {v : Value}
    (hstands : StandsFor S FV p ty q) (hv : HasType S v ty)
    (hmatches : p.Matches S v) (b : Bindings) :
    ∃ b', matchPat S Bindings.insert q v b = some b' ∧
      ∀ id, Resolves (usedPlaces FV (p.places v)) b b' id := by
  have haccepts := (hstands.accepts v hv).mpr hmatches
  have hsome : (matchPat S Bindings.insert q v b).isSome :=
    (matchPat_isSome S q v b).trans haccepts
  obtain ⟨b', hmatch⟩ := Option.isSome_iff_exists.mp hsome
  refine ⟨b', hmatch, fun id => ?_⟩
  apply (matchPat_resolves q ty v b b' hstands.typed hmatch id).congr
  intro x w
  rw [hstands.places v hv hmatches x w]
  simp [usedPlaces]

theorem PatsStandFor.resolves {args : List (TpPat τ)} {tys : List τ}
    {pats : List (Pat τ)} (hstand : PatsStandFor S FV args tys pats)
    {vs : List Value} (hvs : List.Forall₂ (HasType S) vs tys)
    (hmatches : List.Forall₂ (TpPat.Matches S) args vs) (b : Bindings) :
    ∃ b', matchPats S Bindings.insert pats vs b = some b' ∧
      ∀ id, Resolves (usedPlaces FV (placesAll args vs)) b b' id := by
  induction hstand generalizing vs b with
  | nil =>
    cases hvs
    exact ⟨b, rfl, Resolves.nil b⟩
  | @cons p ty q ps tys qs hp _ ih =>
    cases hvs with
    | @cons v _ vs _ hv hvs =>
      obtain ⟨hmatch, hrest⟩ := List.forall₂_cons.mp hmatches
      obtain ⟨b₁, hhead, hresolves⟩ := hp.resolves hv hmatch b
      obtain ⟨b₂, htail, hresolves'⟩ := ih hvs hrest b₁
      refine ⟨b₂, by simp [matchPats, hhead, htail], fun id => ?_⟩
      have hboth := (hresolves id).append (hresolves' id)
      simpa [usedPlaces, placesAll] using hboth

theorem PatsStandFor.fails {args : List (TpPat τ)}
    {pats : List (Pat τ)} (hstand : PatsStandFor S FV args tys pats)
    (hvs : List.Forall₂ (HasType S) vs tys)
    (hno : ¬ List.Forall₂ (TpPat.Matches S) args vs) (b : Bindings) :
    matchPats S Bindings.insert pats vs b = none := by
  induction hstand generalizing vs b with
  | nil =>
    cases hvs
    exact absurd .nil hno
  | @cons p ty q ps tys qs hp _ ih =>
    cases hvs with
    | @cons v _ vs _ hv hvs =>
      cases hhead : matchPat S Bindings.insert q v b with
      | none => simp [matchPats, hhead]
      | some b₁ =>
        have haccepts : q.Accepts S v := by
          have hsame : (matchPat S Bindings.insert q v b).isSome = _ :=
            matchPat_isSome S q v b
          rw [hhead] at hsame
          exact hsame.symm
        have hmatch := (hp.accepts v hv).mp haccepts
        have htail := ih hvs (fun hrest => hno (.cons hmatch hrest)) b₁
        simp [matchPats, hhead, htail]

/-- A row of the matrix that stands for a rule. -/
structure RowOf (S : Semantics τ) (tys : List τ) (rule : TpRule τ β)
    (row : Row τ) : Prop where
  env : row.env = []
  pats : PatsStandFor S rule.fv rule.args tys row.pats

theorem makeRules_branch_lt (firstId : Nat)
    (patList : List (List (Pat τ) × β)) : ∀ row ∈ (makeRules firstId patList).2,
      row.branch < firstId + patList.length := by
  induction patList with
  | nil => simp [makeRules]
  | cons entry rest ih =>
    intro row hrow
    rcases List.mem_cons.mp hrow with rfl | hrow
    · simp
    · have hlt := ih row hrow
      simp only [List.length_cons]
      omega

theorem makeRules_nodup (firstId : Nat) (patList : List (List (Pat τ) × β)) :
    ((makeRules firstId patList).2.map Row.branch).Nodup := by
  induction patList with
  | nil => simp [makeRules]
  | cons entry rest ih =>
    refine List.nodup_cons.mpr ⟨?_, ih⟩
    intro hmem
    obtain ⟨row, hrow, hbranch⟩ := List.mem_map.mp hmem
    have hlt := makeRules_branch_lt firstId rest row hrow
    simp only at hbranch
    omega

/-- The matrix of typed rules, with what is kept of each rule beside it. -/
theorem makeRules_rowOf {γ : Type} (data : List (Pat τ) → β → γ) (firstId : Nat)
    (hrules : ∀ rule ∈ rules, List.Forall₂ (TpPat.Typed S) rule.args tys) :
    ∃ patList branchEnv rows,
      rules.mapM (normaliseRule S.toTypes) = .ok patList ∧
      makeRules firstId (patList.map fun entry =>
        (entry.1, data entry.1 entry.2)) = (branchEnv, rows) ∧
      List.Forall₂ (RowOf S tys) rules rows ∧ branchEnv = List.zipWith
        (fun row rule => (row.branch, data row.pats rule.body)) rows rules := by
  induction rules with
  | nil => exact ⟨[], [], [], rfl, rfl, .nil, rfl⟩
  | cons rule rest ih =>
    obtain ⟨pats, hok, hstand⟩ :=
      normalise_args rule.fv (hrules rule List.mem_cons_self)
    obtain ⟨patList, branchEnv, rows, hoks, hmake, hrows, hbranches⟩ :=
      ih fun other hother => hrules other (by simp [hother])
    refine ⟨(pats, rule.body) :: patList, _, _, ?_,
      by simp only [List.map_cons, makeRules, hmake]; rfl,
      .cons ⟨rfl, hstand⟩ hrows, ?_⟩
    · simp [List.mapM_cons, normaliseRule, hok, hoks, bind, Except.bind, pure,
        Except.pure]
    · rw [hbranches, List.zipWith_cons_cons]

theorem firstRow_none_iff {ρ : Nat → Value}
    (hvs : List.Forall₂ (HasType S) vs tys)
    {rows : List (Row τ)} (hrows : List.Forall₂ (RowOf S tys) rules rows) :
    firstRow S ρ vs rows = .matchFail ↔ ∀ rule ∈ rules, ¬ rule.Matches S vs := by
  induction hrows with
  | nil => simp [firstRow, firstMatch, Outcome.ofMatch]
  | @cons rule row rules rows hhead _ ih =>
    simp only [firstRow, firstMatch] at ih
    simp only [firstRow, firstMatch, List.findSome?_cons, List.forall_mem_cons]
    by_cases hmatches : rule.Matches S vs
    · obtain ⟨b, hmatch, -⟩ := hhead.pats.resolves hvs hmatches
        (row.env.values ρ)
      simp [Row.outcome, hmatch, hmatches, Outcome.ofMatch]
    · have hfails := hhead.pats.fails hvs hmatches (row.env.values ρ)
      simpa [Row.outcome, hfails, hmatches] using ih

theorem firstRow_some {ρ : Nat → Value} (hvs : List.Forall₂ (HasType S) vs tys)
    {rows : List (Row τ)} (hrows : List.Forall₂ (RowOf S tys) rules rows)
    {i : Nat} (hget : rules[i]? = some rule) (hmatches : rule.Matches S vs)
    (hfirst : ∀ j < i, ∀ other, rules[j]? = some other → ¬ other.Matches S vs) :
    ∃ row b, rows[i]? = some row ∧ firstRow S ρ vs rows = .leaf row.branch b ∧
      ∀ id, Resolves (usedPlaces rule.fv (rule.places vs)) [] b id := by
  induction hrows generalizing i with
  | nil => simp at hget
  | @cons head row rules rows hhead _ ih =>
    cases i with
    | zero =>
      obtain rfl : head = rule := by simpa using hget
      obtain ⟨b, hmatch, hresolves⟩ := hhead.pats.resolves hvs hmatches []
      refine ⟨row, b, rfl, ?_, hresolves⟩
      simp [firstRow, firstMatch, Row.outcome, hhead.env, Env.values,
        hmatch, Outcome.ofMatch]
    | succ i =>
      have hno := hfirst 0 (by omega) head rfl
      have hfails := hhead.pats.fails hvs hno (row.env.values ρ)
      obtain ⟨row', b, hrow, hrun, hresolves⟩ := ih (by simpa using hget)
        fun j hj other hother => hfirst (j + 1) (by omega) other hother
      refine ⟨row', b, hrow, ?_, hresolves⟩
      simp only [firstRow, firstMatch] at hrun
      simp [firstRow, firstMatch, Row.outcome, hfails, hrun]

end Rules

/-! ### Case expressions -/

section Compile

variable {S : Semantics τ} {rules : List (TpRule τ β)}
  {topVars : List (VarInfo τ)} {nextId : Nat}

/-- The matrix of a case expression over its variables. -/
theorem rows_matrix {branchEnv : List Nat} {rows : List (Row τ)}
    (hrows : List.Forall₂ (RowOf S (topVars.map VarInfo.ty)) rules rows)
    (hbranch : ∀ row ∈ rows, row.branch ∈ branchEnv)
    (hfresh : ∀ x ∈ topVars, x.id < nextId) :
    Matrix S branchEnv ((topVars.map VarInfo.ty).map Col.whole) topVars rows
      ⟨nextId, [], false⟩ := by
  have hrow : ∀ row ∈ rows, ∃ rule ∈ rules,
      RowOf S (topVars.map VarInfo.ty) rule row := by
    clear hbranch
    induction hrows with
    | nil => simp
    | cons hhead _ ih =>
      intro row hmem
      rcases List.mem_cons.mp hmem with rfl | hmem
      · exact ⟨_, List.mem_cons_self, hhead⟩
      · obtain ⟨rule, hrule, hrow⟩ := ih row hmem
        exact ⟨rule, List.mem_cons_of_mem _ hrule, hrow⟩
  refine ⟨?_, ?_, hbranch, hfresh, ?_⟩
  · clear hrows hfresh hrow
    induction topVars with
    | nil => exact .nil
    | cons x rest ih => exact .cons rfl ih
  · intro row hmem
    obtain ⟨rule, -, hrowOf⟩ := hrow row hmem
    exact hrowOf.pats.fits
  · intro row hmem entry hentry
    obtain ⟨rule, -, hrowOf⟩ := hrow row hmem
    simp [hrowOf.env] at hentry

/-- The matrix that a case expression is compiled from. -/
theorem makeRules_matrix {γ : Type} (data : List (Pat τ) → β → γ)
    (firstBranch : Nat) (hrules : ∀ rule ∈ rules,
      List.Forall₂ (TpPat.Typed S) rule.args (topVars.map VarInfo.ty))
    (hfresh : ∀ x ∈ topVars, x.id < nextId) : ∃ patList branchEnv rows,
      rules.mapM (normaliseRule S.toTypes) = .ok patList ∧
      makeRules firstBranch (patList.map fun entry =>
        (entry.1, data entry.1 entry.2)) = (branchEnv, rows) ∧
      List.Forall₂ (RowOf S (topVars.map VarInfo.ty)) rules rows ∧
      branchEnv = List.zipWith
        (fun row rule => (row.branch, data row.pats rule.body)) rows rules ∧
      (rows.map Row.branch).Nodup ∧
      branchEnv.map Prod.fst = rows.map Row.branch ∧
      Matrix S (branchEnv.map Prod.fst)
        ((topVars.map VarInfo.ty).map Col.whole) topVars rows
        ⟨nextId, [], false⟩ := by
  obtain ⟨patList, branchEnv, rows, hok, hmake, hrows, hbranchEnv⟩ :=
    makeRules_rowOf data firstBranch hrules
  have hbranches : branchEnv.map Prod.fst = rows.map Row.branch := by
    rw [hbranchEnv]
    clear hbranchEnv hmake hok hrules
    induction hrows with
    | nil => rfl
    | cons _ _ ih => simp [ih]
  have hnodup := makeRules_nodup firstBranch (patList.map fun entry =>
    (entry.1, data entry.1 entry.2))
  rw [hmake] at hnodup
  refine ⟨patList, branchEnv, rows, hok, hmake, hrows, hbranchEnv,
    hnodup, hbranches, rows_matrix hrows (fun row hrow => ?_) hfresh⟩
  rw [hbranches]
  exact List.mem_map.mpr ⟨row, hrow, rfl⟩

/-- The matrix of a case expression, and the tree that is made of it. -/
theorem compileRules_matrix (firstBranch : Nat) (hrules : ∀ rule ∈ rules,
      List.Forall₂ (TpPat.Typed S) rule.args (topVars.map VarInfo.ty))
    (hfresh : ∀ x ∈ topVars, x.id < nextId) : ∃ rows branchEnv,
      List.Forall₂ (RowOf S (topVars.map VarInfo.ty)) rules rows ∧
      branchEnv = List.zipWith (fun row rule => (row.branch, rule.body)) rows
        rules ∧ (rows.map Row.branch).Nodup ∧
      branchEnv.map Prod.fst = rows.map Row.branch ∧
      Matrix S (branchEnv.map Prod.fst)
        ((topVars.map VarInfo.ty).map Col.whole) topVars rows
        ⟨nextId, [], false⟩ ∧
      ∀ fuel tree st, matchToTree S.toTypes (branchEnv.map Prod.fst) fuel
          topVars rows ⟨nextId, [], false⟩ = .ok (tree, st) →
        compileRules S.toTypes fuel firstBranch topVars rules nextId =
          .ok (branchEnv, tree, st) := by
  obtain ⟨patList, branchEnv, rows, hok, hmake, hrows, hbranchEnv, hnodup,
    hbranches, hmatrix⟩ :=
      makeRules_matrix (fun _ body => body) firstBranch hrules hfresh
  refine ⟨rows, branchEnv, hrows, hbranchEnv, hnodup, hbranches, hmatrix, ?_⟩
  intro fuel tree st htree
  rw [List.map_id'] at hmake
  simp [compileRules, hok, hmake, htree, bind, Except.bind]

/-- A binding made from no bindings is a place. -/
theorem lookup_iff_place (htyped : rule.Typed S tys) {b : Bindings}
    (hresolves : ∀ id, Resolves (usedPlaces rule.fv (rule.places vs)) [] b id)
    (id : Nat) (w : Value) : b.lookup id = some w ↔
      ∃ x, (x, w) ∈ rule.places vs ∧ x.id = id ∧ id ∈ rule.fv := by
  constructor
  · intro hlookup
    rcases hresolves id with ⟨x, u, hmem, hid, hu⟩ | ⟨-, hnone⟩
    · obtain rfl : u = w := by simpa [hlookup] using hu.symm
      obtain ⟨hplace, hused⟩ : (x, u) ∈ rule.places vs ∧ x.id ∈ rule.fv := by
        simpa [usedPlaces] using hmem
      exact ⟨x, hplace, hid, hid ▸ hused⟩
    · simp [hlookup] at hnone
  · rintro ⟨x, hplace, rfl, hused⟩
    rcases hresolves x.id with ⟨y, u, hmem, hid, hu⟩ | ⟨hnone, -⟩
    · obtain ⟨hplace', -⟩ : (y, u) ∈ rule.places vs ∧ y.id ∈ rule.fv := by
        simpa [usedPlaces] using hmem
      have hsame := htyped.place_unique hplace' hplace hid
      obtain ⟨-, rfl⟩ : y = x ∧ u = w := by simpa using hsame
      exact hu
    · exact absurd rfl (hnone x w (by simp [usedPlaces, hplace, hused]))

end Compile

/-- First-match semantics: on typed values the tree of a case expression fails
where no rule matches, and otherwise reaches the leaf of the first rule that
matches, with the variables that the rule's body uses, and no others, bound to
the sub-values at which the patterns place them. -/
theorem compileRules_firstMatch (S : Semantics τ) (rules : List (TpRule τ β))
    (topVars : List (VarInfo τ)) (firstBranch nextId : Nat)
    (hrules : ∀ rule ∈ rules, rule.Typed S (topVars.map VarInfo.ty))
    (hfresh : ∀ x ∈ topVars, x.id < nextId) :
    ∃ bound, ∀ fuel ≥ bound, ∃ branchEnv tree st,
      compileRules S.toTypes fuel firstBranch topVars rules nextId =
        .ok (branchEnv, tree, st) ∧
      (branchEnv.map Prod.fst).Nodup ∧
      ∀ ρ vs, valuesAt ρ topVars = vs →
        List.Forall₂ (HasType S) vs (topVars.map VarInfo.ty) →
        (tree.eval S ρ = .matchFail ↔ ∀ rule ∈ rules, ¬ rule.Matches S vs) ∧
        ∀ (i : Nat) (rule : TpRule τ β), rules[i]? = some rule →
          rule.Matches S vs →
          (∀ j < i, ∀ other : TpRule τ β, rules[j]? = some other →
            ¬ other.Matches S vs) →
          ∃ branch b, branchEnv[i]? = some (branch, rule.body) ∧
            tree.eval S ρ = .leaf branch b ∧
            ∀ id w, b.lookup id = some w ↔
              ∃ x, (x, w) ∈ rule.places vs ∧ x.id = id ∧ id ∈ rule.fv := by
  obtain ⟨rows, branchEnv, hrows, hbranchEnv, hnodup, hbranches, hmatrix,
    hcompile⟩ := compileRules_matrix firstBranch
      (fun rule hrule => (hrules rule hrule).args) hfresh
  refine ⟨2 * rowsWeight rows + topVars.length + 1, fun fuel hfuel => ?_⟩
  obtain ⟨tree, st, htree, hfollows⟩ := matchToTree_follows fuel _ _ _ _
    hmatrix (by simp only [List.length_map]; omega)
  refine ⟨branchEnv, tree, st, hcompile fuel tree st htree,
    hbranches ▸ hnodup, ?_⟩
  rintro ρ vs rfl hvs
  have hholds : List.Forall₂ (Col.Holds S)
      ((topVars.map VarInfo.ty).map Col.whole) (valuesAt ρ topVars) := by
    rw [List.forall₂_map_left_iff]
    exact hvs.flip
  rw [hfollows ρ hholds]
  refine ⟨firstRow_none_iff hvs hrows, ?_⟩
  intro i rule hget hmatches hfirst
  obtain ⟨row, b, hrow, hrun, hresolves⟩ :=
    firstRow_some hvs hrows hget hmatches hfirst
  have htyped := hrules rule (List.mem_of_getElem? hget)
  refine ⟨row.branch, b, ?_, hrun, lookup_iff_place htyped hresolves⟩
  rw [hbranchEnv, List.getElem?_zipWith, hrow, hget]

/-! ### A case expression over integers -/

/-- One type, whose values are the integer constants. -/
def intTypes : Semantics Unit where
  view _ := .other "int"
  unitTy := ()
  shape _ := .const fun c => ∃ n, c = .int n
  exnCons _ := False
  exnTag _ := 0
  exnArg _ := none
  data_nodup := by simp
  record_nodup := by simp
  record_fields := by simp
  exn_distinct := by simp
  unit_not_const := by simp

/-- `case x of 0 => "zero" | y => "other"`, where the body of the second rule
does not use `y`. -/
def unusedRules : List (TpRule Unit String) :=
  [⟨[.constant (.int 0) ()], "zero", []⟩, ⟨[.var ⟨["y"], (), 1⟩], "other", []⟩]

def subject : VarInfo Unit := ⟨["x"], (), 0⟩

theorem unusedRules_typed : ∀ rule ∈ unusedRules, rule.Typed intTypes [()] := by
  intro rule hrule
  rcases List.mem_pair.mp hrule with rfl | rfl
  · refine ⟨.cons ?_ .nil, by simp [TpPat.vars]⟩
    simp [TpPat.Typed, intTypes]
  · exact ⟨.cons (by simp [TpPat.Typed]) .nil, by simp [TpPat.vars]⟩

theorem unusedRules_value :
    List.Forall₂ (HasType intTypes) [.const (.int 5)] [()] :=
  .cons (.const rfl ⟨5, rfl⟩) .nil

theorem unusedRules_first (j : Nat) (hj : j < 1) (other : TpRule Unit String)
    (hother : unusedRules[j]? = some other) :
    ¬ other.Matches intTypes [.const (.int 5)] := by
  obtain rfl : j = 0 := by omega
  obtain rfl : _ = other := by simpa [unusedRules] using hother
  intro hmatches
  have hmatch := (List.forall₂_cons.mp hmatches).1
  simp [TpPat.Matches] at hmatch

/-- On the value 5 the second rule is the first that matches. -/
theorem compileRules_firstMatch_unused :
    ∃ bound, ∀ fuel ≥ bound, ∃ branchEnv tree st,
      compileRules intTypes.toTypes fuel 0 [subject] unusedRules 2 =
        .ok (branchEnv, tree, st) ∧
      ∃ branch b, branchEnv[1]? = some (branch, "other") ∧
        tree.eval intTypes (fun _ => .const (.int 5)) = .leaf branch b := by
  obtain ⟨bound, hbound⟩ := compileRules_firstMatch intTypes unusedRules
    [subject] 0 2 unusedRules_typed (by decide)
  refine ⟨bound, fun fuel hfuel => ?_⟩
  obtain ⟨branchEnv, tree, st, hok, -, hrun⟩ := hbound fuel hfuel
  obtain ⟨branch, b, hbranch, heval, -⟩ :=
    (hrun (fun _ => .const (.int 5)) _ rfl unusedRules_value).2 1
      ⟨[.var ⟨["y"], (), 1⟩], "other", []⟩ rfl
      (.cons (by simp [TpPat.Matches]) .nil) unusedRules_first
  exact ⟨branchEnv, tree, st, hok, branch, b, hbranch, heval⟩

/-- A variable that the body of its rule does not use is not bound. -/
theorem unused_variable_not_bound :
    ∃ (rules : List (TpRule Unit String)) (topVars : List (VarInfo Unit))
        (ρ : Nat → Value) (rule : TpRule Unit String) (x : VarInfo Unit)
        (w : Value),
      (∀ rule ∈ rules, rule.Typed intTypes (topVars.map VarInfo.ty)) ∧
      List.Forall₂ (HasType intTypes) (valuesAt ρ topVars)
        (topVars.map VarInfo.ty) ∧
      rules[1]? = some rule ∧ (x, w) ∈ rule.places (valuesAt ρ topVars) ∧
      ∃ branchEnv tree st branch b,
        compileRules intTypes.toTypes 5 0 topVars rules 2 =
          .ok (branchEnv, tree, st) ∧
        branchEnv[1]? = some (branch, rule.body) ∧
        tree.eval intTypes ρ = .leaf branch b ∧ b.lookup x.id = none := by
  refine ⟨unusedRules, [subject], fun _ => .const (.int 5),
    ⟨[.var ⟨["y"], (), 1⟩], "other", []⟩, ⟨["y"], (), 1⟩, .const (.int 5),
    unusedRules_typed, unusedRules_value, rfl, ?_,
    [(1, "zero"), (0, "other")],
    .eqNode subject [(.int 0, .leafNode 1 [])] (.leafNode 0 []),
    ⟨2, [0, 1], false⟩, 0, [], rfl, rfl, ?_, rfl⟩
  · simp [TpRule.places, placesAll, TpPat.places, valuesAt]
  · simp [Tree.eval, evalConst, Env.values]

end MatchCompiler

end SmlSharp
