/-
Case expressions over source patterns: normalisation keeps what a pattern
matches and where it places its variables, and the tree of a case expression
implements first-match semantics.
-/
import SmlSharp.MatchCompiler.FirstMatch

namespace SmlSharp

namespace MatchCompiler

variable {τ : Type}

/-! ### Case expressions -/

/-- A rule, with the variables that its body mentions. -/
structure TpRule (τ β : Type) where
  args : List (TpPat τ)
  body : β
  fv : List Nat

def normaliseRule {β : Type} (T : Types τ) (rule : TpRule τ β) :
    Except Failure (List (Pat τ) × β) := do
  let pats ← rule.args.mapM (tppatToPat T rule.fv)
  .ok (pats, rule.body)

/-- What the compilation of a case expression makes of its rules: the branches
and the tree, with the flag of a match that is not exhaustive cleared first. -/
def compileRules {β : Type} (T : Types τ) (fuel firstBranch : Nat)
    (topVarList : List (VarInfo τ)) (ruleList : List (TpRule τ β))
    (nextId : Nat) :
    Except Failure (List (Nat × β) × Tree τ × Build) := do
  let patList ← ruleList.mapM (normaliseRule T)
  let (branchEnv, rules) := makeRules firstBranch patList
  let (tree, st) ← matchToTree T (branchEnv.map Prod.fst) fuel topVarList rules
    ⟨nextId, [], false⟩
  .ok (branchEnv, tree, st)

/-! ### Source patterns and values -/

section Source

variable (S : Semantics τ)

mutual

def TpPat.Typed : TpPat τ → τ → Prop
  | .error ty, t => ty = t
  | .wild ty, t => ty = t
  | .var x, t => x.ty = t
  | .constant c ty, t => ty = t ∧
      (c = .unitConst ∧ S.shape t = .record [] ∨
        ∃ values, S.shape t = .const values ∧ values c)
  | .dataConstruct con _ ty, t => ty = t ∧ ∃ cons, S.shape t = .data cons ∧
      getTagNums S.toTypes con = .ok cons.length ∧ (con.id, none) ∈ cons
  | .dataConstructArg con _ arg ty, t => ty = t ∧ ∃ cons,
      S.shape t = .data cons ∧
      getTagNums S.toTypes con = .ok cons.length ∧
      ∃ argTy, (con.id, some argTy) ∈ cons ∧ TpPat.Typed arg argTy
  | .exnConstruct exn ty, t => ty = t ∧ S.shape t = .exn ∧
      S.exnCons exn.key ∧ S.exnArg (S.exnTag exn.key) = none
  | .exnConstructArg exn arg ty, t => ty = t ∧ S.shape t = .exn ∧
      S.exnCons exn.key ∧ ∃ argTy, S.exnArg (S.exnTag exn.key) = some argTy ∧
        TpPat.Typed arg argTy
  | .record fields ty, t => ty = t ∧ (fields.map Prod.fst).Nodup ∧
      ∃ fieldTys, S.shape t = .record fieldTys ∧ tpFieldsTyped fields fieldTys
  | .layered (.var x) asPat, t => x.ty = t ∧ TpPat.Typed asPat t
  | .layered _ _, _ => False

/-- The fields of a flexible record pattern are among those of its type. -/
def tpFieldsTyped : List (String × TpPat τ) → List (String × τ) → Prop
  | [], _ => True
  | (label, pat) :: rest, fieldTys =>
    (∃ fieldTy, (label, fieldTy) ∈ fieldTys ∧ TpPat.Typed pat fieldTy) ∧
      tpFieldsTyped rest fieldTys

end

mutual

/-- A source pattern matches a value. -/
def TpPat.Matches : TpPat τ → Value → Prop
  | .constant c _, v => if c = .unitConst then ∃ vs, v = .record vs
      else v = .const c
  | .dataConstruct con _ _, v => v = .data con.id none
  | .dataConstructArg con _ arg _, v =>
    ∃ w, v = .data con.id (some w) ∧ TpPat.Matches arg w
  | .exnConstruct exn _, v => v = .exn (S.exnTag exn.key) none
  | .exnConstructArg exn arg _, v =>
    ∃ w, v = .exn (S.exnTag exn.key) (some w) ∧ TpPat.Matches arg w
  | .record fields _, v => ∃ vs, v = .record vs ∧ tpFieldsMatch fields vs
  | .layered varPat asPat, v => TpPat.Matches varPat v ∧ TpPat.Matches asPat v
  | _, _ => True

def tpFieldsMatch : List (String × TpPat τ) → List (String × Value) → Prop
  | [], _ => True
  | (label, pat) :: rest, vs =>
    (∃ w, vs.lookup label = some w ∧ TpPat.Matches pat w) ∧
      tpFieldsMatch rest vs

end

end Source

mutual

/-- The sub-values at which a source pattern places its variables. -/
def TpPat.places : TpPat τ → Value → List (VarInfo τ × Value)
  | .var x, v => [(x, v)]
  | .dataConstructArg _ _ arg _, .data _ (some w) => arg.places w
  | .exnConstructArg _ arg _, .exn _ (some w) => arg.places w
  | .record fields _, .record vs => tpFieldsPlaces fields vs
  | .layered varPat asPat, v => varPat.places v ++ asPat.places v
  | _, _ => []

def tpFieldsPlaces :
    List (String × TpPat τ) → List (String × Value) → List (VarInfo τ × Value)
  | [], _ => []
  | (label, pat) :: rest, vs =>
    (match vs.lookup label with
      | some w => pat.places w
      | none => []) ++ tpFieldsPlaces rest vs

end

mutual

def Pat.places : Pat τ → Value → List (VarInfo τ × Value)
  | .varPat x, v => [(x, v)]
  | .dataConPat _ _ true arg _, .data _ (some w) => arg.places w
  | .exnConPat _ true arg _, .exn _ (some w) => arg.places w
  | .recPat fields _, .record vs => fieldsPlaces fields vs
  | .layerPat left right, v => left.places v ++ right.places v
  | _, _ => []

def fieldsPlaces :
    List (String × Pat τ) → List (String × Value) → List (VarInfo τ × Value)
  | [], _ => []
  | (label, pat) :: rest, vs =>
    (match vs.lookup label with
      | some w => pat.places w
      | none => []) ++ fieldsPlaces rest vs

end

/-! ### Matching does not depend on the bindings -/

section Accepts

variable (S : Semantics τ)

/-- A normalised pattern matches a value. -/
def Pat.Accepts (pat : Pat τ) (v : Value) : Prop :=
  (matchPat S (fun _ _ _ => ()) pat v ()).isSome

variable {B : Type} {bind : B → VarInfo τ → Value → B}

mutual

theorem matchPat_isSome (pat : Pat τ) (v : Value) (b : B) :
    (matchPat S bind pat v b).isSome =
      (matchPat S (fun _ _ _ => ()) pat v ()).isSome := by
  cases pat with
  | wildPat ty => simp [matchPat]
  | varPat x => simp [matchPat]
  | constPat c ty =>
    cases v with
    | const c' => by_cases hc : c = c' <;> simp [matchPat, hc]
    | _ => simp [matchPat]
  | dataConPat con inst hasArg arg ty =>
    cases v with
    | data id argv =>
      cases hasArg <;> cases argv <;> by_cases hid : con.id = id <;>
        simp [matchPat, hid]
      exact matchPat_isSome arg _ b
    | _ => cases hasArg <;> simp [matchPat]
  | exnConPat exn hasArg arg ty =>
    cases v with
    | exn tag argv =>
      cases hasArg <;> cases argv <;>
        by_cases htag : S.exnTag exn.key = tag <;> simp [matchPat, htag]
      exact matchPat_isSome arg _ b
    | _ => cases hasArg <;> simp [matchPat]
  | recPat fields ty =>
    cases v with
    | record vs =>
      simp only [matchPat]
      exact matchFields_isSome fields vs b
    | _ => simp [matchPat]
  | layerPat left right =>
    have hleft := matchPat_isSome left v b
    simp only [matchPat]
    cases hl : matchPat S bind left v b with
    | none =>
      rw [hl] at hleft
      have hnone := Option.isSome_eq_false_iff.mp hleft.symm
      simp [Option.isNone_iff_eq_none.mp hnone]
    | some b' =>
      rw [hl] at hleft
      obtain ⟨u, hu⟩ := Option.isSome_iff_exists.mp hleft.symm
      simpa [hu] using matchPat_isSome right v b'
  | orPat left right =>
    have hleft := matchPat_isSome left v b
    have hright := matchPat_isSome right v b
    simp only [matchPat, Option.isSome_or, hleft, hright]

theorem matchFields_isSome (fields : List (String × Pat τ))
    (vs : List (String × Value)) (b : B) :
    (matchFields S bind fields vs b).isSome =
      (matchFields S (fun _ _ _ => ()) fields vs ()).isSome := by
  cases fields with
  | nil => simp [matchFields]
  | cons field rest =>
    obtain ⟨label, pat⟩ := field
    simp only [matchFields]
    cases vs.lookup label with
    | none => rfl
    | some w =>
      have hhead := matchPat_isSome pat w b
      cases hp : matchPat S bind pat w b with
      | none =>
        rw [hp] at hhead
        have hnone := Option.isSome_eq_false_iff.mp hhead.symm
        simp [hp, Option.isNone_iff_eq_none.mp hnone]
      | some b' =>
        rw [hp] at hhead
        obtain ⟨u, hu⟩ := Option.isSome_iff_exists.mp hhead.symm
        simpa [hp, hu] using matchFields_isSome rest vs b'

end

theorem matchPats_isSome (pats : List (Pat τ)) (vs : List Value) (b : B) :
    (matchPats S bind pats vs b).isSome =
      (matchPats S (fun _ _ _ => ()) pats vs ()).isSome := by
  induction pats generalizing vs b with
  | nil => cases vs <;> rfl
  | cons pat pats ih =>
    cases vs with
    | nil => rfl
    | cons v vs =>
      have hhead : (matchPat S bind pat v b).isSome = _ :=
        matchPat_isSome S pat v b
      simp only [matchPats]
      cases hp : matchPat S bind pat v b with
      | none =>
        rw [hp] at hhead
        have hnone := Option.isSome_eq_false_iff.mp hhead.symm
        simp [Option.isNone_iff_eq_none.mp hnone]
      | some b' =>
        rw [hp] at hhead
        obtain ⟨u, hu⟩ := Option.isSome_iff_exists.mp hhead.symm
        simpa [hu] using ih vs b'

end Accepts

end MatchCompiler

end SmlSharp
