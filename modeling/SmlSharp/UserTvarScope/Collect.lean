/-
The user type variables that occur unguarded in types, patterns, expressions
and declarations, in the order of their occurrence.
-/
import SmlSharp.Lib.KeyedList
import SmlSharp.ListSorter
import SmlSharp.RecordLabel
import SmlSharp.UserTvarScope.Syntax

namespace SmlSharp

namespace UserTvarScope

open WithType (Tvar TvarKind KindedTvar TypBind ConBind DatBind)

inductive ElaborateError where
  | differentEqOfSameTvar (tvar : Tvar String)
  | duplicateUserTvar (tvar : Tvar String)
  | userTvarScopedAtOuterDecl (tvar : Tvar String)

/-- A result, with the errors enqueued while it was computed. -/
structure Report (α : Type) where
  result : α
  errors : List ElaborateError

instance : Monad Report where
  pure value := ⟨value, []⟩
  bind report next :=
    ⟨(next report.result).result, report.errors ++ (next report.result).errors⟩

@[simp] theorem Report.result_pure {α : Type} (value : α) :
    (pure value : Report α).result = value := rfl

@[simp] theorem Report.errors_pure {α : Type} (value : α) :
    (pure value : Report α).errors = [] := rfl

@[simp] theorem Report.result_bind {α β : Type} (report : Report α)
    (next : α → Report β) :
    (report >>= next).result = (next report.result).result := rfl

@[simp] theorem Report.errors_bind {α β : Type} (report : Report α)
    (next : α → Report β) :
    (report >>= next).errors =
      report.errors ++ (next report.result).errors := rfl

def enqueueError (error : ElaborateError) : Report Unit := ⟨(), [error]⟩

@[simp] theorem errors_enqueueError (error : ElaborateError) :
    (enqueueError error).errors = [error] := rfl

def enqueueIf (found : Bool) (error : ElaborateError) : Report Unit :=
  if found then enqueueError error else pure ()

abbrev TvSet := List (Tvar String)

structure Binding where
  isEq : Bool
  kind : TvarKind String

abbrev BtvEnv := List (String × Binding)

def BtvEnv.find (btvEnv : BtvEnv) (symbol : String) : Option Binding :=
  (KeyedList.find id symbol btvEnv).map Prod.snd

def BtvEnv.insert (btvEnv : BtvEnv) (symbol : String) (binding : Binding) :
    BtvEnv :=
  KeyedList.insert id symbol binding btvEnv

def BtvEnv.inDomain (btvEnv : BtvEnv) (symbol : String) : Bool :=
  (btvEnv.find symbol).isSome

/-- `SymbolEnv.unionWith #2`: the entries of the second map win. -/
def BtvEnv.unionWithSnd (btvEnv newEnv : BtvEnv) : BtvEnv :=
  newEnv.foldl (fun env entry => env.insert entry.1 entry.2) btvEnv

def emptyEnv : BtvEnv := []

def checkEq (tvar : Tvar String) (isEq : Bool) : Report Unit :=
  if tvar.isEq = isEq then pure ()
  else enqueueError (.differentEqOfSameTvar tvar)

/-- One step of the `foldr` of `union`. -/
def unionElem (tvs1 : TvSet) (tv : Tvar String) (tvs : TvSet) : Report TvSet :=
  match tvs1.find? fun tv1 => tv1.symbol = tv.symbol with
  | none => pure (tv :: tvs)
  | some tv1 => do
      checkEq tv tv1.isEq
      pure tvs

def union (tvs1 tvs2 : TvSet) : Report TvSet :=
  tvs2.foldr (fun tv tvs => tvs >>= unionElem tvs1 tv) (pure tvs1)

def setminus (tvs1 : TvSet) (tvs2 : List (KindedTvar String)) : TvSet :=
  tvs1.filter fun tv => ! tvs2.any fun tv2 => tv2.1.symbol = tv.symbol

def toTvarList (tvset : TvSet) : List (KindedTvar String) :=
  tvset.reverse.map fun tv => (tv, .univ [])

/-- One step of the `foldl` of `toBtvEnv`. -/
def insertKindedTvar (btvEnv : BtvEnv) (tvar : KindedTvar String) :
    Report BtvEnv := do
  enqueueIf (btvEnv.inDomain tvar.1.symbol) (.duplicateUserTvar tvar.1)
  pure (btvEnv.insert tvar.1.symbol ⟨tvar.1.isEq, tvar.2⟩)

def toBtvEnv (kindedTvars : List (KindedTvar String)) : Report BtvEnv :=
  kindedTvars.foldl (fun btvEnv tvar => btvEnv >>= (insertKindedTvar · tvar))
    (pure emptyEnv)

def bindKindedTvars (btvEnv : BtvEnv) (kindedTvars : List (KindedTvar String)) :
    Report BtvEnv := do
  let newEnv ← toBtvEnv kindedTvars
  pure (btvEnv.unionWithSnd newEnv)

def bindTvars (btvEnv : BtvEnv) (tvars : List (Tvar String)) : Report BtvEnv :=
  bindKindedTvars btvEnv (tvars.map fun tv => (tv, .univ []))

def extend (btvEnv : BtvEnv) (tvset : TvSet) : BtvEnv :=
  tvset.foldl (fun env tv => env.insert tv.symbol ⟨tv.isEq, .univ []⟩) btvEnv

/-- The sort looks at the labels only, so that the values may be computed
before or after it. -/
def sortTyrows {α : Type} (rows : List (String × α)) : List (String × α) :=
  ListSorter.sort (fun x y => RecordLabel.compare x.1 y.1) rows

/-- `union (e1, e2)`, where the two calls are made from left to right. -/
def tyvarsUnion (call1 call2 : Report TvSet) : Report TvSet := do
  let tvs1 ← call1
  let tvs2 ← call2
  union tvs1 tvs2

/-- `tyvarsList f l`, where `calls` is `map f l`: each call is made when the
union reaches it. -/
def tyvarsList (calls : List (Report TvSet)) : Report TvSet :=
  calls.foldl tyvarsUnion (pure [])

def tyvarsOpt {α : Type} (f : α → Report TvSet) : Option α → Report TvSet
  | some x => f x
  | none => pure []

def tyvarsTvar (btvEnv : BtvEnv) (tv : Tvar String) : Report TvSet :=
  match btvEnv.find tv.symbol with
  | none => pure [tv]
  | some binding => do
      checkEq tv binding.isEq
      pure []

mutual

def tyvarsTy (btvEnv : BtvEnv) : Ty → Report TvSet
  | .wild => pure []
  | .id tv => tyvarsTvar btvEnv tv
  | .freeId _ _ => pure []
  | .record _ fields =>
    tyvarsList ((sortTyrows (tyvarsTyRows btvEnv fields)).map Prod.snd)
  | .construct tys _ => tyvarsList (tyvarsTys btvEnv tys)
  | .tuple tys => tyvarsList (tyvarsTys btvEnv tys)
  | .func ty1 ty2 =>
    tyvarsUnion (tyvarsTy btvEnv ty1) (tyvarsTy btvEnv ty2)
  | .poly kindedTvars ty => do
      let btvEnv ← bindKindedTvars btvEnv kindedTvars
      tyvarsUnion (tyvarsList (tyvarsKindedTvars btvEnv kindedTvars))
        (tyvarsTy btvEnv ty)

def tyvarsTys (btvEnv : BtvEnv) : List Ty → List (Report TvSet)
  | [] => []
  | ty :: tys => tyvarsTy btvEnv ty :: tyvarsTys btvEnv tys

def tyvarsTyRows (btvEnv : BtvEnv) :
    List (String × Ty) → List (String × Report TvSet)
  | [] => []
  | (label, ty) :: rows => (label, tyvarsTy btvEnv ty) :: tyvarsTyRows btvEnv rows

/-- `tyvarsKindedTvar` of each variable. -/
def tyvarsKindedTvars (btvEnv : BtvEnv) :
    List (KindedTvar String) → List (Report TvSet)
  | [] => []
  | (_, kind) :: tvars =>
    tyvarsTvarKind btvEnv kind :: tyvarsKindedTvars btvEnv tvars

def tyvarsTvarKind (btvEnv : BtvEnv) : TvarKind String → Report TvSet
  | .univ _ => pure []
  | .recKind _ recordKind =>
    tyvarsList ((sortTyrows (tyvarsTyRows btvEnv recordKind)).map Prod.snd)

end

mutual

def tyvarsFFIty (btvEnv : BtvEnv) : FfiTy → Report TvSet
  | .funTy argTys varTys retTys =>
    tyvarsUnion
      (tyvarsUnion (tyvarsList (tyvarsFFItys btvEnv argTys))
        (tyvarsFFItysOpt btvEnv varTys))
      (tyvarsList (tyvarsFFItys btvEnv retTys))
  | .tyVar tv => tyvarsTvar btvEnv tv
  | .recordTy rows =>
    tyvarsList ((sortTyrows (tyvarsFFIRows btvEnv rows)).map Prod.snd)
  | .conTy tys _ => tyvarsList (tyvarsFFItys btvEnv tys)

def tyvarsFFItys (btvEnv : BtvEnv) : List FfiTy → List (Report TvSet)
  | [] => []
  | ty :: tys => tyvarsFFIty btvEnv ty :: tyvarsFFItys btvEnv tys

def tyvarsFFItysOpt (btvEnv : BtvEnv) : Option (List FfiTy) → Report TvSet
  | some tys => tyvarsList (tyvarsFFItys btvEnv tys)
  | none => pure []

def tyvarsFFIRows (btvEnv : BtvEnv) :
    List (String × FfiTy) → List (String × Report TvSet)
  | [] => []
  | (label, ty) :: rows =>
    (label, tyvarsFFIty btvEnv ty) :: tyvarsFFIRows btvEnv rows

end

def tyvarsTypbind (btvEnv : BtvEnv) (typbind : TypBind) : Report TvSet := do
  let btvEnv ← bindTvars btvEnv typbind.tyvars
  tyvarsTy btvEnv typbind.ty

def tyvarsConbind (btvEnv : BtvEnv) (conbind : ConBind) : Report TvSet :=
  tyvarsOpt (tyvarsTy btvEnv) conbind.ty

def tyvarsDatbind (btvEnv : BtvEnv) (datbind : DatBind) : Report TvSet := do
  let btvEnv ← bindTvars btvEnv datbind.tyvars
  tyvarsList (datbind.conbind.map (tyvarsConbind btvEnv))

def tyvarsExbind (btvEnv : BtvEnv) : ExBind → Report TvSet
  | .define _ ty => tyvarsOpt (tyvarsTy btvEnv) ty
  | .replicate _ _ => pure []

mutual

def tyvarsPat (btvEnv : BtvEnv) : Pat → Report TvSet
  | .wild => pure []
  | .id _ => pure []
  | .constant _ => pure []
  | .construct pat1 pat2 =>
    tyvarsUnion (tyvarsPat btvEnv pat1) (tyvarsPat btvEnv pat2)
  | .record _ rows => tyvarsList (tyvarsPatRows btvEnv rows)
  | .layered _ ty pat =>
    tyvarsUnion (tyvarsOpt (tyvarsTy btvEnv) ty) (tyvarsPat btvEnv pat)
  | .typed pat ty =>
    tyvarsUnion (tyvarsPat btvEnv pat) (tyvarsTy btvEnv ty)

def tyvarsPatRows (btvEnv : BtvEnv) : List (String × Pat) → List (Report TvSet)
  | [] => []
  | (_, pat) :: rows => tyvarsPat btvEnv pat :: tyvarsPatRows btvEnv rows

end

mutual

def tyvarsExp (btvEnv : BtvEnv) : Exp → Report TvSet
  | .constant _ => pure []
  | .sizeOf ty => tyvarsTy btvEnv ty
  | .var _ => pure []
  | .typed exp ty => tyvarsUnion (tyvarsExp btvEnv exp) (tyvarsTy btvEnv ty)
  | .appM exp exps =>
    tyvarsUnion (tyvarsExp btvEnv exp) (tyvarsList (tyvarsExps btvEnv exps))
  | .letIn decls exp =>
    tyvarsUnion (tyvarsList (tyvarsDecls btvEnv decls)) (tyvarsExp btvEnv exp)
  | .record rows => tyvarsList (tyvarsRows btvEnv rows)
  | .recordUpdate exp rows =>
    tyvarsUnion (tyvarsExp btvEnv exp) (tyvarsList (tyvarsRows btvEnv rows))
  | .recordUpdate2 exp exp2 =>
    tyvarsUnion (tyvarsExp btvEnv exp) (tyvarsExp btvEnv exp2)
  | .raise exp => tyvarsExp btvEnv exp
  | .handle exp rules =>
    tyvarsUnion (tyvarsExp btvEnv exp) (tyvarsList (tyvarsMatch1s btvEnv rules))
  | .fnM rules => tyvarsList (tyvarsMatches btvEnv rules)
  | .caseM exps rules _ =>
    tyvarsUnion (tyvarsList (tyvarsExps btvEnv exps))
      (tyvarsList (tyvarsMatches btvEnv rules))
  | .recordSelector _ => pure []
  | .select _ exp => tyvarsExp btvEnv exp
  | .seq exps => tyvarsList (tyvarsExps btvEnv exps)
  | .ffiImport ffiFun ffiTy =>
    tyvarsUnion (tyvarsFFIFun btvEnv ffiFun) (tyvarsFFIty btvEnv ffiTy)
  | .sqlSchema tyFnExp ty =>
    tyvarsUnion (tyvarsExp btvEnv tyFnExp) (tyvarsTy btvEnv ty)
  | .join _ exp1 exp2 =>
    tyvarsUnion (tyvarsExp btvEnv exp1) (tyvarsExp btvEnv exp2)
  | .dynamic exp ty => tyvarsUnion (tyvarsExp btvEnv exp) (tyvarsTy btvEnv ty)
  | .dynamicIs exp ty => tyvarsUnion (tyvarsExp btvEnv exp) (tyvarsTy btvEnv ty)
  | .dynamicView exp ty =>
    tyvarsUnion (tyvarsExp btvEnv exp) (tyvarsTy btvEnv ty)
  | .dynamicNull ty => tyvarsTy btvEnv ty
  | .dynamicTop ty => tyvarsTy btvEnv ty
  | .dynamicCase exp rules =>
    tyvarsUnion (tyvarsExp btvEnv exp)
      (tyvarsList (tyvarsDynMatches btvEnv rules))
  | .reifyTy ty => tyvarsTy btvEnv ty

def tyvarsFFIFun (btvEnv : BtvEnv) : FfiFun → Report TvSet
  | .func exp => tyvarsExp btvEnv exp
  | .externDecl _ => pure []

def tyvarsExps (btvEnv : BtvEnv) : List Exp → List (Report TvSet)
  | [] => []
  | exp :: exps => tyvarsExp btvEnv exp :: tyvarsExps btvEnv exps

/-- `tyvarsRow` of each row. -/
def tyvarsRows (btvEnv : BtvEnv) : List (String × Exp) → List (Report TvSet)
  | [] => []
  | (_, exp) :: rows => tyvarsExp btvEnv exp :: tyvarsRows btvEnv rows

/-- `tyvarsMatch` of each rule. -/
def tyvarsMatches (btvEnv : BtvEnv) :
    List (List Pat × Exp) → List (Report TvSet)
  | [] => []
  | (pats, exp) :: rules =>
    tyvarsUnion (tyvarsList (pats.map (tyvarsPat btvEnv))) (tyvarsExp btvEnv exp)
      :: tyvarsMatches btvEnv rules

/-- `tyvarsMatch1` of each rule, and `tyvarsBind` of each binding. -/
def tyvarsMatch1s (btvEnv : BtvEnv) : List (Pat × Exp) → List (Report TvSet)
  | [] => []
  | (pat, exp) :: rules =>
    tyvarsUnion (tyvarsPat btvEnv pat) (tyvarsExp btvEnv exp)
      :: tyvarsMatch1s btvEnv rules

/-- `tyvarsDynMatch` of each rule. -/
def tyvarsDynMatches (btvEnv : BtvEnv) :
    List (List (KindedTvar String) × Pat × Exp) → List (Report TvSet)
  | [] => []
  | (tyvars, pat, exp) :: rules =>
    (do
      let tvs ← tyvarsUnion (tyvarsPat btvEnv pat) (tyvarsExp btvEnv exp)
      pure (setminus tvs tyvars))
      :: tyvarsDynMatches btvEnv rules

def tyvarsDecl (btvEnv : BtvEnv) : Decl → Report TvSet
  | .val _ _ => pure []  -- guard point
  | .valRec _ _ => pure []  -- guard point
  | .valPolyRec _ => pure []  -- guard point
  | .decFun _ _ => pure []  -- guard point
  | .type typbinds => tyvarsList (typbinds.map (tyvarsTypbind btvEnv))
  | .datatype datbinds => tyvarsList (datbinds.map (tyvarsDatbind btvEnv))
  | .replicateDat _ _ => pure []
  | .abstype datbinds decls =>
    tyvarsUnion (tyvarsList (datbinds.map (tyvarsDatbind btvEnv)))
      (tyvarsList (tyvarsDecls btvEnv decls))
  | .exd exbinds => tyvarsList (exbinds.map (tyvarsExbind btvEnv))
  | .localDec decls1 decls2 =>
    tyvarsUnion (tyvarsList (tyvarsDecls btvEnv decls1))
      (tyvarsList (tyvarsDecls btvEnv decls2))
  | .open _ => pure []
  | .infixDec _ _ => pure []
  | .infixrDec _ _ => pure []
  | .nonfixDec _ => pure []
  | .empty => pure []

def tyvarsDecls (btvEnv : BtvEnv) : List Decl → List (Report TvSet)
  | [] => []
  | decl :: decls => tyvarsDecl btvEnv decl :: tyvarsDecls btvEnv decls

end

def tyvarsValbindList (btvEnv : BtvEnv) (valbinds : List (Pat × Exp)) :
    Report TvSet :=
  tyvarsList (tyvarsMatch1s btvEnv valbinds)

def tyvarsFvalbind (btvEnv : BtvEnv) (fvalbind : Pat × List (List Pat × Exp)) :
    Report TvSet :=
  tyvarsUnion (tyvarsPat btvEnv fvalbind.1)
    (tyvarsList (tyvarsMatches btvEnv fvalbind.2))

def tyvarsFvalbindList (btvEnv : BtvEnv)
    (fvalbinds : List (Pat × List (List Pat × Exp))) : Report TvSet :=
  tyvarsList (fvalbinds.map (tyvarsFvalbind btvEnv))

end UserTvarScope

end SmlSharp
