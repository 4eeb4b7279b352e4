/-
The typed calculus, as the compilation of foreign functions reads and writes it,
and its constructors that also compute the type of what they construct.
-/
import SmlSharp.RecordLabel
import SmlSharp.Lib.StateExcept
import SmlSharp.Lib.Except

namespace SmlSharp.FFICompilation

open RecordLabel (Label)

inductive CallingConvention where
  | ffiCdecl
  | ffiStdcall
  | ffiFastcc
deriving DecidableEq, Repr

structure Attributes where
  isPure : Bool
  fast : Bool
  isUnsafe : Bool
  causeGC : Bool
  callingConvention : Option CallingConvention
deriving DecidableEq, Repr

def defaultFFIAttributes : Attributes := ⟨false, false, false, false, none⟩

inductive TyCon where
  | unit
  | exn
  | codeptr
  | tyRep
  | other (id : Nat)
deriving DecidableEq, Repr

/-- Types without references: a type variable stands for itself. -/
inductive Ty where
  | errorTy
  | boundVarTy (id : Nat)
  | tyVarTy (id : Nat)
  | reifyTy (ty : Ty)
  | foreignFunPtrTy (argTyList : List Ty) (varArgTyList : Option (List Ty))
      (resultTy : Option Ty) (attributes : Attributes)
  | funMTy (argTyList : List Ty) (ty : Ty)
  | recordTy (fields : List (Label × Ty))
  | constructTy (tyCon : TyCon) (args : List Ty)
  | polyTy (boundtvars : List Nat) (body : Ty)

def unitTy : Ty := .constructTy .unit []

def exnTy : Ty := .constructTy .exn []

def tyRepTy : Ty := .constructTy .tyRep []

mutual

/-- The instance of the body of a polytype. -/
def substBTvar (subst : List (Nat × Ty)) : Ty → Ty
  | .errorTy => .errorTy
  | .boundVarTy id => (subst.lookup id).getD (.boundVarTy id)
  | .tyVarTy id => .tyVarTy id
  | .reifyTy ty => .reifyTy (substBTvar subst ty)
  | .foreignFunPtrTy argTyList none none attributes =>
    .foreignFunPtrTy (substBTvarList subst argTyList) none none attributes
  | .foreignFunPtrTy argTyList none (some resultTy) attributes =>
    .foreignFunPtrTy (substBTvarList subst argTyList) none (some (substBTvar subst resultTy))
      attributes
  | .foreignFunPtrTy argTyList (some varArgTyList) none attributes =>
    .foreignFunPtrTy (substBTvarList subst argTyList)
      (some (substBTvarList subst varArgTyList)) none attributes
  | .foreignFunPtrTy argTyList (some varArgTyList) (some resultTy) attributes =>
    .foreignFunPtrTy (substBTvarList subst argTyList)
      (some (substBTvarList subst varArgTyList)) (some (substBTvar subst resultTy)) attributes
  | .funMTy argTyList ty => .funMTy (substBTvarList subst argTyList) (substBTvar subst ty)
  | .recordTy fields => .recordTy (substBTvarFields subst fields)
  | .constructTy tyCon args => .constructTy tyCon (substBTvarList subst args)
  | .polyTy boundtvars body => .polyTy boundtvars (substBTvar subst body)

def substBTvarList (subst : List (Nat × Ty)) : List Ty → List Ty
  | [] => []
  | ty :: tys => substBTvar subst ty :: substBTvarList subst tys

def substBTvarFields (subst : List (Nat × Ty)) : List (Label × Ty) → List (Label × Ty)
  | [] => []
  | (label, ty) :: fields => (label, substBTvar subst ty) :: substBTvarFields subst fields

end

inductive Failure where
  | bug
  | typeMismatch
  | toplevelInst
  /-- An exception of the rebalancing of a map. -/
  | mapMatch
deriving DecidableEq, Repr

structure VarInfo where
  path : List String
  ty : Ty
  id : Nat
  isOpaque : Bool

structure ExVarInfo where
  path : List String
  ty : Ty

structure ConInfo where
  path : List String
  ty : Ty
  id : Nat

inductive ExnCon where
  | exn (path : List String) (ty : Ty) (id : Nat)
  | exExn (path : List String) (ty : Ty)

inductive Constant where
  | unitConst
  | int (value : Int)
  | word (value : Nat)
  | string (value : String)
  | real (value : String)
  | char (value : Char)
deriving DecidableEq, Repr

inductive Cast where
  | typeCast
  | bitCast
deriving DecidableEq, Repr

inductive Primitive where
  | cast (cast : Cast)
  | other (id : Nat)
deriving DecidableEq, Repr

structure PrimInfo where
  primitive : Primitive
  ty : Ty

structure OprimInfo where
  path : List String
  ty : Ty
  id : Nat

inductive CaseKind where
  | bindKind
  | matchKind
  | handleKind
deriving DecidableEq, Repr

inductive Constraint where
  | join (res arg1 arg2 : Ty)

/-- The kinds of bound type variables are only copied. -/
abbrev BtvEnv := List Nat

inductive Tppat where
  | tpPatError (ty : Ty)
  | tpPatWild (ty : Ty)
  | tpPatVar (var : VarInfo)
  | tpPatConstant (const : Constant) (ty : Ty)
  | tpPatDataConstruct (conPat : ConInfo) (instTyList : Option (List Ty))
      (argPatOpt : Option Tppat) (patTy : Ty)
  | tpPatExnConstruct (exnPat : ExnCon) (argPatOpt : Option Tppat) (patTy : Ty)
  | tpPatRecord (fields : List (Label × Tppat)) (recordTy : Ty)
  | tpPatLayered (varPat asPat : Tppat)

inductive FfiTy where
  | ffiFunTy (attributes : Option Attributes) (argTys : List FfiTy)
      (varTys : Option (List FfiTy)) (retTys : List FfiTy)
  /-- The order of the fields is significant. -/
  | ffiRecordTy (fields : List (Label × FfiTy))
  | ffiBaseTy (ty : Ty)

/-- What stands before the body of a rule or a binding. -/
structure ConstCase where
  const : Constant
  ty : Ty

structure ConCase where
  con : ConInfo
  instTyList : Option (List Ty)
  argVarOpt : Option VarInfo

structure ExnCase where
  exn : ExnCon
  argVarOpt : Option VarInfo

structure FunBind where
  funVarInfo : VarInfo
  argTyList : List Ty
  bodyTy : Ty

mutual

inductive Tpexp where
  | tpError
  | tpConstant (const : Constant) (ty : Ty)
  | tpVar (var : VarInfo)
  | tpExVar (exVarInfo : ExVarInfo)
  | tpRecFunVar (var : VarInfo) (arity : Nat)
  | tpFnM (argVarList : List VarInfo) (bodyTy : Ty) (bodyExp : Tpexp)
  | tpAppM (funExp : Tpexp) (funTy : Ty) (argExpList : List Tpexp)
  | tpDataConstruct (con : ConInfo) (instTyList : Option (List Ty)) (argExpOpt : Option Tpexp)
  | tpExnConstruct (exn : ExnCon) (argExpOpt : Option Tpexp)
  | tpExnTag (path : List String) (ty : Ty) (id : Nat)
  | tpExExnTag (path : List String) (ty : Ty)
  | tpCaseM (expList : List Tpexp) (expTyList : List Ty)
      (ruleList : List (List Tppat × Tpexp)) (ruleBodyTy : Ty) (caseKind : CaseKind)
  | tpSwitch (exp : Tpexp) (expTy : Ty) (ruleList : SwitchRules) (defaultExp : Tpexp)
      (ruleBodyTy : Ty)
  | tpCatch (catchLabel : Nat) (tryExp : Tpexp) (argVarList : List VarInfo) (catchExp : Tpexp)
      (resultTy : Ty)
  | tpThrow (catchLabel : Nat) (argExpList : List Tpexp) (resultTy : Ty)
  | tpDynamicCase (groupListTerm : Tpexp) (groupListTy : Ty) (dynamicTerm : Tpexp)
      (dynamicTy elemTy ruleBodyTy : Ty)
  | tpDynamicExistTApp (existInstMap exp : Tpexp) (expTy : Ty) (instTyList : List Ty)
  | tpPrimApply (primOp : PrimInfo) (instTyList : Option (List Ty)) (argExp : Tpexp)
  | tpOprimApply (oprimOp : OprimInfo) (instTyList : List Ty) (argExp : Tpexp)
  | tpRecord (fields : List (Label × Tpexp)) (recordTy : List (Label × Ty))
  | tpSelect (label : Label) (exp : Tpexp) (expTy resultTy : Ty)
  | tpModify (label : Label) (recordExp : Tpexp) (recordTy : Ty) (elementExp : Tpexp)
      (elementTy : Ty)
  | tpMonoLet (binds : List (VarInfo × Tpexp)) (bodyExp : Tpexp)
  | tpLet (decls : List Tpdecl) (body : Tpexp)
  | tpRaise (exp : Tpexp) (ty : Ty)
  | tpHandle (exp : Tpexp) (exnVar : VarInfo) (handler : Tpexp) (resultTy : Ty)
  | tpPoly (btvEnv : BtvEnv) (constraints : List Constraint) (expTyWithoutTAbs : Ty)
      (exp : Tpexp)
  | tpTApp (exp : Tpexp) (expTy : Ty) (instTyList : List Ty)
  | tpFFIImport (funExp : Tpffifun) (ffiTy : FfiTy) (stubTy : Ty)
  | tpForeignSymbol (name : String) (ty : Ty)
  | tpForeignApply (funExp : Tpexp) (argExpList : List Tpexp) (attributes : Attributes)
      (resultTy : Option Ty)
  | tpCallbackFn (attributes : Attributes) (argVarList : List VarInfo) (bodyExp : Tpexp)
      (resultTy : Option Ty)
  | tpCast (exp : Tpexp) (expTy ty : Ty)
  | tpSizeOf (ty : Ty)
  | tpReifyTy (ty : Ty)
  | tpJoin (ty : Ty) (arg1 arg2 : Tpexp) (argTy1 argTy2 : Ty) (isJoin : Bool)
  | tpDynamic (exp : Tpexp) (ty elemTy coerceTy : Ty)
  | tpDynamicIs (exp : Tpexp) (ty elemTy coerceTy : Ty)
  | tpDynamicView (exp : Tpexp) (ty elemTy coerceTy : Ty)
  | tpDynamicNull (ty coerceTy : Ty)
  | tpDynamicTop (ty coerceTy : Ty)

inductive Tpffifun where
  | tpFFIFun (ptrExp : Tpexp) (ptrTy : Ty)
  | tpFFIExtern (name : String)

inductive SwitchRules where
  | constCase (rules : List (ConstCase × Tpexp))
  | conCase (rules : List (ConCase × Tpexp))
  | exnCase (rules : List (ExnCase × Tpexp))

inductive Tpdecl where
  | tpVal (var : VarInfo) (exp : Tpexp)
  | tpFunDecl (binds : List (FunBind × List (List Tppat × Tpexp)))
  | tpPolyFunDecl (btvEnv : BtvEnv) (constraints : List Constraint)
      (recbinds : List (FunBind × List (List Tppat × Tpexp)))
  | tpValRec (binds : List (VarInfo × Tpexp))
  | tpValPolyRec (btvEnv : BtvEnv) (constraints : List Constraint)
      (recbinds : List (VarInfo × Tpexp))
  | tpExd (path : List String) (ty : Ty) (id : Nat)
  | tpExnTagd (path : List String) (ty : Ty) (id : Nat) (varInfo : VarInfo)
  | tpExportVar (var : ExVarInfo) (exp : Tpexp)
  | tpExportExn (path : List String) (ty : Ty) (id : Nat)
  | tpExternVar (var : ExVarInfo)
  | tpExternExn (path : List String) (ty : Ty)
  | tpBuiltinExn (path : List String) (ty : Ty)

end

/-- An expression with its type. -/
abbrev Exp := Tpexp × Ty

/-- Fresh identifiers of variables come from a counter. -/
abbrev Gen := StateT Nat (Except Failure)

def newVar (ty : Ty) : Gen VarInfo := do
  let id ← get
  set (id + 1)
  return ⟨[], ty, id, false⟩

/-- The entries of a map in the order of the labels. -/
def labelMapFromList {α : Type} (fields : List (Label × α)) :
    Except Failure (List (Label × α)) :=
  match BinaryMap.insertAll RecordLabel.compare fields with
  | some map => .ok map.listItemsi
  | none => .error .mapMatch

/-- `RecordLabel.tupleList`, from the label `n`. -/
def tupleListFrom {α : Type} (n : Nat) : List α → List (Label × α)
  | [] => []
  | value :: values => (toString n, value) :: tupleListFrom (n + 1) values

def tupleList {α : Type} (values : List α) : List (Label × α) := tupleListFrom 1 values

def tupleMap {α : Type} (values : List α) : Except Failure (List (Label × α)) :=
  labelMapFromList (tupleList values)

namespace TypedCalcCon

def tpVar (var : VarInfo) : Exp := (.tpVar var, var.ty)

def tpForeignSymbol (name : String) (ty : Ty) : Exp := (.tpForeignSymbol name ty, ty)

def selectTy (label : Label) : Ty → Except Failure Ty
  | .recordTy fields =>
    match fields.lookup label with
    | some ty => .ok ty
    | none => .error .bug
  | _ => .error .bug

def tpSelect (exp : Exp) (label : Label) : Except Failure Exp := do
  let resultTy ← selectTy label exp.2
  return (.tpSelect label exp.1 exp.2 resultTy, resultTy)

def tpRecord (fields : List (Label × Exp)) : Exp :=
  let exps := fields.map fun field => (field.1, field.2.1)
  let tys := fields.map fun field => (field.1, field.2.2)
  (.tpRecord exps tys, .recordTy tys)

def tpPrimApply (primOp : PrimInfo) (argExp : Exp) : Except Failure Exp :=
  match primOp.ty with
  | .funMTy [_] retTy => .ok (.tpPrimApply primOp none argExp.1, retTy)
  | _ => .error .bug

def tpVal (var : VarInfo) (exp : Exp) : Tpdecl := .tpVal { var with ty := exp.2 } exp.1

def tpLet (decls : List Tpdecl) (body : Exp) : Exp :=
  match decls, body with
  | [], body => body
  | decls, (.tpLet decls2 body, bodyTy) => (.tpLet (decls ++ decls2) body, bodyTy)
  | decls, (bodyExp, bodyTy) => (.tpLet decls bodyExp, bodyTy)

def tpFnM (argVarList : List VarInfo) (bodyExp : Exp) : Exp :=
  (.tpFnM argVarList bodyExp.2 bodyExp.1, .funMTy (argVarList.map VarInfo.ty) bodyExp.2)

/-- `ListPair.mapEq` of the bindings of an application of a function term. -/
def bindArgs : List VarInfo → List Tpexp → Except Failure (List Tpdecl)
  | [], [] => .ok []
  | var :: vars, exp :: exps => do return .tpVal var exp :: (← bindArgs vars exps)
  | _, _ => .error .bug

/-- An applied function term becomes a `let`. -/
def appExp (funExp : Exp) (args : List Tpexp) : Except Failure Tpexp :=
  match funExp.1 with
  | .tpFnM argVarList _ bodyExp => do return .tpLet (← bindArgs argVarList args) bodyExp
  | funTpexp => return .tpAppM funTpexp funExp.2 args

def tpAppM (funExp : Exp) (argExpList : List Exp) : Except Failure Exp := do
  let exp ← appExp funExp (argExpList.map Prod.fst)
  match funExp.2 with
  | .funMTy _ retTy => return (exp, retTy)
  | _ => throw .bug

def tpForeignApply (funExp : Exp) (argExpList : List Exp) : Except Failure Exp :=
  match funExp.2 with
  | .foreignFunPtrTy argTyList varArgTyList resultTy attributes =>
    if (argTyList ++ varArgTyList.getD []).length = argExpList.length then
      .ok (.tpForeignApply funExp.1 (argExpList.map Prod.fst) attributes resultTy,
        resultTy.getD unitTy)
    else .error .bug
  | _ => .error .bug

def tpCallbackFn (attributes : Attributes) (argVarList : List VarInfo) (bodyExp : Exp)
    (isVoid : Bool) : Exp :=
  let resultTy := if isVoid then none else some bodyExp.2
  (.tpCallbackFn attributes argVarList bodyExp.1 resultTy,
    .foreignFunPtrTy (argVarList.map VarInfo.ty) none resultTy attributes)

end TypedCalcCon

end SmlSharp.FFICompilation
