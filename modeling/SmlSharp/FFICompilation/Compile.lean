/-
The compilation of foreign functions, joins and dynamic expressions into calls
of library functions.
-/
import SmlSharp.FFICompilation.Stub

namespace SmlSharp.FFICompilation

open RecordLabel (Label)

/-- The library functions and exceptions that compiled code refers to, and the
equality of types. -/
structure UserLevelPrimitive where
  naturalJoin : ExVarInfo
  extend : ExVarInfo
  toReifiedTerm : ExVarInfo
  reifiedTermToML : ExVarInfo
  coerceTermGeneric : ExVarInfo
  checkTermGeneric : ExVarInfo
  viewTermGeneric : ExVarInfo
  null : ExVarInfo
  void : ExVarInfo
  dynamicTypeCase : ExVarInfo
  exnNaturalJoin : ExVarInfo
  exnRuntimeTypeError : ExVarInfo
  eqTy : Ty → Ty → Bool

/-! ### Constructors of reified expressions -/

namespace ReifyUtils

def monoVar (exVarInfo : ExVarInfo) : Exp := (.tpExVar exVarInfo, exVarInfo.ty)

/-- An instance in which all bound type variables are one type. -/
def instVar (exVarInfo : ExVarInfo) (instTy : Ty) : Exp :=
  match exVarInfo.ty with
  | .polyTy boundtvars body =>
    let subst := boundtvars.map fun id => (id, instTy)
    (.tpTApp (.tpExVar exVarInfo) exVarInfo.ty (subst.map Prod.snd), substBTvar subst body)
  | ty => (.tpExVar exVarInfo, ty)

def instListVar (exVarInfo : ExVarInfo) (instTyList : List Ty) : Except Failure Exp :=
  match exVarInfo.ty with
  | .polyTy boundtvars body =>
    if boundtvars.length = instTyList.length then
      let subst := boundtvars.zip instTyList
      .ok (.tpTApp (.tpExVar exVarInfo) exVarInfo.ty (subst.map Prod.snd),
        substBTvar subst body)
    else .error .toplevelInst
  | ty => if instTyList.isEmpty then .ok (.tpExVar exVarInfo, ty) else .error .toplevelInst

def pair (exp1 exp2 : Exp) : Except Failure Exp := do
  let fields ← tupleMap [exp1.1, exp2.1]
  let tys ← tupleMap [exp1.2, exp2.2]
  return (.tpRecord fields tys, .recordTy tys)

def apply (eqTy : Ty → Ty → Bool) (funExp argExp : Exp) : Except Failure Exp :=
  match funExp.2 with
  | .funMTy [domTy] bodyTy =>
    if eqTy domTy argExp.2 then .ok (.tpAppM funExp.1 funExp.2 [argExp.1], bodyTy)
    else .error .typeMismatch
  | _ => .error .typeMismatch

def applyList (eqTy : Ty → Ty → Bool) (funExp : Exp) : List Exp → Except Failure Exp
  | [] => .ok funExp
  | h :: t => do applyList eqTy (← apply eqTy funExp h) t

end ReifyUtils

def isSimpleExp : Tpexp → Bool
  | .tpError => true
  | .tpConstant .. => true
  | .tpVar _ => true
  | .tpExVar _ => true
  | .tpRecFunVar .. => true
  | .tpExnTag .. => true
  | .tpExExnTag .. => true
  | .tpForeignSymbol .. => true
  | .tpCast exp _ _ => isSimpleExp exp
  | .tpSizeOf _ => true
  | .tpReifyTy _ => true
  | _ => false

def toSimpleExp (exp : Exp) : Gen ((Exp → Exp) × Exp) :=
  if isSimpleExp exp.1 then return (id, exp)
  else do
    let var ← newVar exp.2
    return (fun body => TypedCalcCon.tpLet [.tpVal var exp.1] body, TypedCalcCon.tpVar var)

def handleAndReRaise (exnCon : ExVarInfo) (exp : Exp) : Gen Tpexp := do
  let exn := ExnCon.exExn exnCon.path exnCon.ty
  let exnVar ← newVar exnTy
  let raiseExp := Tpexp.tpRaise (.tpExnConstruct exn none) exp.2
  let exnCaseExp := Tpexp.tpSwitch (.tpVar exnVar) exnTy
    (.exnCase [(⟨exn, none⟩, raiseExp)]) (.tpRaise (.tpVar exnVar) exp.2) exp.2
  return .tpHandle exp.1 exnVar exnCaseExp exp.2

def typeOf (ty : Ty) : Exp := (.tpCast (.tpReifyTy ty) (.reifyTy ty) tyRepTy, tyRepTy)

/-- The import of a function whose pointer has been compiled. -/
def importFFIFun (ptrExp : Exp) (ffiTy : FfiTy) : Gen Tpexp := do
  let (letFn, ptrExp) ← toSimpleExp ptrExp
  let (funptrTy, importExpFn) ← stubImport ffiTy
  return (letFn (← importExpFn (← bitCast ptrExp funptrTy))).1

def importFFIExtern (name : String) (ffiTy : FfiTy) : Gen Tpexp := do
  let (funptrTy, importExpFn) ← stubImport ffiTy
  return (← importExpFn (TypedCalcCon.tpForeignSymbol name funptrTy)).1

section

variable (prims : UserLevelPrimitive)

/-- `compileJoinExp`, from the compiled arguments. -/
def joinExp (isJoin : Bool) (resultTy : Ty) (arg1 arg2 : Exp) : Except Failure Tpexp := do
  let naturalJoin := ReifyUtils.monoVar (if isJoin then prims.naturalJoin else prims.extend)
  let term1 ← ReifyUtils.apply prims.eqTy (ReifyUtils.instVar prims.toReifiedTerm arg1.2) arg1
  let term2 ← ReifyUtils.apply prims.eqTy (ReifyUtils.instVar prims.toReifiedTerm arg2.2) arg2
  let joinedTerm ← ReifyUtils.apply prims.eqTy naturalJoin (← ReifyUtils.pair term1 term2)
  let exp ← ReifyUtils.apply prims.eqTy (ReifyUtils.instVar prims.reifiedTermToML resultTy)
    joinedTerm
  return exp.1

/-- The call of a library function on a dynamic value and a type, whose failure
is a type error at runtime. -/
def dynamicExp (exVarInfo : ExVarInfo) (instTyList : List Ty) (exp : Exp) (coerceTy : Ty) :
    Gen Tpexp := do
  let funExp ← ReifyUtils.instListVar exVarInfo instTyList
  let argExp ← ReifyUtils.pair exp (typeOf coerceTy)
  let body ← ReifyUtils.apply prims.eqTy funExp argExp
  handleAndReRaise prims.exnRuntimeTypeError body

/-- The call of a library function on a type only. -/
def typeExp (exVarInfo : ExVarInfo) (ty : Ty) : Except Failure Tpexp := do
  let funExp ← ReifyUtils.instListVar exVarInfo [ty]
  let exp ← ReifyUtils.apply prims.eqTy funExp (typeOf ty)
  return exp.1

def dynamicCaseExp (groupListTerm dynamicTerm : Exp) (elemTy ruleBodyTy : Ty) :
    Except Failure Tpexp := do
  let funExp ← ReifyUtils.instListVar prims.dynamicTypeCase [elemTy, ruleBodyTy]
  let exp ← ReifyUtils.applyList prims.eqTy funExp [dynamicTerm, groupListTerm]
  return exp.1

mutual

def compileExp : Tpexp → Gen Tpexp
  | .tpError => return .tpError
  | .tpConstant const ty => return .tpConstant const ty
  | .tpVar var => return .tpVar var
  | .tpExVar exVarInfo => return .tpExVar exVarInfo
  | .tpRecFunVar var arity => return .tpRecFunVar var arity
  | .tpFnM argVarList bodyTy bodyExp => do
      return .tpFnM argVarList bodyTy (← compileExp bodyExp)
  | .tpAppM funExp funTy argExpList => do
      return .tpAppM (← compileExp funExp) funTy (← compileExps argExpList)
  | .tpDataConstruct con instTyList argExpOpt => do
      return .tpDataConstruct con instTyList (← compileOption argExpOpt)
  | .tpExnConstruct exn argExpOpt => do
      return .tpExnConstruct exn (← compileOption argExpOpt)
  | .tpExnTag path ty id => return .tpExnTag path ty id
  | .tpExExnTag path ty => return .tpExExnTag path ty
  | .tpCaseM expList expTyList ruleList ruleBodyTy caseKind => do
      return .tpCaseM (← compileExps expList) expTyList (← compileRules ruleList) ruleBodyTy
        caseKind
  | .tpSwitch exp expTy ruleList defaultExp ruleBodyTy => do
      return .tpSwitch (← compileExp exp) expTy (← compileSwitchRules ruleList)
        (← compileExp defaultExp) ruleBodyTy
  | .tpCatch catchLabel tryExp argVarList catchExp resultTy => do
      return .tpCatch catchLabel (← compileExp tryExp) argVarList (← compileExp catchExp)
        resultTy
  | .tpThrow catchLabel argExpList resultTy => do
      return .tpThrow catchLabel (← compileExps argExpList) resultTy
  | .tpPrimApply primOp instTyList argExp => do
      return .tpPrimApply primOp instTyList (← compileExp argExp)
  | .tpOprimApply oprimOp instTyList argExp => do
      return .tpOprimApply oprimOp instTyList (← compileExp argExp)
  | .tpRecord fields recordTy => do
      return .tpRecord (← compileFields fields) recordTy
  | .tpSelect label exp expTy resultTy => do
      return .tpSelect label (← compileExp exp) expTy resultTy
  | .tpModify label recordExp recordTy elementExp elementTy => do
      return .tpModify label (← compileExp recordExp) recordTy (← compileExp elementExp)
        elementTy
  | .tpMonoLet binds bodyExp => do
      return .tpMonoLet (← compileBinds binds) (← compileExp bodyExp)
  | .tpLet decls body => do
      return .tpLet (← compileDecls decls) (← compileExp body)
  | .tpRaise exp ty => do
      return .tpRaise (← compileExp exp) ty
  | .tpHandle exp exnVar handler resultTy => do
      return .tpHandle (← compileExp exp) exnVar (← compileExp handler) resultTy
  | .tpPoly btvEnv constraints expTyWithoutTAbs exp => do
      return .tpPoly btvEnv constraints expTyWithoutTAbs (← compileExp exp)
  | .tpTApp exp expTy instTyList => do
      return .tpTApp (← compileExp exp) expTy instTyList
  | .tpForeignSymbol name ty => return .tpForeignSymbol name ty
  | .tpForeignApply funExp argExpList attributes resultTy => do
      return .tpForeignApply (← compileExp funExp) (← compileExps argExpList) attributes
        resultTy
  | .tpCallbackFn attributes argVarList bodyExp resultTy => do
      return .tpCallbackFn attributes argVarList (← compileExp bodyExp) resultTy
  | .tpCast exp expTy ty => do
      return .tpCast (← compileExp exp) expTy ty
  | .tpSizeOf ty => return .tpSizeOf ty
  | .tpReifyTy ty => return .tpReifyTy ty
  | .tpFFIImport (.tpFFIFun ptrExp ptrTy) ffiTy _ => do
      let ptrExp ← compileExp ptrExp
      importFFIFun (ptrExp, ptrTy) ffiTy
  | .tpFFIImport (.tpFFIExtern name) ffiTy _ => importFFIExtern name ffiTy
  | .tpJoin ty arg1 arg2 argTy1 argTy2 isJoin => do
      let exp1 ← compileExp arg1
      let exp2 ← compileExp arg2
      let exp ← joinExp prims isJoin ty (exp1, argTy1) (exp2, argTy2)
      if isJoin then handleAndReRaise prims.exnNaturalJoin (exp, ty) else return exp
  | .tpDynamic exp ty elemTy coerceTy =>
    dynamicExp prims prims.coerceTermGeneric [elemTy, coerceTy] (exp, ty) coerceTy
  | .tpDynamicIs exp ty elemTy coerceTy =>
    dynamicExp prims prims.checkTermGeneric [elemTy] (exp, ty) coerceTy
  | .tpDynamicView exp ty elemTy coerceTy =>
    dynamicExp prims prims.viewTermGeneric [elemTy, coerceTy] (exp, ty) coerceTy
  | .tpDynamicNull ty _ => typeExp prims prims.null ty
  | .tpDynamicTop ty _ => typeExp prims prims.void ty
  | .tpDynamicCase groupListTerm groupListTy dynamicTerm dynamicTy elemTy ruleBodyTy => do
      let groupListTerm ← compileExp groupListTerm
      let dynamicTerm ← compileExp dynamicTerm
      dynamicCaseExp prims (groupListTerm, groupListTy) (dynamicTerm, dynamicTy) elemTy
        ruleBodyTy
  | .tpDynamicExistTApp existInstMap exp expTy instTyList => do
      return .tpDynamicExistTApp (← compileExp existInstMap) (← compileExp exp) expTy instTyList

def compileExps : List Tpexp → Gen (List Tpexp)
  | [] => return []
  | exp :: exps => do return (← compileExp exp) :: (← compileExps exps)

def compileOption : Option Tpexp → Gen (Option Tpexp)
  | none => return none
  | some exp => do return some (← compileExp exp)

def compileFields : List (Label × Tpexp) → Gen (List (Label × Tpexp))
  | [] => return []
  | (label, exp) :: fields => do return (label, ← compileExp exp) :: (← compileFields fields)

def compileBinds : List (VarInfo × Tpexp) → Gen (List (VarInfo × Tpexp))
  | [] => return []
  | (var, exp) :: binds => do return (var, ← compileExp exp) :: (← compileBinds binds)

def compileRules : List (List Tppat × Tpexp) → Gen (List (List Tppat × Tpexp))
  | [] => return []
  | (args, body) :: rules => do return (args, ← compileExp body) :: (← compileRules rules)

def compileConstRules : List (ConstCase × Tpexp) → Gen (List (ConstCase × Tpexp))
  | [] => return []
  | (rule, body) :: rules => do return (rule, ← compileExp body) :: (← compileConstRules rules)

def compileConRules : List (ConCase × Tpexp) → Gen (List (ConCase × Tpexp))
  | [] => return []
  | (rule, body) :: rules => do return (rule, ← compileExp body) :: (← compileConRules rules)

def compileExnRules : List (ExnCase × Tpexp) → Gen (List (ExnCase × Tpexp))
  | [] => return []
  | (rule, body) :: rules => do return (rule, ← compileExp body) :: (← compileExnRules rules)

def compileSwitchRules : SwitchRules → Gen SwitchRules
  | .constCase rules => do return .constCase (← compileConstRules rules)
  | .conCase rules => do return .conCase (← compileConRules rules)
  | .exnCase rules => do return .exnCase (← compileExnRules rules)

def compileFunBinds : List (FunBind × List (List Tppat × Tpexp)) →
    Gen (List (FunBind × List (List Tppat × Tpexp)))
  | [] => return []
  | (bind, rules) :: binds => do
      return (bind, ← compileRules rules) :: (← compileFunBinds binds)

def compileDecl : Tpdecl → Gen Tpdecl
  | .tpVal var exp => do return .tpVal var (← compileExp exp)
  | .tpFunDecl binds => do return .tpFunDecl (← compileFunBinds binds)
  | .tpPolyFunDecl btvEnv constraints recbinds => do
      return .tpPolyFunDecl btvEnv constraints (← compileFunBinds recbinds)
  | .tpValRec binds => do return .tpValRec (← compileBinds binds)
  | .tpValPolyRec btvEnv constraints recbinds => do
      return .tpValPolyRec btvEnv constraints (← compileBinds recbinds)
  | .tpExd path ty id => return .tpExd path ty id
  | .tpExnTagd path ty id varInfo => return .tpExnTagd path ty id varInfo
  | .tpExportVar var exp => do return .tpExportVar var (← compileExp exp)
  | .tpExportExn path ty id => return .tpExportExn path ty id
  | .tpExternVar var => return .tpExternVar var
  | .tpExternExn path ty => return .tpExternExn path ty
  | .tpBuiltinExn path ty => return .tpBuiltinExn path ty

def compileDecls : List Tpdecl → Gen (List Tpdecl)
  | [] => return []
  | decl :: decls => do return (← compileDecl decl) :: (← compileDecls decls)

end

/-- `compile` of a program. -/
def compile (decls : List Tpdecl) : Gen (List Tpdecl) := compileDecls prims decls

end

end SmlSharp.FFICompilation
