/-
The stubs that convert between the values of the source language and those of
foreign functions.
-/
import SmlSharp.FFICompilation.TypedCalc

namespace SmlSharp.FFICompilation

open RecordLabel (Label)

def bitCast (exp : Exp) (ty2 : Ty) : Except Failure Exp :=
  TypedCalcCon.tpPrimApply ⟨.cast .bitCast, .funMTy [exp.2] ty2⟩ exp

def explodeRecord : Exp → Except Failure (List Exp)
  | (.tpRecord fields _, .recordTy tys) =>
    if fields.map Prod.fst = tys.map Prod.fst then
      .ok ((fields.map Prod.snd).zip (tys.map Prod.snd))
    else .error .bug
  | (exp, .recordTy tys) =>
    (tys.map Prod.fst).mapM fun label => TypedCalcCon.tpSelect (exp, .recordTy tys) label
  | _ => .error .bug

def implodeRecord (fields : List (Label × Exp)) : Except Failure Exp := do
  return TypedCalcCon.tpRecord (← labelMapFromList fields)

def unitExp : Exp := (.tpConstant .unitConst unitTy, unitTy)

def composeArg : List Exp → Except Failure Exp
  | [] => .ok unitExp
  | [exp] => .ok exp
  | exps => implodeRecord (tupleList exps)

def decomposeArg : List Ty → Gen (VarInfo × List Exp)
  | [] => do return (← newVar unitTy, [])
  | [ty] => do
      let v ← newVar ty
      return (v, [TypedCalcCon.tpVar v])
  | tys => do
      let var ← newVar (.recordTy (← tupleMap tys))
      return (var, ← explodeRecord (TypedCalcCon.tpVar var))

mutual

def hasFunTy : FfiTy → Bool
  | .ffiBaseTy _ => false
  | .ffiFunTy .. => true
  | .ffiRecordTy fields => hasFunTyFields fields

def hasFunTyFields : List (Label × FfiTy) → Bool
  | [] => false
  | (_, ty) :: fields => hasFunTy ty || hasFunTyFields fields

end

def hasSortedField {α : Type} : List (Label × α) → Bool
  | [] => true
  | [_] => true
  | (l1, _) :: (l2, v2) :: t =>
    RecordLabel.compare l1 l2 == .lt && hasSortedField ((l2, v2) :: t)

/-- A conversion of an expression. -/
abbrev Stub := Exp → Except Failure Exp

def zipApp : List Stub → List Exp → Except Failure (List Exp)
  | [], [] => .ok []
  | f :: ft, h :: t => do return (← f h) :: (← zipApp ft t)
  | _, _ => .error .bug

/-- `ListUtils.split`: the first `n` elements, and the others if there are `n`. -/
def split {α : Type} : List α → Nat → List α × Option (List α)
  | [], n => ([], if n > 0 then none else some [])
  | h :: l, 0 => ([], some (h :: l))
  | h :: l, n + 1 =>
    let (front, rest) := split l n
    (h :: front, rest)

/-- The stub of a callback, from those of its arguments and results. -/
def callbackStub (attributes : Attributes) (args : List (Ty × Stub))
    (stubRets : Gen (List (Ty × Stub))) : Gen (Ty × Stub) := do
  let ffiArgVars ← args.mapM fun arg => newVar arg.1
  let argExps ← zipApp (args.map Prod.snd) (ffiArgVars.map TypedCalcCon.tpVar)
  let argExp ← composeArg argExps
  let rets ← stubRets
  let (retVar, retExps) ← decomposeArg (rets.map Prod.fst)
  let ffiRetExps ← zipApp (rets.map Prod.snd) retExps
  let ffiRetExp ← composeArg ffiRetExps
  let isVoid := ffiRetExps.isEmpty
  return (.funMTy [argExp.2] retVar.ty, fun funExp => do
    let app ← TypedCalcCon.tpAppM funExp [argExp]
    return TypedCalcCon.tpCallbackFn attributes ffiArgVars
      (TypedCalcCon.tpLet [TypedCalcCon.tpVal retVar app] ffiRetExp) isVoid)

/-- The types of the fixed and of the variadic arguments of a foreign function;
`varTys` are the stubs of the variadic ones, if there can be some. -/
def splitArgTys (varTys : Option (List (Ty × Stub))) (ffiArgTys : List Ty) :
    List Ty × Option (List Ty) :=
  match varTys with
  | none => (ffiArgTys, none)
  | some argTys2 => split ffiArgTys argTys2.length

def resultTy : List Ty → Except Failure (Option Ty)
  | [] => .ok none
  | [ty] => .ok (some ty)
  | _ => .error .bug

/-- The stub of a foreign function, from those of its arguments and results. -/
def functionStub (attributes : Attributes) (args1 : List (Ty × Stub))
    (args2 : Option (List (Ty × Stub))) (stubRets : Gen (List (Ty × Stub))) :
    Gen (Ty × Stub) := do
  let varArgs := args2.getD []
  let stubArgTys := args1.map Prod.fst ++ varArgs.map Prod.fst
  let (argVar, argExps) ← decomposeArg stubArgTys
  let ffiArgExps ← zipApp (args1.map Prod.snd ++ varArgs.map Prod.snd) argExps
  let argTys := splitArgTys args2 (ffiArgExps.map Prod.snd)
  let rets ← stubRets
  let ffiRetTy ← resultTy (rets.map Prod.fst)
  let (ffiRetVar, ffiRetExps) ← decomposeArg (rets.map Prod.fst)
  let retExps ← zipApp (rets.map Prod.snd) ffiRetExps
  let retExp ← composeArg retExps
  return (.foreignFunPtrTy argTys.1 argTys.2 ffiRetTy attributes, fun funExp => do
    let app ← TypedCalcCon.tpForeignApply funExp ffiArgExps
    return TypedCalcCon.tpFnM [argVar]
      (TypedCalcCon.tpLet [TypedCalcCon.tpVal ffiRetVar app] retExp))

/-- The stub of a record, from those of its fields in their declared order. -/
def recordStub (ffity : FfiTy) (fields : List (Label × FfiTy)) (stubs : List (Ty × Stub)) :
    Gen (Ty × Stub) := do
  let retTys := (fields.map Prod.fst).zip (stubs.map Prod.fst)
  let retTy ← labelMapFromList retTys
  return (.recordTy retTy,
    if hasSortedField fields && !hasFunTy ffity then .ok
    else fun exp => do
      let exps ← explodeRecord exp
      implodeRecord (tupleList (← zipApp (stubs.map Prod.snd) exps)))

mutual

def stubExport : FfiTy → Gen (Ty × Stub)
  | .ffiBaseTy ty => return (ty, .ok)
  | .ffiRecordTy fields => do
      let stubs ← stubExportFields fields
      recordStub (.ffiRecordTy fields) fields stubs
  | .ffiFunTy attributes argTys none retTys => do
      let args ← stubImportList argTys
      callbackStub (attributes.getD defaultFFIAttributes) args (stubExportList retTys)
  | .ffiFunTy _ _ (some _) _ => throw .bug

def stubExportList : List FfiTy → Gen (List (Ty × Stub))
  | [] => return []
  | ffity :: ffitys => do return (← stubExport ffity) :: (← stubExportList ffitys)

def stubExportFields : List (Label × FfiTy) → Gen (List (Ty × Stub))
  | [] => return []
  | (_, ffity) :: fields => do return (← stubExport ffity) :: (← stubExportFields fields)

def stubImport : FfiTy → Gen (Ty × Stub)
  | .ffiBaseTy ty => return (ty, .ok)
  | .ffiRecordTy _ => throw .bug
  | .ffiFunTy attributes argTys none retTys => do
      let args1 ← stubExportList argTys
      functionStub (attributes.getD defaultFFIAttributes) args1 none (stubImportList retTys)
  | .ffiFunTy attributes argTys (some varTys) retTys => do
      let args1 ← stubExportList argTys
      let args2 ← stubExportList varTys
      functionStub (attributes.getD defaultFFIAttributes) args1 (some args2)
        (stubImportList retTys)

def stubImportList : List FfiTy → Gen (List (Ty × Stub))
  | [] => return []
  | ffity :: ffitys => do return (← stubImport ffity) :: (← stubImportList ffitys)

end

/-- What a stub of a callback is made of. -/
theorem callbackStub_ok {attributes : Attributes} {args : List (Ty × Stub)}
    {stubRets : Gen (List (Ty × Stub))} {result : Ty × Stub} {next next' : Nat}
    (h : callbackStub attributes args stubRets next = .ok (result, next')) :
    ∃ ffiArgVars next1 argExps argExp rets next2 retVar retExps ffiRetExps ffiRetExp,
      args.mapM (fun arg => newVar arg.1) next = .ok (ffiArgVars, next1) ∧
      zipApp (args.map Prod.snd) (ffiArgVars.map TypedCalcCon.tpVar) = .ok argExps ∧
      composeArg argExps = .ok argExp ∧
      stubRets next1 = .ok (rets, next2) ∧
      decomposeArg (rets.map Prod.fst) next2 = .ok ((retVar, retExps), next') ∧
      zipApp (rets.map Prod.snd) retExps = .ok ffiRetExps ∧
      composeArg ffiRetExps = .ok ffiRetExp ∧
      result = (.funMTy [argExp.2] retVar.ty, fun funExp => do
        let app ← TypedCalcCon.tpAppM funExp [argExp]
        return TypedCalcCon.tpCallbackFn attributes ffiArgVars
          (TypedCalcCon.tpLet [TypedCalcCon.tpVal retVar app] ffiRetExp)
          ffiRetExps.isEmpty) := by
  rw [callbackStub] at h
  obtain ⟨ffiArgVars, next1, hvars, h⟩ := stateT_bind_ok.1 h
  obtain ⟨argExps, hargExps, h⟩ := stateT_liftBind_ok.1 h
  obtain ⟨argExp, hargExp, h⟩ := stateT_liftBind_ok.1 h
  obtain ⟨rets, next2, hrets, h⟩ := stateT_bind_ok.1 h
  obtain ⟨⟨retVar, retExps⟩, next3, hdecompose, h⟩ := stateT_bind_ok.1 h
  obtain ⟨ffiRetExps, hffiRetExps, h⟩ := stateT_liftBind_ok.1 h
  obtain ⟨ffiRetExp, hffiRetExp, h⟩ := stateT_liftBind_ok.1 h
  cases h
  exact ⟨ffiArgVars, next1, argExps, argExp, rets, next2, retVar, retExps, ffiRetExps,
    ffiRetExp, hvars, hargExps, hargExp, hrets, hdecompose, hffiRetExps, hffiRetExp, rfl⟩

/-- What a stub of a foreign function is made of. -/
theorem functionStub_ok {attributes : Attributes} {args1 : List (Ty × Stub)}
    {args2 : Option (List (Ty × Stub))} {stubRets : Gen (List (Ty × Stub))}
    {result : Ty × Stub} {next next' : Nat}
    (h : functionStub attributes args1 args2 stubRets next = .ok (result, next')) :
    ∃ argVar argExps next1 ffiArgExps rets next2 ffiRetTy ffiRetVar ffiRetExps retExps retExp,
      decomposeArg (args1.map Prod.fst ++ (args2.getD []).map Prod.fst) next =
        .ok ((argVar, argExps), next1) ∧
      zipApp (args1.map Prod.snd ++ (args2.getD []).map Prod.snd) argExps = .ok ffiArgExps ∧
      stubRets next1 = .ok (rets, next2) ∧
      resultTy (rets.map Prod.fst) = .ok ffiRetTy ∧
      decomposeArg (rets.map Prod.fst) next2 = .ok ((ffiRetVar, ffiRetExps), next') ∧
      zipApp (rets.map Prod.snd) ffiRetExps = .ok retExps ∧
      composeArg retExps = .ok retExp ∧
      result = (.foreignFunPtrTy (splitArgTys args2 (ffiArgExps.map Prod.snd)).1
          (splitArgTys args2 (ffiArgExps.map Prod.snd)).2 ffiRetTy attributes,
        fun funExp => do
          let app ← TypedCalcCon.tpForeignApply funExp ffiArgExps
          return TypedCalcCon.tpFnM [argVar]
            (TypedCalcCon.tpLet [TypedCalcCon.tpVal ffiRetVar app] retExp)) := by
  rw [functionStub] at h
  obtain ⟨⟨argVar, argExps⟩, next1, hdecompose, h⟩ := stateT_bind_ok.1 h
  obtain ⟨ffiArgExps, hffiArgExps, h⟩ := stateT_liftBind_ok.1 h
  obtain ⟨rets, next2, hrets, h⟩ := stateT_bind_ok.1 h
  obtain ⟨ffiRetTy, hretTy, h⟩ := stateT_liftBind_ok.1 h
  obtain ⟨⟨ffiRetVar, ffiRetExps⟩, next3, hdecompose', h⟩ := stateT_bind_ok.1 h
  obtain ⟨retExps, hretExps, h⟩ := stateT_liftBind_ok.1 h
  obtain ⟨retExp, hretExp, h⟩ := stateT_liftBind_ok.1 h
  cases h
  exact ⟨argVar, argExps, next1, ffiArgExps, rets, next2, ffiRetTy, ffiRetVar, ffiRetExps,
    retExps, retExp, hdecompose, hffiArgExps, hrets, hretTy, hdecompose', hretExps, hretExp, rfl⟩

end SmlSharp.FFICompilation
