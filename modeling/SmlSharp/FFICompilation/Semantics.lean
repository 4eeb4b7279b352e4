/-
What the terms of stubs compute.  A function of the program or of the foreign
side is opaque: an application of a value is a call, whose answer is arbitrary.
-/
import SmlSharp.FFICompilation.Stub
import SmlSharp.Lib.Calls

namespace SmlSharp.FFICompilation

open RecordLabel (Label)

/-- Values of both sides.  The entries of a record stand in the order of their
positions in memory. -/
inductive Val where
  | unit
  | atom (id : Nat)
  | foreignSymbol (name : String)
  | record (fields : List (Label × Val))
  | closure (env : List (Nat × Val)) (argVarList : List VarInfo) (bodyExp : Tpexp)
  | callback (env : List (Nat × Val)) (argVarList : List VarInfo) (bodyExp : Tpexp)
      (isVoid : Bool)

abbrev Env := List (Nat × Val)

inductive Call where
  | apply (funVal : Val) (args : List Val)
  /-- The pointer is called at the type `funTy`. -/
  | foreignApply (funTy : Ty) (funVal : Val) (args : List Val)

abbrev Run := Calls Call Val

def Val.field (label : Label) : Val → Option Val
  | .record fields => fields.lookup label
  | _ => none

/-- The type that a function expression has by itself. -/
def expTy : Tpexp → Ty
  | .tpVar var => var.ty
  | .tpForeignSymbol _ ty => ty
  | .tpSelect _ _ _ resultTy => resultTy
  | .tpPrimApply primOp _ _ =>
    match primOp.ty with
    | .funMTy [_] retTy => retTy
    | _ => .errorTy
  | _ => .errorTy

mutual

def eval (env : Env) : Tpexp → Run Val
  | .tpVar var => .ofOption (env.lookup var.id)
  | .tpConstant .unitConst _ => return .unit
  | .tpForeignSymbol name _ => return .foreignSymbol name
  | .tpPrimApply ⟨.cast .bitCast, _⟩ _ argExp => eval env argExp
  | .tpRecord fields _ => do return .record (← evalFields env fields)
  | .tpSelect label exp _ _ => do .ofOption ((← eval env exp).field label)
  | .tpFnM argVarList _ bodyExp => return .closure env argVarList bodyExp
  | .tpCallbackFn _ argVarList bodyExp resultTy =>
    return .callback env argVarList bodyExp resultTy.isNone
  | .tpAppM funExp _ argExpList => do
      let funVal ← eval env funExp
      let args ← evalList env argExpList
      .call (.apply funVal args) .ret
  | .tpForeignApply funExp argExpList _ _ => do
      let funVal ← eval env funExp
      let args ← evalList env argExpList
      .call (.foreignApply (expTy funExp) funVal args) .ret
  | .tpLet decls body => do eval (← evalDecls env decls) body
  | _ => .stuck

def evalList (env : Env) : List Tpexp → Run (List Val)
  | [] => return []
  | exp :: exps => do
      let value ← eval env exp
      return value :: (← evalList env exps)

def evalFields (env : Env) : List (Label × Tpexp) → Run (List (Label × Val))
  | [] => return []
  | (label, exp) :: fields => do
      let value ← eval env exp
      return (label, value) :: (← evalFields env fields)

def evalDecls (env : Env) : List Tpdecl → Run Env
  | [] => return env
  | decl :: decls => do evalDecls (← evalDecl env decl) decls

def evalDecl (env : Env) : Tpdecl → Run Env
  | .tpVal var exp => do return (var.id, ← eval env exp) :: env
  | _ => .stuck

end

/-- The variables bound to the arguments. -/
def enter (env : Env) (argVarList : List VarInfo) (args : List Val) : Run Env :=
  if argVarList.length = args.length then .ret ((argVarList.map VarInfo.id).zip args ++ env)
  else .stuck

/-- The program applies a function that a stub made. -/
def Val.apply (args : List Val) : Val → Run Val
  | .closure env argVarList bodyExp => do eval (← enter env argVarList args) bodyExp
  | _ => .stuck

/-- The foreign side calls a function that a stub made. -/
def Val.callBack (args : List Val) : Val → Run Val
  | .callback env argVarList bodyExp _ => do eval (← enter env argVarList args) bodyExp
  | _ => .stuck

end SmlSharp.FFICompilation
