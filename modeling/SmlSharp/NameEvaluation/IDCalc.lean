/-
The types of the identifier calculus: type functions are mutable cells, and a
cell that has been shared or realised refers to another type function.
-/
import Mathlib.Logic.Function.Basic

namespace SmlSharp.NameEvaluation

abbrev TypId := Nat

abbrev TvarId := Nat

/-- The address of a `tfunkind ref`. -/
abbrev Tfv := Nat

abbrev Longsymbol := List String

structure Tvar where
  id : TvarId
  lifted : Bool
deriving DecidableEq, Repr

abbrev Formals := List Tvar

structure KindPropertyList where
  reify : Bool
  boxed : Bool
  unboxed : Bool
  eq : Bool
deriving DecidableEq, Repr

mutual

inductive Ty where
  | tyWild
  | tyError
  | tyVar (tvar : Tvar)
  | tyFreeTyvar (id : TvarId)
  | tyRecord (ifFlex : Bool) (fields : List (String × Ty))
  | tyConstruct (tfun : Tfun) (args : List Ty)
  | tyFunM (tyList : List Ty) (ty : Ty)
  | tyPoly (kindedTvarList : List (Tvar × TvarKind)) (ty : Ty)
  | inferredTy

inductive TvarKind where
  | univ (properties : KindPropertyList)
  | recKind (properties : KindPropertyList) (recordKind : List (String × Ty))

/-- Type functions: a type-level lambda term, or a type name. -/
inductive Tfun where
  | tfunDef (admitsEq : Bool) (formals : Formals) (realizerTy : Ty)
  | tfunVar (tfv : Tfv)

end

abbrev ConSpec := List (String × Option Ty)

inductive DtyKind where
  | funparam
  | dty
  | dtyInterface
  | opaqueKind (tfun : Tfun)
  | interface (tfun : Tfun)

/-- The contents of a cell. -/
inductive Tfunkind where
  | tfunDty (id : TypId) (admitsEq : Bool) (formals : Formals) (conSpec : ConSpec)
      (liftedTys : List Tvar) (dtyKind : DtyKind)
  | tfvSpec (id : TypId) (admitsEq : Bool) (formals : Formals)
  | tfvDty (id : TypId) (admitsEq : Bool) (formals : Formals) (conSpec : ConSpec)
      (liftedTys : List Tvar)
  | realized (id : TypId) (tfun : Tfun)
  | instantiated (tfunkind : Tfunkind) (tfun : Tfun)
  | funDty (tfun : Tfun)

abbrev Heap := Tfv → Tfunkind

inductive Failure where
  /-- The source does not return within the number of calls granted. -/
  | diverges
  | bug
  | rigid
  | undef
  /-- A user error is reported and the rest of the sharing is skipped. -/
  | processShare
deriving DecidableEq, Repr

def tfunFormals (heap : Heap) : Nat → Tfun → Except Failure Formals
  | 0, _ => .error .diverges
  | _ + 1, .tfunDef _ formals _ => .ok formals
  | fuel + 1, .tfunVar tfv =>
    match heap tfv with
    | .tfvSpec _ _ formals => .ok formals
    | .tfvDty _ _ formals _ _ => .ok formals
    | .tfunDty _ _ formals _ _ _ => .ok formals
    | .realized _ tfun => tfunFormals heap fuel tfun
    | .instantiated _ tfun => tfunFormals heap fuel tfun
    | .funDty tfun => tfunFormals heap fuel tfun

def tfunArity (heap : Heap) (fuel : Nat) (tfun : Tfun) : Except Failure Nat :=
  return (← tfunFormals heap fuel tfun).length

def tfunAdmitsEq (heap : Heap) : Nat → Tfun → Except Failure Bool
  | 0, _ => .error .diverges
  | _ + 1, .tfunDef admitsEq _ _ => .ok admitsEq
  | fuel + 1, .tfunVar tfv =>
    match heap tfv with
    | .tfvSpec _ admitsEq _ => .ok admitsEq
    | .tfunDty _ admitsEq _ _ _ _ => .ok admitsEq
    | .tfvDty _ admitsEq _ _ _ => .ok admitsEq
    | .realized _ tfun => tfunAdmitsEq heap fuel tfun
    | .instantiated _ tfun => tfunAdmitsEq heap fuel tfun
    | .funDty tfun => tfunAdmitsEq heap fuel tfun

def pruneTfun (heap : Heap) : Nat → Tfun → Except Failure Tfun
  | 0, _ => .error .diverges
  | _ + 1, .tfunDef admitsEq formals realizerTy => .ok (.tfunDef admitsEq formals realizerTy)
  | fuel + 1, .tfunVar tfv =>
    match heap tfv with
    | .realized _ tfun => pruneTfun heap fuel tfun
    | .instantiated _ tfun => pruneTfun heap fuel tfun
    | _ => .ok (.tfunVar tfv)

def derefTfun (heap : Heap) : Nat → Tfun → Except Failure Tfun
  | 0, _ => .error .diverges
  | _ + 1, .tfunDef admitsEq formals realizerTy => .ok (.tfunDef admitsEq formals realizerTy)
  | fuel + 1, .tfunVar tfv =>
    match heap tfv with
    | .realized _ tfun => derefTfun heap fuel tfun
    | _ => .ok (.tfunVar tfv)

/-- `tfvId` of the evaluation of signatures, which looks through realised
cells. -/
def tfvId (heap : Heap) : Nat → Tfv → Except Failure TypId
  | 0, _ => .error .diverges
  | fuel + 1, tfv =>
    match heap tfv with
    | .tfvSpec id _ _ => .ok id
    | .tfvDty id _ _ _ _ => .ok id
    | .tfunDty id _ _ _ _ _ => .ok id
    | .realized _ (.tfunVar tfv') => tfvId heap fuel tfv'
    | .realized _ (.tfunDef ..) => .error .bug
    | .instantiated _ (.tfunVar tfv') => tfvId heap fuel tfv'
    | .instantiated _ (.tfunDef ..) => .error .bug
    | .funDty _ => .error .bug

/-- The entries of type names in an environment. -/
inductive Tstr where
  | tstr (tfun : Tfun)
  | tstrDty (tfun : Tfun)

def Tstr.tfun : Tstr → Tfun
  | .tstr tfun => tfun
  | .tstrDty tfun => tfun

/-- The type and structure components of a name environment. -/
inductive Env where
  | env (tyE : List (String × Tstr)) (strE : List (String × Env))

def Env.tyE : Env → List (String × Tstr)
  | .env tyE _ => tyE

def Env.strE : Env → List (String × Env)
  | .env _ strE => strE

def findTstr (env : Env) : Longsymbol → Except Failure (Option Tstr)
  | [] => .error .bug
  | [symbol] => .ok (env.tyE.lookup symbol)
  | strsymbol :: path =>
    match env.strE.lookup strsymbol with
    | none => .ok none
    | some env => findTstr env path

def findStr (env : Env) : Longsymbol → Except Failure (Option Env)
  | [] => .error .bug
  | [symbol] => .ok (env.strE.lookup symbol)
  | strsymbol :: path =>
    match env.strE.lookup strsymbol with
    | none => .ok none
    | some env => findStr env path

end SmlSharp.NameEvaluation
