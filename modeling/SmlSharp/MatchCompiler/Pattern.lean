/-
The patterns of the match compiler: the typed patterns of a case expression and
the normalised patterns that the decision trees are built from.
-/
import Mathlib.Data.List.Basic

namespace SmlSharp

namespace MatchCompiler

inductive Const where
  | int (n : Int)
  | word (n : Int)
  | string (s : String)
  | real (s : String)
  | char (c : Char)
  | unitConst
deriving DecidableEq

variable {τ : Type}

/-- The types of the compiler as the match compiler looks at them: at the root
of a dereferenced type, with the kinds of its bound variables at hand. -/
inductive TyView (τ : Type) where
  | construct (conSet : List String)
  | funM (args : List τ) (ret : τ)
  | poly (body : τ)
  | record (fields : List (String × τ))
  | recordKind (fields : List (String × τ))
  | boundVar (name : String)
  | other (name : String)

structure Types (τ : Type) where
  view : τ → TyView τ
  unitTy : τ

structure VarInfo (τ : Type) where
  path : List String
  ty : τ
  id : Nat

structure ConInfo (τ : Type) where
  path : List String
  ty : τ
  id : Nat

inductive ExnCon (τ : Type) where
  | exn (path : List String) (ty : τ) (id : Nat)
  | exExn (path : List String) (ty : τ)

/-- What `ExnConOrd` compares: the id of an exception, or the path of an
external one. -/
inductive ExnKey where
  | exn (id : Nat)
  | exExn (path : List String)
deriving DecidableEq

def ExnCon.key : ExnCon τ → ExnKey
  | .exn _ _ id => .exn id
  | .exExn path _ => .exExn path

inductive Failure where
  | bug (message : String)
  | empty
  | outOfFuel
deriving DecidableEq

inductive Pat (τ : Type) where
  | wildPat (ty : τ)
  | varPat (x : VarInfo τ)
  | constPat (con : Const) (ty : τ)
  | dataConPat (con : ConInfo τ) (instTyList : Option (List τ)) (hasArg : Bool)
      (arg : Pat τ) (ty : τ)
  | exnConPat (exn : ExnCon τ) (hasArg : Bool) (arg : Pat τ) (ty : τ)
  | recPat (fields : List (String × Pat τ)) (ty : τ)
  | layerPat (left right : Pat τ)
  | orPat (left right : Pat τ)

/-- The typed patterns of a rule. -/
inductive TpPat (τ : Type) where
  | error (ty : τ)
  | wild (ty : τ)
  | var (x : VarInfo τ)
  | constant (con : Const) (ty : τ)
  | dataConstruct (con : ConInfo τ) (instTyList : Option (List τ)) (ty : τ)
  | dataConstructArg (con : ConInfo τ) (instTyList : Option (List τ))
      (arg : TpPat τ) (ty : τ)
  | exnConstruct (exn : ExnCon τ) (ty : τ)
  | exnConstructArg (exn : ExnCon τ) (arg : TpPat τ) (ty : τ)
  | record (fields : List (String × TpPat τ)) (ty : τ)
  | layered (varPat asPat : TpPat τ)

section Types

variable (T : Types τ)

/-- The fields of a record type, or of the record kind of a type variable. -/
def getFieldsOfTy (ty : τ) : Except Failure (List (String × τ)) :=
  match T.view ty with
  | .record fields => .ok fields
  | .recordKind fields => .ok fields
  | .boundVar name =>
    .error (.bug s!"getFieldsOfTy found invalid BTV({name})")
  | _ => .error (.bug "getFieldsOfTy found unexpected:")

/-- The number of constructors of the datatype that a constructor builds. -/
def getTagNums (con : ConInfo τ) : Except Failure Nat := do
  let conSet ← match T.view con.ty with
    | .funM _ ty =>
      match T.view ty with
      | .construct conSet => .ok conSet
      | _ => .error (.bug "MatchCompiler: Non conty in userdefined type")
    | .poly body =>
      match T.view body with
      | .funM _ ty =>
        match T.view ty with
        | .construct conSet => .ok conSet
        | _ => .error (.bug "MatchCompiler: Non conty in userdefined type")
      | .construct conSet => .ok conSet
      | _ => .error (.bug "MatchCompiler: Non conty in userdefined type")
    | .construct conSet => .ok conSet
    | _ => .error (.bug "MatchCompiler: Non conty in userdefined type")
  match conSet with
  | [] => .error (.bug "NON span field in userdefined type")
  | _ :: _ => .ok conSet.length

end Types

def getTyInPat : Pat τ → τ
  | .wildPat ty => ty
  | .varPat x => x.ty
  | .constPat _ ty => ty
  | .dataConPat _ _ _ _ ty => ty
  | .exnConPat _ _ _ ty => ty
  | .recPat _ ty => ty
  | .layerPat pat _ => getTyInPat pat
  | .orPat pat _ => getTyInPat pat

/-- The patterns of a record pattern for the fields its type has: a missing
field is a wildcard. -/
def augmentFields (pats : List (String × Pat τ)) (fields : List (String × τ)) :
    List (String × Pat τ) :=
  fields.map fun field =>
    (field.1, (pats.lookup field.1).getD (.wildPat field.2))

mutual

/-- Normalise a pattern: a variable that the body of the rule does not use is a
wildcard, and every record pattern lists all fields of its type. -/
def tppatToPat (T : Types τ) (FV : List Nat) :
    TpPat τ → Except Failure (Pat τ)
  | .error ty => .ok (.wildPat ty)
  | .wild ty => .ok (.wildPat ty)
  | .var x => .ok (if x.id ∈ FV then .varPat x else .wildPat x.ty)
  | .constant con ty =>
    .ok (if con = .unitConst then .wildPat ty else .constPat con ty)
  | .dataConstruct con instTyList ty =>
    .ok (.dataConPat con instTyList false (.wildPat T.unitTy) ty)
  | .dataConstructArg con instTyList arg ty => do
      let arg ← tppatToPat T FV arg
      .ok (.dataConPat con instTyList true arg ty)
  | .exnConstruct exn ty =>
    .ok (.exnConPat exn false (.wildPat T.unitTy) ty)
  | .exnConstructArg exn arg ty => do
      let arg ← tppatToPat T FV arg
      .ok (.exnConPat exn true arg ty)
  | .record patRows ty => do
      let expectedFields ← getFieldsOfTy T ty
      let pats ← fieldsToPats T FV (expectedFields.map Prod.fst) patRows
      .ok (.recPat (augmentFields pats expectedFields) ty)
  | .layered varPat asPat => do
      let pat ← tppatToPat T FV varPat
      let asPat ← tppatToPat T FV asPat
      match pat with
      | .varPat x => .ok (.layerPat (.varPat x) asPat)
      | _ => .ok asPat

def fieldsToPats (T : Types τ) (FV : List Nat) (labels : List String) :
    List (String × TpPat τ) → Except Failure (List (String × Pat τ))
  | [] => .ok []
  | (label, pat) :: rest =>
    if label ∈ labels then do
      let pat ← tppatToPat T FV pat
      let rest ← fieldsToPats T FV labels rest
      .ok ((label, pat) :: rest)
    else fieldsToPats T FV labels rest

end

end MatchCompiler

end SmlSharp
