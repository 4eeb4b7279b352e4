/-
What it means that a stub converts between the values of the program and those
of the foreign side, position by position and label by label.
-/
import SmlSharp.FFICompilation.Semantics
import SmlSharp.FFICompilation.Labels

namespace SmlSharp.FFICompilation

open RecordLabel (Label)

/-- The one value that stands for several arguments or results. -/
def tupleVal : List Val → Val
  | [] => .unit
  | [value] => value
  | values => .record (tupleList values)

namespace TypedCalcCon

def tupleTy : List Ty → Except Failure Ty
  | [] => .ok unitTy
  | [ty] => .ok ty
  | tys => do return .recordTy (← tupleMap tys)

mutual

/-- The type at which the program sees a value of the foreign type. -/
def ffiStubTy : FfiTy → Except Failure Ty
  | .ffiBaseTy ty => .ok ty
  | .ffiFunTy _ argTys none retTys => do
      let argTys ← ffiStubTyList argTys
      let retTys ← ffiStubTyList retTys
      return .funMTy [← tupleTy (argTys ++ [])] (← tupleTy retTys)
  | .ffiFunTy _ argTys (some varTys) retTys => do
      let argTys ← ffiStubTyList argTys
      let varTys ← ffiStubTyList varTys
      let retTys ← ffiStubTyList retTys
      return .funMTy [← tupleTy (argTys ++ varTys)] (← tupleTy retTys)
  | .ffiRecordTy fields => do return .recordTy (← labelMapFromList (← ffiStubTyFields fields))

def ffiStubTyList : List FfiTy → Except Failure (List Ty)
  | [] => .ok []
  | ffity :: ffitys => do return (← ffiStubTy ffity) :: (← ffiStubTyList ffitys)

def ffiStubTyFields : List (Label × FfiTy) → Except Failure (List (Label × Ty))
  | [] => .ok []
  | (label, ffity) :: fields => do
      return (label, ← ffiStubTy ffity) :: (← ffiStubTyFields fields)

end

end TypedCalcCon

mutual

/-- The values of the program that have the records of the foreign type.  A
function or a value of a base type can be anything. -/
def Shaped : FfiTy → Val → Prop
  | .ffiBaseTy _, _ => True
  | .ffiFunTy .., _ => True
  | .ffiRecordTy fields, value =>
    ∃ entries, value = .record entries ∧ AscendingLabels (entries.map Prod.fst) ∧
      (entries.map Prod.fst).Perm (fields.map Prod.fst) ∧ ShapedFields fields value

def ShapedList : List FfiTy → List Val → Prop
  | [], [] => True
  | ffity :: ffitys, value :: values => Shaped ffity value ∧ ShapedList ffitys values
  | _, _ => False

def ShapedFields : List (Label × FfiTy) → Val → Prop
  | [], _ => True
  | (label, ffity) :: fields, value =>
    (∃ entry, value.field label = some entry ∧ Shaped ffity entry) ∧ ShapedFields fields value

end

/-- Where the boundary of a variadic argument list lies: the numbers of fixed and
variadic arguments, from the declared ones. -/
abbrev Cut := Nat → Nat → Nat × Nat

/-- The boundary is the declared one. -/
def declaredCut : Cut := fun fixed variadic => (fixed, variadic)

/-- The boundary that the stubs make: after as many arguments as the variadic part
has. -/
def stubCut : Cut := fun fixed variadic => (variadic, fixed)

/-- The type of a foreign function has this many fixed and variadic arguments. -/
def SplitsAt (funTy : Ty) (fixed : Nat) (variadic : Option Nat) : Prop :=
  ∃ argTyList varArgTyList resultTy attributes,
    funTy = .foreignFunPtrTy argTyList varArgTyList resultTy attributes ∧
    argTyList.length = fixed ∧ varArgTyList.map List.length = variadic

mutual

/-- The foreign side sees the value `foreign` in place of the value of the
program: the positions of a record are those of the declared fields, and a
function is a callback. -/
def Exported (cut : Cut) : FfiTy → Val → Val → Prop
  | .ffiBaseTy _, value, foreign => foreign = value
  | .ffiRecordTy fields, value, foreign =>
    ∃ entries, foreign = .record entries ∧
      ExportedFields cut fields value (entries.map Prod.snd)
  | .ffiFunTy _ argTys none retTys, value, foreign =>
    (∃ env argVarList bodyExp,
      foreign = .callback env argVarList bodyExp retTys.isEmpty) ∧
    ∀ foreigns, foreigns.length = argTys.length →
      ∃ args next, foreign.callBack foreigns = .call (.apply value [tupleVal args]) next ∧
        ImportedList cut argTys foreigns args ∧
        ∀ results, ShapedList retTys results →
          ∃ foreigns', next (tupleVal results) = .ret (tupleVal foreigns') ∧
            ExportedList cut retTys results foreigns'
  | .ffiFunTy _ _ (some _) _, _, _ => False

def ExportedList (cut : Cut) : List FfiTy → List Val → List Val → Prop
  | [], [], [] => True
  | ffity :: ffitys, value :: values, foreign :: foreigns =>
    Exported cut ffity value foreign ∧ ExportedList cut ffitys values foreigns
  | _, _, _ => False

def ExportedFields (cut : Cut) : List (Label × FfiTy) → Val → List Val → Prop
  | [], _, [] => True
  | (label, ffity) :: fields, value, foreign :: foreigns =>
    (∃ entry, value.field label = some entry ∧ Exported cut ffity entry foreign) ∧
      ExportedFields cut fields value foreigns
  | _, _, _ => False

/-- The program sees the value in place of the value `foreign`: a function takes
all arguments at once, and calls the foreign function with the fixed ones before
the variadic ones. -/
def Imported (cut : Cut) : FfiTy → Val → Val → Prop
  | .ffiBaseTy _, foreign, value => value = foreign
  | .ffiRecordTy _, _, _ => False
  | .ffiFunTy _ argTys none retTys, foreign, value =>
    ∀ args, ShapedList argTys args →
      ∃ funTy foreigns next,
        value.apply [tupleVal args] = .call (.foreignApply funTy foreign foreigns) next ∧
        SplitsAt funTy argTys.length none ∧
        ExportedList cut argTys args foreigns ∧
        ∀ results, results.length = retTys.length →
          ∃ values, next (tupleVal results) = .ret (tupleVal values) ∧
            ImportedList cut retTys results values
  | .ffiFunTy _ argTys (some varTys) retTys, foreign, value =>
    ∀ args varArgs, ShapedList argTys args → ShapedList varTys varArgs →
      ∃ funTy foreigns varForeigns next,
        value.apply [tupleVal (args ++ varArgs)] =
          .call (.foreignApply funTy foreign (foreigns ++ varForeigns)) next ∧
        SplitsAt funTy (cut argTys.length varTys.length).1
          (some (cut argTys.length varTys.length).2) ∧
        ExportedList cut argTys args foreigns ∧ ExportedList cut varTys varArgs varForeigns ∧
        ∀ results, results.length = retTys.length →
          ∃ values, next (tupleVal results) = .ret (tupleVal values) ∧
            ImportedList cut retTys results values

def ImportedList (cut : Cut) : List FfiTy → List Val → List Val → Prop
  | [], [], [] => True
  | ffity :: ffitys, foreign :: foreigns, value :: values =>
    Imported cut ffity foreign value ∧ ImportedList cut ffitys foreigns values
  | _, _, _ => False

end

/-- The expression is one that stands for a value, not a term that makes one. -/
def Refers : Tpexp → Prop
  | .tpVar _ => True
  | .tpSelect .. => True
  | .tpForeignSymbol .. => True
  | .tpPrimApply .. => True
  | _ => False

/-- The value of the expression, whatever the variables `lo ≤ id < hi` are. -/
def Reads (lo hi : Nat) (env : Env) (exp : Tpexp) (value : Val) : Prop :=
  ∀ env' : Env, (∀ id, id < lo ∨ hi ≤ id → env'.lookup id = env.lookup id) →
    eval env' exp = .ret value

/-- An operand of a stub: it stands for a value of the type it comes with. -/
def Operand (exp : Exp) (ty : Ty) : Prop :=
  Refers exp.1 ∧ expTy exp.1 = ty ∧ exp.2 = ty

/-- The stub `convert` of a type, whose variables are `lo ≤ id < hi`, converts a
value of the program to what the foreign side expects. -/
def ExportConverts (cut : Cut) (ffity : FfiTy) (lo hi : Nat) (ty : Ty) (convert : Stub) : Prop :=
  TypedCalcCon.ffiStubTy ffity = .ok ty ∧
  ∀ exp, Operand exp ty →
    ∃ exp', convert exp = .ok exp' ∧
      ∀ env value, Reads lo hi env exp.1 value → Shaped ffity value →
        ∃ foreign, eval env exp'.1 = .ret foreign ∧ Exported cut ffity value foreign

/-- The same for a value of the foreign side. -/
def ImportConverts (cut : Cut) (ffity : FfiTy) (lo hi : Nat) (ty : Ty) (convert : Stub) : Prop :=
  ∃ stubTy, TypedCalcCon.ffiStubTy ffity = .ok stubTy ∧
  ∀ exp, Operand exp ty →
    ∃ exp', convert exp = .ok exp' ∧ exp'.2 = stubTy ∧
      ∀ env foreign, Reads lo hi env exp.1 foreign →
        ∃ value, eval env exp'.1 = .ret value ∧ Imported cut ffity foreign value

/-- The stub of a type is built and converts the values of the type. -/
def StubExports (cut : Cut) (ffity : FfiTy) : Prop :=
  ∀ lo, ∃ ty convert hi, stubExport ffity lo = .ok ((ty, convert), hi) ∧
    ExportConverts cut ffity lo hi ty convert

def StubImports (cut : Cut) (ffity : FfiTy) : Prop :=
  ∀ lo, ∃ ty convert hi, stubImport ffity lo = .ok ((ty, convert), hi) ∧
    ImportConverts cut ffity lo hi ty convert

mutual

/-- What type inference lets through in each direction. -/
def ExportAccepted : FfiTy → Prop
  | .ffiBaseTy _ => True
  | .ffiRecordTy fields => (fields.map Prod.fst).Nodup ∧ ExportAcceptedFields fields
  | .ffiFunTy _ argTys none retTys =>
    ImportAcceptedList argTys ∧ ExportAcceptedList retTys ∧ retTys.length ≤ 1
  | .ffiFunTy _ _ (some _) _ => False

def ExportAcceptedList : List FfiTy → Prop
  | [] => True
  | ffity :: ffitys => ExportAccepted ffity ∧ ExportAcceptedList ffitys

def ExportAcceptedFields : List (Label × FfiTy) → Prop
  | [] => True
  | (_, ffity) :: fields => ExportAccepted ffity ∧ ExportAcceptedFields fields

def ImportAccepted : FfiTy → Prop
  | .ffiBaseTy _ => True
  | .ffiRecordTy _ => False
  | .ffiFunTy _ argTys none retTys =>
    ExportAcceptedList argTys ∧ ImportAcceptedList retTys ∧ retTys.length ≤ 1
  | .ffiFunTy _ argTys (some varTys) retTys =>
    ExportAcceptedList argTys ∧ ExportAcceptedList varTys ∧ ImportAcceptedList retTys ∧
      retTys.length ≤ 1

def ImportAcceptedList : List FfiTy → Prop
  | [] => True
  | ffity :: ffitys => ImportAccepted ffity ∧ ImportAcceptedList ffitys

end

mutual

/-- The labels of every record are declared in their order. -/
def InOrder : FfiTy → Prop
  | .ffiBaseTy _ => True
  | .ffiRecordTy fields => AscendingLabels (fields.map Prod.fst) ∧ InOrderFields fields
  | .ffiFunTy _ argTys none retTys => InOrderList argTys ∧ InOrderList retTys
  | .ffiFunTy _ argTys (some varTys) retTys =>
    InOrderList argTys ∧ InOrderList varTys ∧ InOrderList retTys

def InOrderList : List FfiTy → Prop
  | [] => True
  | ffity :: ffitys => InOrder ffity ∧ InOrderList ffitys

def InOrderFields : List (Label × FfiTy) → Prop
  | [] => True
  | (_, ffity) :: fields => InOrder ffity ∧ InOrderFields fields

end

mutual

/-- The two parts of every argument list with a variadic part are equally long. -/
def Halved : FfiTy → Prop
  | .ffiBaseTy _ => True
  | .ffiRecordTy fields => HalvedFields fields
  | .ffiFunTy _ argTys none retTys => HalvedList argTys ∧ HalvedList retTys
  | .ffiFunTy _ argTys (some varTys) retTys =>
    HalvedList argTys ∧ HalvedList varTys ∧ HalvedList retTys ∧
      varTys.length = argTys.length

def HalvedList : List FfiTy → Prop
  | [] => True
  | ffity :: ffitys => Halved ffity ∧ HalvedList ffitys

def HalvedFields : List (Label × FfiTy) → Prop
  | [] => True
  | (_, ffity) :: fields => Halved ffity ∧ HalvedFields fields

end

end SmlSharp.FFICompilation
