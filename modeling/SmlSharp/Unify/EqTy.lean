/-
The equality of types that the type checker decides.
-/
import SmlSharp.TypesBasics.Syntax
import SmlSharp.FFICompilation.TypedCalc

namespace SmlSharp

namespace Unify

open TypesBasics (Properties)
open FFICompilation (Attributes)

/-! ### Types

There are no unresolved type variables, dummy types, existential types and error
types here. -/

mutual

inductive Ty where
  | singletonTy (sty : SingletonTy)
  | backendTy (bty : BackendTy)
  /-- A type variable that has been resolved. -/
  | tyvarTy (substituted : Ty)
  | boundvarTy (bid : Nat)
  | funmTy (tyList : List Ty) (ty : Ty)
  /-- The fields in the order of their labels. -/
  | recordTy (tyMap : List (String × Ty))
  | constructTy (tyConId : Nat) (args : List Ty)
  /-- The bound variables in the order of their identifiers. -/
  | polyTy (boundtvars : List (Nat × Kind)) (constraints : List Constraint) (body : Ty)

inductive Kind where
  | kind (properties : Properties) (tvarKind : TvarKind)

inductive TvarKind where
  | oconstKind (tyList : List Ty)
  | oprimKind (instances : List Ty) (operators : List OprimSelector)
  | univ
  | record (tyMap : List (String × Ty))

inductive OprimSelector where
  | selector (oprimId : Nat) (longsymbol : String) (overload : OverloadMatch)

inductive OverloadMatch where
  | overloadExvar (path : String) (instTyList : Option (List Ty))
  | overloadPrim (primitive : String) (instTyList : Option (List Ty))
  /-- The rules in the order of their type constructors. -/
  | overloadCase (ty : Ty) (rules : List (Nat × OverloadMatch))

inductive SingletonTy where
  | instcodeTy (selector : OprimSelector)
  | indexTy (label : String) (ty : Ty)
  | tagTy (ty : Ty)
  | sizeTy (ty : Ty)
  | reifyTy (ty : Ty)

inductive BackendTy where
  | recordSizeTy (ty : Ty)
  | recordBitmapTy (n : Int) (ty : Ty)
  | recordBitmapIndexTy (n : Int) (ty : Ty)
  | foreignFunPtrTy (argTyList : List Ty) (varArgTyList : Option (List Ty))
      (resultTy : Option Ty) (attributes : Attributes)
  | cconvTagTy
  | funEntryTy
  | callbackEntryTy
  | someFunEntryTy
  | someFunWrapperTy
  | someClosureEnvTy
  | someCconvTagTy

inductive Constraint where
  | join (res arg1 arg2 : Ty)

end

def derefTy : Ty → Ty
  | .tyvarTy ty => derefTy ty
  | ty => ty

/-! ### Equality -/

inductive Exn where
  | bug (message : String)
deriving DecidableEq

abbrev Result := Except Exn Bool

def andalso (left right : Result) : Result := do
  if ← left then right else return false

/-- `eqTyList` and `eqOprimSelectorList`, from the result for the pairs. -/
def eqList {α : Type} (list1 list2 : List α) (pairs : Result) : Result :=
  if list1.length = list2.length then pairs else .ok false

/-- The bound variables of the first type with those of the second one, the latest
first. -/
abbrev BtvEquiv := List (Nat × Nat)

def btvEq (btvEquiv : BtvEquiv) (id1 id2 : Nat) : Bool :=
  id1 == id2 ||
    match btvEquiv.lookup id1 with
    | some id11 => id11 == id2
    | none =>
      match btvEquiv.lookup id2 with
      | some id21 => id1 == id21
      | none => false

def btvMap (btvEquiv : BtvEquiv) (idkindPairs1 idkindPairs2 : List (Nat × Kind)) : BtvEquiv :=
  (List.zip idkindPairs1 idkindPairs2).foldl (fun btvMap ((i1, _), (i2, _)) => (i1, i2) :: btvMap)
    btvEquiv

mutual

def eqTy (btvEquiv : BtvEquiv) (ty1 ty2 : Ty) : Result :=
  match ty1, derefTy ty2 with
  | .tyvarTy ty1, ty2 => eqTy btvEquiv ty1 ty2
  | .boundvarTy bid1, .boundvarTy bid2 => .ok (btvEq btvEquiv bid1 bid2)
  | .singletonTy sty1, .singletonTy sty2 => eqSTy btvEquiv sty1 sty2
  | .backendTy bty1, .backendTy bty2 => eqBTy btvEquiv bty1 bty2
  | .polyTy btv1 _ body1, .polyTy btv2 _ body2 =>
    if btv1.length = btv2.length then
      andalso (eqKindPairs (btvMap btvEquiv btv1 btv2) btv1 btv2)
        (eqTy (btvMap btvEquiv btv1 btv2) body1 body2)
    else .ok false
  | .funmTy tyList1 ty1, .funmTy tyList2 ty2 =>
    andalso (eqList tyList1 tyList2 (eqTyPairs btvEquiv tyList1 tyList2)) (eqTy btvEquiv ty1 ty2)
  | .recordTy tyMap1, .recordTy tyMap2 => eqTyFields btvEquiv tyMap1 tyMap2
  | .constructTy tyCon1 args1, .constructTy tyCon2 args2 =>
    if tyCon1 = tyCon2 then eqList args1 args2 (eqTyPairs btvEquiv args1 args2) else .ok false
  | _, _ => .ok false
termination_by structural ty1

def eqTyFields (btvEquiv : BtvEquiv) : List (String × Ty) → List (String × Ty) → Result
  | [], [] => .ok true
  | (l1, ty1) :: tl1, (l2, ty2) :: tl2 =>
    if l1 = l2 then andalso (eqTy btvEquiv ty1 ty2) (eqTyFields btvEquiv tl1 tl2)
    else .ok false
  | _ :: _, [] => .ok false
  | [], _ :: _ => .ok false
termination_by structural x => x

/-- The pairs of types that `eqTyList` compares. -/
def eqTyPairs (btvEquiv : BtvEquiv) : List Ty → List Ty → Result
  | ty1 :: tyList1, ty2 :: tyList2 =>
    andalso (eqTy btvEquiv ty1 ty2) (eqTyPairs btvEquiv tyList1 tyList2)
  | _, _ => .ok true
termination_by structural x => x

def eqTyListOpt (btvEquiv : BtvEquiv) : Option (List Ty) → Option (List Ty) → Result
  | none, none => .ok true
  | none, some _ => .ok false
  | some _, none => .ok false
  | some l1, some l2 => eqList l1 l2 (eqTyPairs btvEquiv l1 l2)
termination_by structural x => x

def eqSTy (btvEquiv : BtvEquiv) : SingletonTy → SingletonTy → Result
  | .instcodeTy selector1, .instcodeTy selector2 => eqOprimSelector btvEquiv selector1 selector2
  | .indexTy label1 ty1, .indexTy label2 ty2 =>
    if label1 = label2 then eqTy btvEquiv ty1 ty2 else .ok false
  | .tagTy ty1, .tagTy ty2 => eqTy btvEquiv ty1 ty2
  | .sizeTy ty1, .sizeTy ty2 => eqTy btvEquiv ty1 ty2
  | .reifyTy ty1, .reifyTy ty2 => eqTy btvEquiv ty1 ty2
  | _, _ => .ok false
termination_by structural x => x

def eqOprimSelector (btvEquiv : BtvEquiv) : OprimSelector → OprimSelector → Result
  | .selector id1 longsymbol1 m1, .selector id2 longsymbol2 m2 =>
    if id1 = id2 ∧ longsymbol1 = longsymbol2 then eqOverloadMatch btvEquiv m1 m2
    else .ok false
termination_by structural x => x

def eqOverloadMatch (btvEquiv : BtvEquiv) : OverloadMatch → OverloadMatch → Result
  | .overloadCase ty1 matches1, .overloadCase ty2 matches2 =>
    andalso (eqTy btvEquiv ty1 ty2)
      (if matches1.map Prod.fst = matches2.map Prod.fst then
        eqRules btvEquiv matches1 matches2
      else .ok false)
  | .overloadExvar path1 i1, .overloadExvar path2 i2 =>
    if path1 = path2 then eqTyListOpt btvEquiv i1 i2 else .ok false
  | .overloadPrim p1 i1, .overloadPrim p2 i2 =>
    if p1 = p2 then eqTyListOpt btvEquiv i1 i2 else .ok false
  | _, _ => .ok false
termination_by structural x => x

/-- The rules for the same type constructors. -/
def eqRules (btvEquiv : BtvEquiv) :
    List (Nat × OverloadMatch) → List (Nat × OverloadMatch) → Result
  | (_, m1) :: matches1, (_, m2) :: matches2 =>
    andalso (eqOverloadMatch btvEquiv m1 m2) (eqRules btvEquiv matches1 matches2)
  | _, _ => .ok true
termination_by structural x => x

/-- The pairs of operators that `eqOprimSelectorList` compares. -/
def eqOprimSelectorPairs (btvEquiv : BtvEquiv) :
    List OprimSelector → List OprimSelector → Result
  | op1 :: opList1, op2 :: opList2 =>
    andalso (eqOprimSelector btvEquiv op1 op2) (eqOprimSelectorPairs btvEquiv opList1 opList2)
  | _, _ => .ok true
termination_by structural x => x

def eqKind (btvEquiv : BtvEquiv) : Kind → Kind → Result
  | .kind prop1 tvK1, .kind prop2 tvK2 =>
    if prop1 = prop2 then eqTvarKind btvEquiv tvK1 tvK2 else .ok false
termination_by structural x => x

/-- The kinds of the bound variables. -/
def eqKindPairs (btvEquiv : BtvEquiv) : List (Nat × Kind) → List (Nat × Kind) → Result
  | (_, kind1) :: btv1, (_, kind2) :: btv2 =>
    andalso (eqKind btvEquiv kind1 kind2) (eqKindPairs btvEquiv btv1 btv2)
  | _, _ => .ok true
termination_by structural x => x

def eqTvarKind (btvEquiv : BtvEquiv) : TvarKind → TvarKind → Result
  | .oconstKind tyL1, .oconstKind tyL2 => eqList tyL1 tyL2 (eqTyPairs btvEquiv tyL1 tyL2)
  | .oprimKind tyL1 opL1, .oprimKind tyL2 opL2 =>
    andalso (eqList tyL1 tyL2 (eqTyPairs btvEquiv tyL1 tyL2))
      (eqList opL1 opL2 (eqOprimSelectorPairs btvEquiv opL1 opL2))
  | .univ, .univ => .ok true
  | .record smap1, .record smap2 => eqTyFields btvEquiv smap1 smap2
  | _, _ => .ok false
termination_by structural x => x

def eqTyOpt (btvEquiv : BtvEquiv) : Option Ty → Option Ty → Result
  | none, none => .ok true
  | some _, none => .ok false
  | none, some _ => .ok false
  | some ty1, some ty2 => eqTy btvEquiv ty1 ty2
termination_by structural x => x

def eqBTy (btvEquiv : BtvEquiv) (bty1 bty2 : BackendTy) : Result :=
  match bty1, bty2 with
  | .recordSizeTy ty1, .recordSizeTy ty2 => eqTy btvEquiv ty1 ty2
  | .recordSizeTy _, _ => .ok false
  | .recordBitmapTy n1 ty1, .recordBitmapTy n2 ty2 =>
    if n1 = n2 then eqTy btvEquiv ty1 ty2 else .ok false
  | .recordBitmapTy _ _, _ => .ok false
  | .recordBitmapIndexTy n1 ty1, .recordBitmapIndexTy n2 ty2 =>
    if n1 = n2 then eqTy btvEquiv ty1 ty2 else .ok false
  | .recordBitmapIndexTy _ _, _ => .ok false
  | .foreignFunPtrTy a1 v1 r1 t1, .foreignFunPtrTy a2 v2 r2 t2 =>
    andalso (eqList a1 a2 (eqTyPairs btvEquiv a1 a2))
      (andalso (eqTyListOpt btvEquiv v1 v2)
        (andalso (eqTyOpt btvEquiv r1 r2) (.ok (t1 = t2))))
  | .foreignFunPtrTy _ _ _ _, _ => .ok false
  | .cconvTagTy, _ => .error (.bug "eqBTy: CCONVTAGty")
  | .funEntryTy, _ => .error (.bug "eqBTy: FUNENTRYty")
  | .callbackEntryTy, _ => .error (.bug "eqBTy: CALLBACKENTRYty")
  | .someFunEntryTy, _ => .error (.bug "eqBTy: SOME_FUNENTRYty")
  | .someFunWrapperTy, _ => .error (.bug "eqBTy: SOME_FUNWRAPPERty")
  | .someClosureEnvTy, _ => .error (.bug "eqBTy: SOME_CLOSUREENVty")
  | .someCconvTagTy, _ => .error (.bug "eqBTy: SOME_CCONVTAGty")
termination_by structural bty1

end

end Unify

end SmlSharp
