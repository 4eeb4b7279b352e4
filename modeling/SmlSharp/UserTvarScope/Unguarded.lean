/-
The implicit scoping of user type variables: the unguarded occurrences of a
`val` or `fun` declaration, and the binders that enclose it.
-/
import SmlSharp.UserTvarScope.Syntax
import Mathlib.Data.Set.Basic
import Mathlib.Data.Set.Lattice
import Mathlib.Order.BooleanAlgebra.Set
import Mathlib.Order.CompletePartialOrder

namespace SmlSharp

namespace UserTvarScope

open WithType (Tvar TvarKind KindedTvar TypBind ConBind DatBind)

/-! ### Free occurrences -/

mutual

/-- The variables of a type that no polytype in it binds. -/
def freeTy : Ty → Set String
  | .wild => ∅
  | .id tv => {tv.symbol}
  | .freeId _ _ => ∅
  | .record _ fields => freeTyRows fields
  | .construct tys _ => freeTys tys
  | .tuple tys => freeTys tys
  | .func ty1 ty2 => freeTy ty1 ∪ freeTy ty2
  | .poly tvars ty => (freeKinds tvars ∪ freeTy ty) \ kindedNames tvars

def freeTys : List Ty → Set String
  | [] => ∅
  | ty :: tys => freeTy ty ∪ freeTys tys

def freeTyRows : List (String × Ty) → Set String
  | [] => ∅
  | (_, ty) :: rows => freeTy ty ∪ freeTyRows rows

/-- The variables in the kinds of type variables. -/
def freeKinds : List (KindedTvar String) → Set String
  | [] => ∅
  | (_, kind) :: tvars => freeKind kind ∪ freeKinds tvars

def freeKind : TvarKind String → Set String
  | .univ _ => ∅
  | .recKind _ recordKind => freeTyRows recordKind

end

def freeTyOpt : Option Ty → Set String
  | some ty => freeTy ty
  | none => ∅

mutual

def freeFfiTy : FfiTy → Set String
  | .funTy argTys varTys retTys =>
    freeFfiTys argTys ∪ freeFfiTysOpt varTys ∪ freeFfiTys retTys
  | .tyVar tv => {tv.symbol}
  | .recordTy rows => freeFfiRows rows
  | .conTy tys _ => freeFfiTys tys

def freeFfiTys : List FfiTy → Set String
  | [] => ∅
  | ty :: tys => freeFfiTy ty ∪ freeFfiTys tys

def freeFfiTysOpt : Option (List FfiTy) → Set String
  | some tys => freeFfiTys tys
  | none => ∅

def freeFfiRows : List (String × FfiTy) → Set String
  | [] => ∅
  | (_, ty) :: rows => freeFfiTy ty ∪ freeFfiRows rows

end

def freeTypBinds : List TypBind → Set String
  | [] => ∅
  | typbind :: typbinds =>
    freeTy typbind.ty \ names typbind.tyvars ∪ freeTypBinds typbinds

def freeConBinds : List ConBind → Set String
  | [] => ∅
  | conbind :: conbinds => freeTyOpt conbind.ty ∪ freeConBinds conbinds

def freeDatBinds : List DatBind → Set String
  | [] => ∅
  | datbind :: datbinds =>
    freeConBinds datbind.conbind \ names datbind.tyvars ∪ freeDatBinds datbinds

def freeExBinds : List ExBind → Set String
  | [] => ∅
  | .define _ ty :: exbinds => freeTyOpt ty ∪ freeExBinds exbinds
  | .replicate _ _ :: exbinds => freeExBinds exbinds

mutual

def freePat : Pat → Set String
  | .wild => ∅
  | .id _ => ∅
  | .constant _ => ∅
  | .construct pat1 pat2 => freePat pat1 ∪ freePat pat2
  | .record _ rows => freePatRows rows
  | .layered _ ty pat => freeTyOpt ty ∪ freePat pat
  | .typed pat ty => freePat pat ∪ freeTy ty

def freePatRows : List (String × Pat) → Set String
  | [] => ∅
  | (_, pat) :: rows => freePat pat ∪ freePatRows rows

end

def freePats : List Pat → Set String
  | [] => ∅
  | pat :: pats => freePat pat ∪ freePats pats

/-- What the kinds of a rule's type variables contribute. -/
def ruleKindNames (ruleKinds : Bool) (tyvars : List (KindedTvar String)) :
    Set String :=
  if ruleKinds then freeKinds tyvars else ∅

mutual

/-- The variables that occur outside the guard points.  The occurrences in the
kinds of the type variables of `_dynamiccase` rules count when `ruleKinds` is
set. -/
def unguardedExp (ruleKinds : Bool) : Exp → Set String
  | .constant _ => ∅
  | .sizeOf ty => freeTy ty
  | .var _ => ∅
  | .typed exp ty => unguardedExp ruleKinds exp ∪ freeTy ty
  | .appM exp exps => unguardedExp ruleKinds exp ∪ unguardedExps ruleKinds exps
  | .letIn decls exp =>
    unguardedDecls ruleKinds decls ∪ unguardedExp ruleKinds exp
  | .record rows => unguardedRows ruleKinds rows
  | .recordUpdate exp rows =>
    unguardedExp ruleKinds exp ∪ unguardedRows ruleKinds rows
  | .recordUpdate2 exp exp2 =>
    unguardedExp ruleKinds exp ∪ unguardedExp ruleKinds exp2
  | .raise exp => unguardedExp ruleKinds exp
  | .handle exp rules =>
    unguardedExp ruleKinds exp ∪ unguardedBinds ruleKinds rules
  | .fnM rules => unguardedMatches ruleKinds rules
  | .caseM exps rules _ =>
    unguardedExps ruleKinds exps ∪ unguardedMatches ruleKinds rules
  | .recordSelector _ => ∅
  | .select _ exp => unguardedExp ruleKinds exp
  | .seq exps => unguardedExps ruleKinds exps
  | .ffiImport ffiFun ffiTy => unguardedFfiFun ruleKinds ffiFun ∪ freeFfiTy ffiTy
  | .sqlSchema tyFnExp ty => unguardedExp ruleKinds tyFnExp ∪ freeTy ty
  | .join _ exp1 exp2 =>
    unguardedExp ruleKinds exp1 ∪ unguardedExp ruleKinds exp2
  | .dynamic exp ty => unguardedExp ruleKinds exp ∪ freeTy ty
  | .dynamicIs exp ty => unguardedExp ruleKinds exp ∪ freeTy ty
  | .dynamicNull ty => freeTy ty
  | .dynamicTop ty => freeTy ty
  | .dynamicView exp ty => unguardedExp ruleKinds exp ∪ freeTy ty
  | .dynamicCase exp rules =>
    unguardedExp ruleKinds exp ∪ unguardedDynMatches ruleKinds rules
  | .reifyTy ty => freeTy ty

def unguardedFfiFun (ruleKinds : Bool) : FfiFun → Set String
  | .func exp => unguardedExp ruleKinds exp
  | .externDecl _ => ∅

def unguardedExps (ruleKinds : Bool) : List Exp → Set String
  | [] => ∅
  | exp :: exps => unguardedExp ruleKinds exp ∪ unguardedExps ruleKinds exps

def unguardedRows (ruleKinds : Bool) : List (String × Exp) → Set String
  | [] => ∅
  | (_, exp) :: rows => unguardedExp ruleKinds exp ∪ unguardedRows ruleKinds rows

def unguardedMatches (ruleKinds : Bool) : List (List Pat × Exp) → Set String
  | [] => ∅
  | (pats, exp) :: rules =>
    freePats pats ∪ unguardedExp ruleKinds exp ∪ unguardedMatches ruleKinds rules

def unguardedBinds (ruleKinds : Bool) : List (Pat × Exp) → Set String
  | [] => ∅
  | (pat, exp) :: binds =>
    freePat pat ∪ unguardedExp ruleKinds exp ∪ unguardedBinds ruleKinds binds

/-- The type variables of a rule are bound in their kinds, the pattern and the
body. -/
def unguardedDynMatches (ruleKinds : Bool) :
    List (List (KindedTvar String) × Pat × Exp) → Set String
  | [] => ∅
  | (tyvars, pat, exp) :: rules =>
    (ruleKindNames ruleKinds tyvars ∪
        (freePat pat ∪ unguardedExp ruleKinds exp)) \ kindedNames tyvars ∪
      unguardedDynMatches ruleKinds rules

def unguardedDecl (ruleKinds : Bool) : Decl → Set String
  | .val _ _ => ∅
  | .valRec _ _ => ∅
  | .valPolyRec _ => ∅
  | .decFun _ _ => ∅
  | .type typbinds => freeTypBinds typbinds
  | .datatype datbinds => freeDatBinds datbinds
  | .replicateDat _ _ => ∅
  | .abstype datbinds decls =>
    freeDatBinds datbinds ∪ unguardedDecls ruleKinds decls
  | .exd exbinds => freeExBinds exbinds
  | .localDec decls1 decls2 =>
    unguardedDecls ruleKinds decls1 ∪ unguardedDecls ruleKinds decls2
  | .open _ => ∅
  | .infixDec _ _ => ∅
  | .infixrDec _ _ => ∅
  | .nonfixDec _ => ∅
  | .empty => ∅

def unguardedDecls (ruleKinds : Bool) : List Decl → Set String
  | [] => ∅
  | decl :: decls => unguardedDecl ruleKinds decl ∪ unguardedDecls ruleKinds decls

end

def unguardedFvalbinds (ruleKinds : Bool) :
    List (Pat × List (List Pat × Exp)) → Set String
  | [] => ∅
  | (pat, rules) :: binds =>
    freePat pat ∪ unguardedMatches ruleKinds rules ∪
      unguardedFvalbinds ruleKinds binds

/-! ### Leaving the kinds of rule variables out -/

theorem unguardedDynMatch_mono {tyvars : List (KindedTvar String)} {pat : Pat}
    {few many : Set String} (hsub : few ⊆ many) :
    (ruleKindNames false tyvars ∪ (freePat pat ∪ few)) \ kindedNames tyvars ⊆
      (ruleKindNames true tyvars ∪ (freePat pat ∪ many)) \ kindedNames tyvars := by
  refine Set.sdiff_subset_sdiff_left (Set.union_subset_union ?_ ?_)
  · simp [ruleKindNames]
  · exact Set.union_subset_union_right _ hsub

mutual

theorem unguardedExp_mono :
    ∀ exp : Exp, unguardedExp false exp ⊆ unguardedExp true exp
  | .constant _ => subset_rfl
  | .sizeOf _ => subset_rfl
  | .var _ => subset_rfl
  | .typed exp _ => Set.union_subset_union_left _ (unguardedExp_mono exp)
  | .appM exp exps =>
    Set.union_subset_union (unguardedExp_mono exp) (unguardedExps_mono exps)
  | .letIn decls exp =>
    Set.union_subset_union (unguardedDecls_mono decls) (unguardedExp_mono exp)
  | .record rows => unguardedRows_mono rows
  | .recordUpdate exp rows =>
    Set.union_subset_union (unguardedExp_mono exp) (unguardedRows_mono rows)
  | .recordUpdate2 exp exp2 =>
    Set.union_subset_union (unguardedExp_mono exp) (unguardedExp_mono exp2)
  | .raise exp => unguardedExp_mono exp
  | .handle exp rules =>
    Set.union_subset_union (unguardedExp_mono exp) (unguardedBinds_mono rules)
  | .fnM rules => unguardedMatches_mono rules
  | .caseM exps rules _ =>
    Set.union_subset_union (unguardedExps_mono exps) (unguardedMatches_mono rules)
  | .recordSelector _ => subset_rfl
  | .select _ exp => unguardedExp_mono exp
  | .seq exps => unguardedExps_mono exps
  | .ffiImport ffiFun _ =>
    Set.union_subset_union_left _ (unguardedFfiFun_mono ffiFun)
  | .sqlSchema tyFnExp _ =>
    Set.union_subset_union_left _ (unguardedExp_mono tyFnExp)
  | .join _ exp1 exp2 =>
    Set.union_subset_union (unguardedExp_mono exp1) (unguardedExp_mono exp2)
  | .dynamic exp _ => Set.union_subset_union_left _ (unguardedExp_mono exp)
  | .dynamicIs exp _ => Set.union_subset_union_left _ (unguardedExp_mono exp)
  | .dynamicNull _ => subset_rfl
  | .dynamicTop _ => subset_rfl
  | .dynamicView exp _ => Set.union_subset_union_left _ (unguardedExp_mono exp)
  | .dynamicCase exp rules =>
    Set.union_subset_union (unguardedExp_mono exp)
      (unguardedDynMatches_mono rules)
  | .reifyTy _ => subset_rfl

theorem unguardedFfiFun_mono :
    ∀ ffiFun : FfiFun, unguardedFfiFun false ffiFun ⊆ unguardedFfiFun true ffiFun
  | .func exp => unguardedExp_mono exp
  | .externDecl _ => subset_rfl

theorem unguardedExps_mono :
    ∀ exps : List Exp, unguardedExps false exps ⊆ unguardedExps true exps
  | [] => subset_rfl
  | exp :: exps =>
    Set.union_subset_union (unguardedExp_mono exp) (unguardedExps_mono exps)

theorem unguardedRows_mono :
    ∀ rows : List (String × Exp), unguardedRows false rows ⊆ unguardedRows true rows
  | [] => subset_rfl
  | (_, exp) :: rows =>
    Set.union_subset_union (unguardedExp_mono exp) (unguardedRows_mono rows)

theorem unguardedMatches_mono :
    ∀ rules : List (List Pat × Exp),
      unguardedMatches false rules ⊆ unguardedMatches true rules
  | [] => subset_rfl
  | (_, exp) :: rules =>
    Set.union_subset_union
      (Set.union_subset_union_right _ (unguardedExp_mono exp))
      (unguardedMatches_mono rules)

theorem unguardedBinds_mono :
    ∀ binds : List (Pat × Exp),
      unguardedBinds false binds ⊆ unguardedBinds true binds
  | [] => subset_rfl
  | (_, exp) :: binds =>
    Set.union_subset_union
      (Set.union_subset_union_right _ (unguardedExp_mono exp))
      (unguardedBinds_mono binds)

theorem unguardedDynMatches_mono :
    ∀ rules : List (List (KindedTvar String) × Pat × Exp),
      unguardedDynMatches false rules ⊆ unguardedDynMatches true rules
  | [] => subset_rfl
  | (_, _, exp) :: rules =>
    Set.union_subset_union (unguardedDynMatch_mono (unguardedExp_mono exp))
      (unguardedDynMatches_mono rules)

theorem unguardedDecl_mono :
    ∀ decl : Decl, unguardedDecl false decl ⊆ unguardedDecl true decl
  | .val _ _ => subset_rfl
  | .valRec _ _ => subset_rfl
  | .valPolyRec _ => subset_rfl
  | .decFun _ _ => subset_rfl
  | .type _ => subset_rfl
  | .datatype _ => subset_rfl
  | .replicateDat _ _ => subset_rfl
  | .abstype _ decls => Set.union_subset_union_right _ (unguardedDecls_mono decls)
  | .exd _ => subset_rfl
  | .localDec decls1 decls2 =>
    Set.union_subset_union (unguardedDecls_mono decls1)
      (unguardedDecls_mono decls2)
  | .open _ => subset_rfl
  | .infixDec _ _ => subset_rfl
  | .infixrDec _ _ => subset_rfl
  | .nonfixDec _ => subset_rfl
  | .empty => subset_rfl

theorem unguardedDecls_mono :
    ∀ decls : List Decl, unguardedDecls false decls ⊆ unguardedDecls true decls
  | [] => subset_rfl
  | decl :: decls =>
    Set.union_subset_union (unguardedDecl_mono decl) (unguardedDecls_mono decls)

end

theorem unguardedFvalbinds_mono :
    ∀ binds : List (Pat × List (List Pat × Exp)),
      unguardedFvalbinds false binds ⊆ unguardedFvalbinds true binds
  | [] => subset_rfl
  | (_, rules) :: binds =>
    Set.union_subset_union
      (Set.union_subset_union_right _ (unguardedMatches_mono rules))
      (unguardedFvalbinds_mono binds)

/-! ### The declarations and what encloses them -/

/-- The type variables bound around a place in a program. -/
structure Enclosing where
  /-- Those scoped by `val` and `fun` declarations. -/
  tracked : Set String
  /-- These and the ones quantified by the rules of `_dynamiccase`. -/
  bound : Set String
  tracked_subset : tracked ⊆ bound

def Enclosing.none : Enclosing := ⟨∅, ∅, subset_rfl⟩

def Enclosing.underRule (enclosing : Enclosing)
    (tyvars : List (KindedTvar String)) : Enclosing where
  tracked := enclosing.tracked
  bound := kindedNames tyvars ∪ enclosing.bound
  tracked_subset :=
    enclosing.tracked_subset.trans Set.subset_union_right

/-- A `val` or `fun` declaration in its place. -/
structure Site where
  enclosing : Enclosing
  /-- The scope given in the source. -/
  explicit : List (KindedTvar String)
  /-- The variables that occur unguarded and are not in that scope. -/
  occurring : Set String
  /-- Those of them that occur outside the kinds of rule variables. -/
  collected : Set String
  collected_subset : collected ⊆ occurring

/-- Inside of a declaration all its unguarded variables are bound. -/
def Site.inner (site : Site) : Enclosing where
  tracked := site.enclosing.tracked ∪ (kindedNames site.explicit ∪ site.collected)
  bound := site.enclosing.bound ∪ (kindedNames site.explicit ∪ site.occurring)
  tracked_subset :=
    Set.union_subset_union site.enclosing.tracked_subset
      (Set.union_subset_union_right _ site.collected_subset)

/-- A declaration from the unguarded variables of its bindings, without and
with the kinds of rule variables. -/
def Site.of (enclosing : Enclosing) (explicit : List (KindedTvar String))
    (few many : Set String) (hsub : few ⊆ many) : Site where
  enclosing := enclosing
  explicit := explicit
  occurring := (freeKinds explicit ∪ many) \ kindedNames explicit
  collected := (freeKinds explicit ∪ few) \ kindedNames explicit
  collected_subset :=
    Set.sdiff_subset_sdiff_left (Set.union_subset_union_right _ hsub)

def valSite (enclosing : Enclosing) (scopedTvars : List (KindedTvar String))
    (valbinds : List (Pat × Exp)) : Site :=
  Site.of enclosing scopedTvars (unguardedBinds false valbinds)
    (unguardedBinds true valbinds) (unguardedBinds_mono valbinds)

def funSite (enclosing : Enclosing) (scopedTvars : List (KindedTvar String))
    (fvalbinds : List (Pat × List (List Pat × Exp))) : Site :=
  Site.of enclosing scopedTvars (unguardedFvalbinds false fvalbinds)
    (unguardedFvalbinds true fvalbinds) (unguardedFvalbinds_mono fvalbinds)

mutual

/-- The `val` and `fun` declarations of an expression, from left to right and
from the outside in. -/
def sitesExp (enclosing : Enclosing) : Exp → List Site
  | .constant _ => []
  | .sizeOf _ => []
  | .var _ => []
  | .typed exp _ => sitesExp enclosing exp
  | .appM exp exps => sitesExp enclosing exp ++ sitesExps enclosing exps
  | .letIn decls exp => sitesDecls enclosing decls ++ sitesExp enclosing exp
  | .record rows => sitesRows enclosing rows
  | .recordUpdate exp rows => sitesExp enclosing exp ++ sitesRows enclosing rows
  | .recordUpdate2 exp exp2 => sitesExp enclosing exp ++ sitesExp enclosing exp2
  | .raise exp => sitesExp enclosing exp
  | .handle exp rules => sitesExp enclosing exp ++ sitesBinds enclosing rules
  | .fnM rules => sitesMatches enclosing rules
  | .caseM exps rules _ =>
    sitesExps enclosing exps ++ sitesMatches enclosing rules
  | .recordSelector _ => []
  | .select _ exp => sitesExp enclosing exp
  | .seq exps => sitesExps enclosing exps
  | .ffiImport ffiFun _ => sitesFfiFun enclosing ffiFun
  | .sqlSchema tyFnExp _ => sitesExp enclosing tyFnExp
  | .join _ exp1 exp2 => sitesExp enclosing exp1 ++ sitesExp enclosing exp2
  | .dynamic exp _ => sitesExp enclosing exp
  | .dynamicIs exp _ => sitesExp enclosing exp
  | .dynamicNull _ => []
  | .dynamicTop _ => []
  | .dynamicView exp _ => sitesExp enclosing exp
  | .dynamicCase exp rules =>
    sitesExp enclosing exp ++ sitesDynMatches enclosing rules
  | .reifyTy _ => []

def sitesFfiFun (enclosing : Enclosing) : FfiFun → List Site
  | .func exp => sitesExp enclosing exp
  | .externDecl _ => []

def sitesExps (enclosing : Enclosing) : List Exp → List Site
  | [] => []
  | exp :: exps => sitesExp enclosing exp ++ sitesExps enclosing exps

def sitesRows (enclosing : Enclosing) : List (String × Exp) → List Site
  | [] => []
  | (_, exp) :: rows => sitesExp enclosing exp ++ sitesRows enclosing rows

def sitesMatches (enclosing : Enclosing) : List (List Pat × Exp) → List Site
  | [] => []
  | (_, exp) :: rules => sitesExp enclosing exp ++ sitesMatches enclosing rules

def sitesBinds (enclosing : Enclosing) : List (Pat × Exp) → List Site
  | [] => []
  | (_, exp) :: binds => sitesExp enclosing exp ++ sitesBinds enclosing binds

def sitesDynMatches (enclosing : Enclosing) :
    List (List (KindedTvar String) × Pat × Exp) → List Site
  | [] => []
  | (tyvars, _, exp) :: rules =>
    sitesExp (enclosing.underRule tyvars) exp ++ sitesDynMatches enclosing rules

def sitesPolyRecBinds (enclosing : Enclosing) :
    List (String × Ty × Exp) → List Site
  | [] => []
  | (_, _, exp) :: binds =>
    sitesExp enclosing exp ++ sitesPolyRecBinds enclosing binds

def sitesFvalbinds (enclosing : Enclosing) :
    List (Pat × List (List Pat × Exp)) → List Site
  | [] => []
  | (_, rules) :: binds =>
    sitesMatches enclosing rules ++ sitesFvalbinds enclosing binds

def sitesDecl (enclosing : Enclosing) : Decl → List Site
  | .val scopedTvars valbinds =>
    let site := valSite enclosing scopedTvars valbinds
    site :: sitesBinds site.inner valbinds
  | .valRec scopedTvars valbinds =>
    let site := valSite enclosing scopedTvars valbinds
    site :: sitesBinds site.inner valbinds
  | .valPolyRec polybinds => sitesPolyRecBinds enclosing polybinds
  | .decFun scopedTvars fvalbinds =>
    let site := funSite enclosing scopedTvars fvalbinds
    site :: sitesFvalbinds site.inner fvalbinds
  | .type _ => []
  | .datatype _ => []
  | .replicateDat _ _ => []
  | .abstype _ decls => sitesDecls enclosing decls
  | .exd _ => []
  | .localDec decls1 decls2 =>
    sitesDecls enclosing decls1 ++ sitesDecls enclosing decls2
  | .open _ => []
  | .infixDec _ _ => []
  | .infixrDec _ _ => []
  | .nonfixDec _ => []
  | .empty => []

def sitesDecls (enclosing : Enclosing) : List Decl → List Site
  | [] => []
  | decl :: decls => sitesDecl enclosing decl ++ sitesDecls enclosing decls

end

end UserTvarScope

end SmlSharp
