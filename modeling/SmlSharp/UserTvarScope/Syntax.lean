/-
Expressions and declarations after elaboration, with the user type variables
that declarations scope.
-/
import SmlSharp.WithType.Syntax

namespace SmlSharp

namespace UserTvarScope

open WithType (Tvar TvarKind KindedTvar TypBind ConBind DatBind)

abbrev Ty := WithType.Ty String

abbrev LongSymbol := List String

inductive CaseKind where
  | bind
  | «match»
  | handle

inductive ExBind where
  | define (symbol : String) (ty : Option Ty)
  | replicate (symbol : String) (longsymbol : LongSymbol)

inductive FfiTy where
  | funTy (argTys : List FfiTy) (varTys : Option (List FfiTy))
      (retTys : List FfiTy)
  | tyVar (tvar : Tvar String)
  | recordTy (rows : List (String × FfiTy))
  | conTy (tys : List FfiTy) (tyCon : LongSymbol)

inductive Pat where
  | wild
  | id (longsymbol : LongSymbol)
  | constant (text : String)
  | construct (con arg : Pat)
  | record (flex : Bool) (rows : List (String × Pat))
  | layered (symbol : String) (ty : Option Ty) (pat : Pat)
  | typed (pat : Pat) (ty : Ty)

mutual

inductive Exp where
  | constant (text : String)
  | sizeOf (ty : Ty)
  | var (longsymbol : LongSymbol)
  | typed (exp : Exp) (ty : Ty)
  | appM (exp : Exp) (exps : List Exp)
  | letIn (decls : List Decl) (exp : Exp)
  | record (rows : List (String × Exp))
  | recordUpdate (exp : Exp) (rows : List (String × Exp))
  | recordUpdate2 (exp exp2 : Exp)
  | raise (exp : Exp)
  | handle (exp : Exp) (rules : List (Pat × Exp))
  | fnM (rules : List (List Pat × Exp))
  | caseM (exps : List Exp) (rules : List (List Pat × Exp)) (caseKind : CaseKind)
  | recordSelector (label : String)
  | select (label : String) (exp : Exp)
  | seq (exps : List Exp)
  | ffiImport (ffiFun : FfiFun) (ffiTy : FfiTy)
  | sqlSchema (tyFnExp : Exp) (ty : Ty)
  | join (isJoin : Bool) (exp1 exp2 : Exp)
  | dynamic (exp : Exp) (ty : Ty)
  | dynamicIs (exp : Exp) (ty : Ty)
  | dynamicNull (ty : Ty)
  | dynamicTop (ty : Ty)
  | dynamicView (exp : Exp) (ty : Ty)
  | dynamicCase (exp : Exp) (rules : List (List (KindedTvar String) × Pat × Exp))
  | reifyTy (ty : Ty)

inductive FfiFun where
  | func (exp : Exp)
  | externDecl (name : String)

inductive Decl where
  | val (scopedTvars : List (KindedTvar String)) (valbinds : List (Pat × Exp))
  | valRec (scopedTvars : List (KindedTvar String)) (valbinds : List (Pat × Exp))
  | valPolyRec (polybinds : List (String × Ty × Exp))
  | decFun (scopedTvars : List (KindedTvar String))
      (fvalbinds : List (Pat × List (List Pat × Exp)))
  | type (typbinds : List TypBind)
  | datatype (datbinds : List DatBind)
  | replicateDat (symbol : String) (longsymbol : LongSymbol)
  | abstype (datbinds : List DatBind) (decls : List Decl)
  | exd (exbinds : List ExBind)
  | localDec (decls1 decls2 : List Decl)
  | «open» (longsymbols : List LongSymbol)
  | infixDec (assoc : Nat) (symbols : List String)
  | infixrDec (assoc : Nat) (symbols : List String)
  | nonfixDec (symbols : List String)
  | empty

end

/-- The names that a list of type variables binds. -/
def names (tvars : List (Tvar String)) : Set String :=
  { α | ∃ tvar ∈ tvars, tvar.symbol = α }

/-- The names that a list of type variables with their kinds binds. -/
def kindedNames (tvars : List (KindedTvar String)) : Set String :=
  { α | ∃ tvar ∈ tvars, tvar.1.symbol = α }

end UserTvarScope

end SmlSharp
