/-
The pass that scopes the unguarded user type variables of every `val` and
`fun` declaration.
-/
import SmlSharp.UserTvarScope.Collect

namespace SmlSharp

namespace UserTvarScope

open WithType (Tvar TvarKind KindedTvar)

/-- The explicitly scoped variables that the environment binds already. -/
def checkOuterDecl (btvEnv : BtvEnv) : List (KindedTvar String) → Report Unit
  | [] => pure ()
  | (tvar, _) :: tvars => do
      enqueueIf (btvEnv.inDomain tvar.symbol) (.userTvarScopedAtOuterDecl tvar)
      checkOuterDecl btvEnv tvars

def decideScope {α : Type} (tyvarsFn : BtvEnv → α → Report TvSet)
    (btvEnv : BtvEnv) (explicitScope : List (KindedTvar String)) (x : α) :
    Report (BtvEnv × List (KindedTvar String)) := do
  checkOuterDecl btvEnv explicitScope
  let btvEnv ← bindKindedTvars btvEnv explicitScope
  let unguarded1 ← tyvarsList (tyvarsKindedTvars btvEnv explicitScope)
  let unguarded2 ← tyvarsFn btvEnv x
  let unguarded ← union unguarded1 unguarded2
  pure (extend btvEnv unguarded, explicitScope ++ toTvarList unguarded)

mutual

def decideExp (btvEnv : BtvEnv) : Exp → Report Exp
  | .constant text => pure (.constant text)
  | .sizeOf ty => pure (.sizeOf ty)
  | .var longsymbol => pure (.var longsymbol)
  | .typed exp ty => do
      let exp ← decideExp btvEnv exp
      pure (.typed exp ty)
  | .appM exp exps => do
      let exp ← decideExp btvEnv exp
      let exps ← decideExps btvEnv exps
      pure (.appM exp exps)
  | .letIn decls exp => do
      let decls ← decideDecls btvEnv decls
      let exp ← decideExp btvEnv exp
      pure (.letIn decls exp)
  | .record rows => do
      let rows ← decideRows btvEnv rows
      pure (.record rows)
  | .recordUpdate exp rows => do
      let exp ← decideExp btvEnv exp
      let rows ← decideRows btvEnv rows
      pure (.recordUpdate exp rows)
  | .recordUpdate2 exp exp2 => do
      let exp ← decideExp btvEnv exp
      let exp2 ← decideExp btvEnv exp2
      pure (.recordUpdate2 exp exp2)
  | .raise exp => do
      let exp ← decideExp btvEnv exp
      pure (.raise exp)
  | .handle exp rules => do
      let exp ← decideExp btvEnv exp
      let rules ← decideBinds btvEnv rules
      pure (.handle exp rules)
  | .fnM rules => do
      let rules ← decideMatches btvEnv rules
      pure (.fnM rules)
  | .caseM exps rules caseKind => do
      let exps ← decideExps btvEnv exps
      let rules ← decideMatches btvEnv rules
      pure (.caseM exps rules caseKind)
  | .dynamic exp ty => do
      let exp ← decideExp btvEnv exp
      pure (.dynamic exp ty)
  | .dynamicIs exp ty => do
      let exp ← decideExp btvEnv exp
      pure (.dynamicIs exp ty)
  | .dynamicNull ty => pure (.dynamicNull ty)
  | .dynamicTop ty => pure (.dynamicTop ty)
  | .dynamicView exp ty => do
      let exp ← decideExp btvEnv exp
      pure (.dynamicView exp ty)
  | .dynamicCase exp rules => do
      let exp ← decideExp btvEnv exp
      let rules ← decideDynMatches btvEnv rules
      pure (.dynamicCase exp rules)
  | .recordSelector label => pure (.recordSelector label)
  | .select label exp => do
      let exp ← decideExp btvEnv exp
      pure (.select label exp)
  | .seq exps => do
      let exps ← decideExps btvEnv exps
      pure (.seq exps)
  | .ffiImport ffiFun ffiTy => do
      let ffiFun ← decideFFIFun btvEnv ffiFun
      pure (.ffiImport ffiFun ffiTy)
  | .sqlSchema tyFnExp ty => do
      let tyFnExp ← decideExp btvEnv tyFnExp
      pure (.sqlSchema tyFnExp ty)
  | .join isJoin exp1 exp2 => do
      let exp1 ← decideExp btvEnv exp1
      let exp2 ← decideExp btvEnv exp2
      pure (.join isJoin exp1 exp2)
  | .reifyTy ty => pure (.reifyTy ty)

def decideFFIFun (btvEnv : BtvEnv) : FfiFun → Report FfiFun
  | .func exp => do
      let exp ← decideExp btvEnv exp
      pure (.func exp)
  | .externDecl name => pure (.externDecl name)

def decideExps (btvEnv : BtvEnv) : List Exp → Report (List Exp)
  | [] => pure []
  | exp :: exps => do
      let exp ← decideExp btvEnv exp
      let exps ← decideExps btvEnv exps
      pure (exp :: exps)

/-- `decideRow` of each row. -/
def decideRows (btvEnv : BtvEnv) :
    List (String × Exp) → Report (List (String × Exp))
  | [] => pure []
  | (label, exp) :: rows => do
      let exp ← decideExp btvEnv exp
      let rows ← decideRows btvEnv rows
      pure ((label, exp) :: rows)

/-- `decideMatch` of each rule. -/
def decideMatches (btvEnv : BtvEnv) :
    List (List Pat × Exp) → Report (List (List Pat × Exp))
  | [] => pure []
  | (pats, exp) :: rules => do
      let exp ← decideExp btvEnv exp
      let rules ← decideMatches btvEnv rules
      pure ((pats, exp) :: rules)

/-- `decideBind` of each rule, and `decideValbind` of each binding. -/
def decideBinds (btvEnv : BtvEnv) :
    List (Pat × Exp) → Report (List (Pat × Exp))
  | [] => pure []
  | (pat, exp) :: binds => do
      let exp ← decideExp btvEnv exp
      let binds ← decideBinds btvEnv binds
      pure ((pat, exp) :: binds)

/-- `decideDynMatch` of each rule. -/
def decideDynMatches (btvEnv : BtvEnv) :
    List (List (KindedTvar String) × Pat × Exp) →
      Report (List (List (KindedTvar String) × Pat × Exp))
  | [] => pure []
  | (tyvars, pat, exp) :: rules => do
      let exp ← decideExp btvEnv exp
      let rules ← decideDynMatches btvEnv rules
      pure ((tyvars, pat, exp) :: rules)

/-- `decidePolyRecBind` of each binding. -/
def decidePolyRecBinds (btvEnv : BtvEnv) :
    List (String × Ty × Exp) → Report (List (String × Ty × Exp))
  | [] => pure []
  | (id, ty, exp) :: binds => do
      let exp ← decideExp btvEnv exp
      let binds ← decidePolyRecBinds btvEnv binds
      pure ((id, ty, exp) :: binds)

/-- `decideFvalbind` of each binding. -/
def decideFvalbinds (btvEnv : BtvEnv) :
    List (Pat × List (List Pat × Exp)) →
      Report (List (Pat × List (List Pat × Exp)))
  | [] => pure []
  | (pat, rules) :: binds => do
      let rules ← decideMatches btvEnv rules
      let binds ← decideFvalbinds btvEnv binds
      pure ((pat, rules) :: binds)

def decideDecl (btvEnv : BtvEnv) : Decl → Report Decl
  | .val scopedTvars valbinds => do
      let (btvEnv, scopedTvars) ←
        decideScope tyvarsValbindList btvEnv scopedTvars valbinds
      let valbinds ← decideBinds btvEnv valbinds
      pure (.val scopedTvars valbinds)
  | .valRec scopedTvars valbinds => do
      let (btvEnv, scopedTvars) ←
        decideScope tyvarsValbindList btvEnv scopedTvars valbinds
      let valbinds ← decideBinds btvEnv valbinds
      pure (.valRec scopedTvars valbinds)
  | .valPolyRec polybinds => do
      let polybinds ← decidePolyRecBinds btvEnv polybinds
      pure (.valPolyRec polybinds)
  | .decFun scopedTvars fvalbinds => do
      let (btvEnv, scopedTvars) ←
        decideScope tyvarsFvalbindList btvEnv scopedTvars fvalbinds
      let fvalbinds ← decideFvalbinds btvEnv fvalbinds
      pure (.decFun scopedTvars fvalbinds)
  | .type typbinds => pure (.type typbinds)
  | .datatype datbinds => pure (.datatype datbinds)
  | .replicateDat symbol longsymbol => pure (.replicateDat symbol longsymbol)
  | .abstype datbinds decls => do
      let decls ← decideDecls btvEnv decls
      pure (.abstype datbinds decls)
  | .exd exbinds => pure (.exd exbinds)
  | .localDec decls1 decls2 => do
      let decls1 ← decideDecls btvEnv decls1
      let decls2 ← decideDecls btvEnv decls2
      pure (.localDec decls1 decls2)
  | .open longsymbols => pure (.open longsymbols)
  | .infixDec assoc symbols => pure (.infixDec assoc symbols)
  | .infixrDec assoc symbols => pure (.infixrDec assoc symbols)
  | .nonfixDec symbols => pure (.nonfixDec symbols)
  | .empty => pure .empty

def decideDecls (btvEnv : BtvEnv) : List Decl → Report (List Decl)
  | [] => pure []
  | decl :: decls => do
      let decl ← decideDecl btvEnv decl
      let decls ← decideDecls btvEnv decls
      pure (decl :: decls)

end

/-- The scoping of a core declaration, as `decideStrdec` starts it. -/
def decideCoreDec (decl : Decl) : Report Decl :=
  decideDecl emptyEnv decl

end UserTvarScope

end SmlSharp
