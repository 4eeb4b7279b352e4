/-
Apart from the scopes of `val` and `fun` declarations the pass changes nothing.
-/
import SmlSharp.UserTvarScope.Decide

namespace SmlSharp

namespace UserTvarScope

open WithType (Tvar TvarKind KindedTvar)

mutual

/-- An expression with the scopes of its declarations left out. -/
def unscopeExp : Exp → Exp
  | .constant text => .constant text
  | .sizeOf ty => .sizeOf ty
  | .var longsymbol => .var longsymbol
  | .typed exp ty => .typed (unscopeExp exp) ty
  | .appM exp exps => .appM (unscopeExp exp) (unscopeExps exps)
  | .letIn decls exp => .letIn (unscopeDecls decls) (unscopeExp exp)
  | .record rows => .record (unscopeRows rows)
  | .recordUpdate exp rows => .recordUpdate (unscopeExp exp) (unscopeRows rows)
  | .recordUpdate2 exp exp2 => .recordUpdate2 (unscopeExp exp) (unscopeExp exp2)
  | .raise exp => .raise (unscopeExp exp)
  | .handle exp rules => .handle (unscopeExp exp) (unscopeBinds rules)
  | .fnM rules => .fnM (unscopeMatches rules)
  | .caseM exps rules caseKind =>
    .caseM (unscopeExps exps) (unscopeMatches rules) caseKind
  | .recordSelector label => .recordSelector label
  | .select label exp => .select label (unscopeExp exp)
  | .seq exps => .seq (unscopeExps exps)
  | .ffiImport ffiFun ffiTy => .ffiImport (unscopeFfiFun ffiFun) ffiTy
  | .sqlSchema tyFnExp ty => .sqlSchema (unscopeExp tyFnExp) ty
  | .join isJoin exp1 exp2 => .join isJoin (unscopeExp exp1) (unscopeExp exp2)
  | .dynamic exp ty => .dynamic (unscopeExp exp) ty
  | .dynamicIs exp ty => .dynamicIs (unscopeExp exp) ty
  | .dynamicNull ty => .dynamicNull ty
  | .dynamicTop ty => .dynamicTop ty
  | .dynamicView exp ty => .dynamicView (unscopeExp exp) ty
  | .dynamicCase exp rules =>
    .dynamicCase (unscopeExp exp) (unscopeDynMatches rules)
  | .reifyTy ty => .reifyTy ty

def unscopeFfiFun : FfiFun → FfiFun
  | .func exp => .func (unscopeExp exp)
  | .externDecl name => .externDecl name

def unscopeExps : List Exp → List Exp
  | [] => []
  | exp :: exps => unscopeExp exp :: unscopeExps exps

def unscopeRows : List (String × Exp) → List (String × Exp)
  | [] => []
  | (label, exp) :: rows => (label, unscopeExp exp) :: unscopeRows rows

def unscopeMatches : List (List Pat × Exp) → List (List Pat × Exp)
  | [] => []
  | (pats, exp) :: rules => (pats, unscopeExp exp) :: unscopeMatches rules

def unscopeBinds : List (Pat × Exp) → List (Pat × Exp)
  | [] => []
  | (pat, exp) :: binds => (pat, unscopeExp exp) :: unscopeBinds binds

def unscopeDynMatches :
    List (List (KindedTvar String) × Pat × Exp) →
      List (List (KindedTvar String) × Pat × Exp)
  | [] => []
  | (tyvars, pat, exp) :: rules =>
    (tyvars, pat, unscopeExp exp) :: unscopeDynMatches rules

def unscopePolyRecBinds : List (String × Ty × Exp) → List (String × Ty × Exp)
  | [] => []
  | (id, ty, exp) :: binds => (id, ty, unscopeExp exp) :: unscopePolyRecBinds binds

def unscopeFvalbinds :
    List (Pat × List (List Pat × Exp)) → List (Pat × List (List Pat × Exp))
  | [] => []
  | (pat, rules) :: binds => (pat, unscopeMatches rules) :: unscopeFvalbinds binds

/-- The declaration without the variables it scopes. -/
def unscopeDecl : Decl → Decl
  | .val _ valbinds => .val [] (unscopeBinds valbinds)
  | .valRec _ valbinds => .valRec [] (unscopeBinds valbinds)
  | .valPolyRec polybinds => .valPolyRec (unscopePolyRecBinds polybinds)
  | .decFun _ fvalbinds => .decFun [] (unscopeFvalbinds fvalbinds)
  | .type typbinds => .type typbinds
  | .datatype datbinds => .datatype datbinds
  | .replicateDat symbol longsymbol => .replicateDat symbol longsymbol
  | .abstype datbinds decls => .abstype datbinds (unscopeDecls decls)
  | .exd exbinds => .exd exbinds
  | .localDec decls1 decls2 => .localDec (unscopeDecls decls1) (unscopeDecls decls2)
  | .open longsymbols => .open longsymbols
  | .infixDec assoc symbols => .infixDec assoc symbols
  | .infixrDec assoc symbols => .infixrDec assoc symbols
  | .nonfixDec symbols => .nonfixDec symbols
  | .empty => .empty

def unscopeDecls : List Decl → List Decl
  | [] => []
  | decl :: decls => unscopeDecl decl :: unscopeDecls decls

end

mutual

/-- Deciding on the scopes changes nothing else. The induction goes over all
syntactic classes at once. -/
theorem decideExp_unscope :
    ∀ (exp : Exp) (btvEnv : BtvEnv),
      unscopeExp (decideExp btvEnv exp).result = unscopeExp exp
  | .constant _, _ => rfl
  | .sizeOf _, _ => rfl
  | .var _, _ => rfl
  | .typed exp _, btvEnv => by
      simp [decideExp, unscopeExp, decideExp_unscope exp]
  | .appM exp exps, btvEnv => by
      simp [decideExp, unscopeExp, decideExp_unscope exp, decideExps_unscope exps]
  | .letIn decls exp, btvEnv => by
      simp [decideExp, unscopeExp, decideDecls_unscope decls, decideExp_unscope exp]
  | .record rows, btvEnv => by
      simp [decideExp, unscopeExp, decideRows_unscope rows]
  | .recordUpdate exp rows, btvEnv => by
      simp [decideExp, unscopeExp, decideExp_unscope exp, decideRows_unscope rows]
  | .recordUpdate2 exp exp2, btvEnv => by
      simp [decideExp, unscopeExp, decideExp_unscope exp, decideExp_unscope exp2]
  | .raise exp, btvEnv => by
      simp [decideExp, unscopeExp, decideExp_unscope exp]
  | .handle exp rules, btvEnv => by
      simp [decideExp, unscopeExp, decideExp_unscope exp, decideBinds_unscope rules]
  | .fnM rules, btvEnv => by
      simp [decideExp, unscopeExp, decideMatches_unscope rules]
  | .caseM exps rules _, btvEnv => by
      simp [decideExp, unscopeExp, decideExps_unscope exps,
        decideMatches_unscope rules]
  | .recordSelector _, _ => rfl
  | .select _ exp, btvEnv => by
      simp [decideExp, unscopeExp, decideExp_unscope exp]
  | .seq exps, btvEnv => by
      simp [decideExp, unscopeExp, decideExps_unscope exps]
  | .ffiImport ffiFun _, btvEnv => by
      simp [decideExp, unscopeExp, decideFFIFun_unscope ffiFun]
  | .sqlSchema tyFnExp _, btvEnv => by
      simp [decideExp, unscopeExp, decideExp_unscope tyFnExp]
  | .join _ exp1 exp2, btvEnv => by
      simp [decideExp, unscopeExp, decideExp_unscope exp1, decideExp_unscope exp2]
  | .dynamic exp _, btvEnv => by
      simp [decideExp, unscopeExp, decideExp_unscope exp]
  | .dynamicIs exp _, btvEnv => by
      simp [decideExp, unscopeExp, decideExp_unscope exp]
  | .dynamicNull _, _ => rfl
  | .dynamicTop _, _ => rfl
  | .dynamicView exp _, btvEnv => by
      simp [decideExp, unscopeExp, decideExp_unscope exp]
  | .dynamicCase exp rules, btvEnv => by
      simp [decideExp, unscopeExp, decideExp_unscope exp,
        decideDynMatches_unscope rules]
  | .reifyTy _, _ => rfl

theorem decideFFIFun_unscope :
    ∀ (ffiFun : FfiFun) (btvEnv : BtvEnv),
      unscopeFfiFun (decideFFIFun btvEnv ffiFun).result = unscopeFfiFun ffiFun
  | .func exp, btvEnv => by
      simp [decideFFIFun, unscopeFfiFun, decideExp_unscope exp]
  | .externDecl _, _ => rfl

theorem decideExps_unscope :
    ∀ (exps : List Exp) (btvEnv : BtvEnv),
      unscopeExps (decideExps btvEnv exps).result = unscopeExps exps
  | [], _ => rfl
  | exp :: exps, btvEnv => by
      simp [decideExps, unscopeExps, decideExp_unscope exp, decideExps_unscope exps]

theorem decideRows_unscope :
    ∀ (rows : List (String × Exp)) (btvEnv : BtvEnv),
      unscopeRows (decideRows btvEnv rows).result = unscopeRows rows
  | [], _ => rfl
  | (_, exp) :: rows, btvEnv => by
      simp [decideRows, unscopeRows, decideExp_unscope exp, decideRows_unscope rows]

theorem decideMatches_unscope :
    ∀ (rules : List (List Pat × Exp)) (btvEnv : BtvEnv),
      unscopeMatches (decideMatches btvEnv rules).result = unscopeMatches rules
  | [], _ => rfl
  | (_, exp) :: rules, btvEnv => by
      simp [decideMatches, unscopeMatches, decideExp_unscope exp,
        decideMatches_unscope rules]

theorem decideBinds_unscope :
    ∀ (binds : List (Pat × Exp)) (btvEnv : BtvEnv),
      unscopeBinds (decideBinds btvEnv binds).result = unscopeBinds binds
  | [], _ => rfl
  | (_, exp) :: binds, btvEnv => by
      simp [decideBinds, unscopeBinds, decideExp_unscope exp,
        decideBinds_unscope binds]

theorem decideDynMatches_unscope :
    ∀ (rules : List (List (KindedTvar String) × Pat × Exp)) (btvEnv : BtvEnv),
      unscopeDynMatches (decideDynMatches btvEnv rules).result = unscopeDynMatches rules
  | [], _ => rfl
  | (_, _, exp) :: rules, btvEnv => by
      simp [decideDynMatches, unscopeDynMatches, decideExp_unscope exp,
        decideDynMatches_unscope rules]

theorem decidePolyRecBinds_unscope :
    ∀ (binds : List (String × Ty × Exp)) (btvEnv : BtvEnv),
      unscopePolyRecBinds (decidePolyRecBinds btvEnv binds).result = unscopePolyRecBinds binds
  | [], _ => rfl
  | (_, _, exp) :: binds, btvEnv => by
      simp [decidePolyRecBinds, unscopePolyRecBinds, decideExp_unscope exp,
        decidePolyRecBinds_unscope binds]

theorem decideFvalbinds_unscope :
    ∀ (binds : List (Pat × List (List Pat × Exp))) (btvEnv : BtvEnv),
      unscopeFvalbinds (decideFvalbinds btvEnv binds).result = unscopeFvalbinds binds
  | [], _ => rfl
  | (_, rules) :: binds, btvEnv => by
      simp [decideFvalbinds, unscopeFvalbinds, decideMatches_unscope rules,
        decideFvalbinds_unscope binds]

theorem decideDecl_unscope :
    ∀ (decl : Decl) (btvEnv : BtvEnv),
      unscopeDecl (decideDecl btvEnv decl).result = unscopeDecl decl
  | .val _ valbinds, btvEnv => by
      simp [decideDecl, unscopeDecl, decideBinds_unscope valbinds]
  | .valRec _ valbinds, btvEnv => by
      simp [decideDecl, unscopeDecl, decideBinds_unscope valbinds]
  | .valPolyRec polybinds, btvEnv => by
      simp [decideDecl, unscopeDecl, decidePolyRecBinds_unscope polybinds]
  | .decFun _ fvalbinds, btvEnv => by
      simp [decideDecl, unscopeDecl, decideFvalbinds_unscope fvalbinds]
  | .type _, _ => rfl
  | .datatype _, _ => rfl
  | .replicateDat _ _, _ => rfl
  | .abstype _ decls, btvEnv => by
      simp [decideDecl, unscopeDecl, decideDecls_unscope decls]
  | .exd _, _ => rfl
  | .localDec decls1 decls2, btvEnv => by
      simp [decideDecl, unscopeDecl, decideDecls_unscope decls1,
        decideDecls_unscope decls2]
  | .open _, _ => rfl
  | .infixDec _ _, _ => rfl
  | .infixrDec _ _, _ => rfl
  | .nonfixDec _, _ => rfl
  | .empty, _ => rfl

theorem decideDecls_unscope :
    ∀ (decls : List Decl) (btvEnv : BtvEnv),
      unscopeDecls (decideDecls btvEnv decls).result = unscopeDecls decls
  | [], _ => rfl
  | decl :: decls, btvEnv => by
      simp [decideDecls, unscopeDecls, decideDecl_unscope decl,
        decideDecls_unscope decls]

end

end UserTvarScope

end SmlSharp
