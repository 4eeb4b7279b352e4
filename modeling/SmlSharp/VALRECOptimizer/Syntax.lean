/-
The expressions and declarations of the identifier calculus, with the variables
that they mention and bind.
-/
import Mathlib.Data.Finset.Basic
import Mathlib.Data.Finset.Union

namespace SmlSharp

namespace VALRECOptimizer

/-- The forms without expressions in them: constants, external names, constructors,
types and record selectors. -/
inductive Atom where
  | error
  | constant
  | sizeOf
  | exvar
  | exvarToBeTyped
  | builtinVar
  | con
  | exn
  | exexn
  | exnConstructor
  | exexnConstructor
  | oprim
  | recordSelector
  | ffiExtern
  | dynamicNull
  | dynamicTop
  | reifyTy

inductive PatAtom where
  | error
  | wild
  | con
  | exn
  | exexn
  | constant

/-- The declarations without expressions in them. -/
inductive DeclAtom where
  | exnD
  | exportVar
  | exportTypecheckedVar
  | exportFunctor
  | exportExn
  | externVar
  | externExn
  | builtinExn
  | overloadDef

inductive Pat (τ : Type) where
  | atom (form : PatAtom)
  | varTrans (id : Nat)
  | varOpaque (id : Nat)
  | construct (con arg : Pat τ)
  | record (fields : List (Pat τ))
  | layered (id : Nat) (pat : Pat τ)
  | typed (pat : Pat τ) (ty : τ)

/- Labels, locations and types that are only copied are left out. There is nothing in
`ν` before the optimizer makes the declarations of functions that are not recursive. -/
mutual

inductive Exp (ν τ : Type) where
  | atom (form : Atom)
  | var (id : Nat)
  | typed (exp : Exp ν τ)
  | interfaceTyped (exp : Exp ν τ)
  | appm (funExp : Exp ν τ) (argExpList : List (Exp ν τ))
  | appmNounify (funExp : Exp ν τ) (argExpList : List (Exp ν τ))
  | letExp (localDeclList : List (Decl ν τ)) (mainExp : Exp ν τ)
  | tycast (exp : Exp ν τ)
  | record (elementList : List (Exp ν τ))
  | raiseExp (exp : Exp ν τ)
  | handle (handler : Exp ν τ) (matchList : List (Rule ν τ))
  | fnm (matchList : List (Rule ν τ))
  | fnm1 (vars : List Nat) (exp : Exp ν τ)
  | fnm1Poly (vars : List Nat) (exp : Exp ν τ)
  | casem (selectorList : List (Exp ν τ)) (matchList : List (Rule ν τ))
  | dynamicCase (selector : Exp ν τ) (matchList : List (Rule ν τ))
  | recordUpdate (exp : Exp ν τ) (elementList : List (Exp ν τ))
  | recordUpdate2 (exp1 exp2 : Exp ν τ)
  | select (exp : Exp ν τ)
  | seq (expList : List (Exp ν τ))
  | ffiImport (ffiFun : Exp ν τ)
  | sqlSchema (tyFnExp : Exp ν τ)
  | join (exp1 exp2 : Exp ν τ)
  | dynamic (exp : Exp ν τ)
  | dynamicIs (exp : Exp ν τ)
  | dynamicView (exp : Exp ν τ)

/-- The rules of `handle` and `dynamicCase` have one pattern. -/
inductive Rule (ν τ : Type) where
  | rule (args : List (Pat τ)) (body : Exp ν τ)

inductive FunBind (ν τ : Type) where
  | funbind (funVarInfo : Nat) (rules : List (Rule ν τ))

inductive RecBind (ν τ : Type) where
  | recbind (varInfo : Nat) (tyList : List τ) (body : Exp ν τ)

inductive ValBind (ν τ : Type) where
  | valbind (pat : Pat τ) (exp : Exp ν τ)

inductive Decl (ν τ : Type) where
  | val (declList : List (ValBind ν τ))
  | valOpaqueSig (var : Nat) (exp : Exp ν τ)
  | valTransSig (var : Nat) (exp : Exp ν τ)
  | decfun (funbinds : List (FunBind ν τ))
  | nonrecfun (made : ν) (funbind : FunBind ν τ)
  | valrec (recbinds : List (RecBind ν τ))
  | valpolyrec (polyrecbinds : List (RecBind ν τ))
  | exntagD (varInfo : Nat)
  | tycastDecl (declList : List (Decl ν τ))
  | atom (form : DeclAtom)

end

variable {ν τ : Type}

def FunBind.id : FunBind ν τ → Nat
  | .funbind funVarInfo _ => funVarInfo

def FunBind.rules : FunBind ν τ → List (Rule ν τ)
  | .funbind _ rules => rules

def RecBind.id : RecBind ν τ → Nat
  | .recbind varInfo _ _ => varInfo

def RecBind.tyList : RecBind ν τ → List τ
  | .recbind _ tyList _ => tyList

def RecBind.body : RecBind ν τ → Exp ν τ
  | .recbind _ _ body => body

/-! ### Mentioned variables -/

section Mentions

variable (casts : Prop) (x : Nat)

mutual

/-- The variable is mentioned, outside of local declarations with type casts unless
they are entered. -/
def Exp.Mentions : Exp ν τ → Prop
  | .atom _ => False
  | .var id => x = id
  | .typed exp => exp.Mentions
  | .interfaceTyped exp => exp.Mentions
  | .appm funExp argExpList => funExp.Mentions ∨ expsMention argExpList
  | .appmNounify funExp argExpList => funExp.Mentions ∨ expsMention argExpList
  | .letExp localDeclList mainExp => declsMention localDeclList ∨ mainExp.Mentions
  | .tycast exp => exp.Mentions
  | .record elementList => expsMention elementList
  | .raiseExp exp => exp.Mentions
  | .handle handler matchList => handler.Mentions ∨ rulesMention matchList
  | .fnm matchList => rulesMention matchList
  | .fnm1 _ exp => exp.Mentions
  | .fnm1Poly _ exp => exp.Mentions
  | .casem selectorList matchList => expsMention selectorList ∨ rulesMention matchList
  | .dynamicCase selector matchList => selector.Mentions ∨ rulesMention matchList
  | .recordUpdate exp elementList => exp.Mentions ∨ expsMention elementList
  | .recordUpdate2 exp1 exp2 => exp1.Mentions ∨ exp2.Mentions
  | .select exp => exp.Mentions
  | .seq expList => expsMention expList
  | .ffiImport ffiFun => ffiFun.Mentions
  | .sqlSchema tyFnExp => tyFnExp.Mentions
  | .join exp1 exp2 => exp1.Mentions ∨ exp2.Mentions
  | .dynamic exp => exp.Mentions
  | .dynamicIs exp => exp.Mentions
  | .dynamicView exp => exp.Mentions

def expsMention : List (Exp ν τ) → Prop
  | [] => False
  | exp :: expList => exp.Mentions ∨ expsMention expList

def rulesMention : List (Rule ν τ) → Prop
  | [] => False
  | .rule _ body :: rules => body.Mentions ∨ rulesMention rules

def funbindsMention : List (FunBind ν τ) → Prop
  | [] => False
  | .funbind _ rules :: funbinds => rulesMention rules ∨ funbindsMention funbinds

def recbindsMention : List (RecBind ν τ) → Prop
  | [] => False
  | .recbind _ _ body :: recbinds => body.Mentions ∨ recbindsMention recbinds

def valbindsMention : List (ValBind ν τ) → Prop
  | [] => False
  | .valbind _ exp :: valbinds => exp.Mentions ∨ valbindsMention valbinds

def Decl.Mentions : Decl ν τ → Prop
  | .val declList => valbindsMention declList
  | .valOpaqueSig _ exp => exp.Mentions
  | .valTransSig _ exp => exp.Mentions
  | .decfun funbinds => funbindsMention funbinds
  | .nonrecfun _ (.funbind _ rules) => rulesMention rules
  | .valrec recbinds => recbindsMention recbinds
  | .valpolyrec polyrecbinds => recbindsMention polyrecbinds
  | .exntagD varInfo => x = varInfo
  | .tycastDecl declList => casts ∧ declsMention declList
  | .atom _ => False

def declsMention : List (Decl ν τ) → Prop
  | [] => False
  | decl :: declList => decl.Mentions ∨ declsMention declList

end

end Mentions

/-! ### Declarations with type casts -/

section Mono

variable {casts : Prop} {x : Nat}

mutual

theorem Exp.mentions_mono (e : Exp ν τ) : e.Mentions False x → e.Mentions casts x :=
  match e with
  | .atom _ => id
  | .var _ => id
  | .typed exp => exp.mentions_mono
  | .interfaceTyped exp => exp.mentions_mono
  | .appm funExp argExpList => Or.imp funExp.mentions_mono (expsMention_mono argExpList)
  | .appmNounify funExp argExpList => Or.imp funExp.mentions_mono (expsMention_mono argExpList)
  | .letExp localDeclList mainExp =>
    Or.imp (declsMention_mono localDeclList) mainExp.mentions_mono
  | .tycast exp => exp.mentions_mono
  | .record elementList => expsMention_mono elementList
  | .raiseExp exp => exp.mentions_mono
  | .handle handler matchList => Or.imp handler.mentions_mono (rulesMention_mono matchList)
  | .fnm matchList => rulesMention_mono matchList
  | .fnm1 _ exp => exp.mentions_mono
  | .fnm1Poly _ exp => exp.mentions_mono
  | .casem selectorList matchList =>
    Or.imp (expsMention_mono selectorList) (rulesMention_mono matchList)
  | .dynamicCase selector matchList =>
    Or.imp selector.mentions_mono (rulesMention_mono matchList)
  | .recordUpdate exp elementList => Or.imp exp.mentions_mono (expsMention_mono elementList)
  | .recordUpdate2 exp1 exp2 => Or.imp exp1.mentions_mono exp2.mentions_mono
  | .select exp => exp.mentions_mono
  | .seq expList => expsMention_mono expList
  | .ffiImport ffiFun => ffiFun.mentions_mono
  | .sqlSchema tyFnExp => tyFnExp.mentions_mono
  | .join exp1 exp2 => Or.imp exp1.mentions_mono exp2.mentions_mono
  | .dynamic exp => exp.mentions_mono
  | .dynamicIs exp => exp.mentions_mono
  | .dynamicView exp => exp.mentions_mono

theorem expsMention_mono (expList : List (Exp ν τ)) :
    expsMention False x expList → expsMention casts x expList :=
  match expList with
  | [] => id
  | exp :: expList => Or.imp exp.mentions_mono (expsMention_mono expList)

theorem rulesMention_mono (rules : List (Rule ν τ)) :
    rulesMention False x rules → rulesMention casts x rules :=
  match rules with
  | [] => id
  | .rule _ body :: rules => Or.imp body.mentions_mono (rulesMention_mono rules)

theorem funbindsMention_mono (funbinds : List (FunBind ν τ)) :
    funbindsMention False x funbinds → funbindsMention casts x funbinds :=
  match funbinds with
  | [] => id
  | .funbind _ rules :: funbinds =>
    Or.imp (rulesMention_mono rules) (funbindsMention_mono funbinds)

theorem recbindsMention_mono (recbinds : List (RecBind ν τ)) :
    recbindsMention False x recbinds → recbindsMention casts x recbinds :=
  match recbinds with
  | [] => id
  | .recbind _ _ body :: recbinds =>
    Or.imp body.mentions_mono (recbindsMention_mono recbinds)

theorem valbindsMention_mono (valbinds : List (ValBind ν τ)) :
    valbindsMention False x valbinds → valbindsMention casts x valbinds :=
  match valbinds with
  | [] => id
  | .valbind _ exp :: valbinds => Or.imp exp.mentions_mono (valbindsMention_mono valbinds)

theorem Decl.mentions_mono (d : Decl ν τ) : d.Mentions False x → d.Mentions casts x :=
  match d with
  | .val declList => valbindsMention_mono declList
  | .valOpaqueSig _ exp => exp.mentions_mono
  | .valTransSig _ exp => exp.mentions_mono
  | .decfun funbinds => funbindsMention_mono funbinds
  | .nonrecfun _ (.funbind _ rules) => rulesMention_mono rules
  | .valrec recbinds => recbindsMention_mono recbinds
  | .valpolyrec polyrecbinds => recbindsMention_mono polyrecbinds
  | .exntagD _ => id
  | .tycastDecl _ => fun h => h.1.elim
  | .atom _ => id

theorem declsMention_mono (declList : List (Decl ν τ)) :
    declsMention False x declList → declsMention casts x declList :=
  match declList with
  | [] => id
  | decl :: declList => Or.imp decl.mentions_mono (declsMention_mono declList)

end

end Mono

end VALRECOptimizer

end SmlSharp
