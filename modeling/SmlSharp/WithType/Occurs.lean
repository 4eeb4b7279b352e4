/-
Where variables and constructors of `withtype` occur in a type, and what the
two substitutions do to types without them.
-/
import SmlSharp.WithType.Expand

namespace SmlSharp

namespace WithType

/-! ### Variables -/

/-- The variables that a binder does not capture. -/
def unbound (tvars : List (KindedTvar String)) (found : List (Tvar String)) :
    List (Tvar String) :=
  found.filter fun tvar => tvar.symbol ∉ boundNames tvars

theorem mem_unbound {tvars : List (KindedTvar String)}
    {found : List (Tvar String)} {tvar : Tvar String} :
    tvar ∈ unbound tvars found ↔
      tvar ∈ found ∧ tvar.symbol ∉ boundNames tvars := by
  simp [unbound]

mutual

/-- All free variables of a type, those in kinds included. -/
def Ty.allVars : Ty String → List (Tvar String)
  | .wild => []
  | .id tvar => [tvar]
  | .freeId _ _ => []
  | .record _ fields => allVarsFields fields
  | .construct args _ => allVarsTys args
  | .tuple tys => allVarsTys tys
  | .func dom ran => dom.allVars ++ ran.allVars
  | .poly tvars body => unbound tvars (allVarsTvars tvars ++ body.allVars)

def allVarsTys : List (Ty String) → List (Tvar String)
  | [] => []
  | ty :: tys => ty.allVars ++ allVarsTys tys

def allVarsFields : List (String × Ty String) → List (Tvar String)
  | [] => []
  | (_, ty) :: fields => ty.allVars ++ allVarsFields fields

def TvarKind.allVars : TvarKind String → List (Tvar String)
  | .univ _ => []
  | .recKind _ fields => allVarsFields fields

def allVarsTvars : List (KindedTvar String) → List (Tvar String)
  | [] => []
  | (_, kind) :: tvars => kind.allVars ++ allVarsTvars tvars

end

mutual

/-- The free variables of a type outside the kinds of its bound variables. -/
def Ty.vars : Ty String → List (Tvar String)
  | .wild => []
  | .id tvar => [tvar]
  | .freeId _ _ => []
  | .record _ fields => varsFields fields
  | .construct args _ => varsTys args
  | .tuple tys => varsTys tys
  | .func dom ran => dom.vars ++ ran.vars
  | .poly tvars body => unbound tvars body.vars

def varsTys : List (Ty String) → List (Tvar String)
  | [] => []
  | ty :: tys => ty.vars ++ varsTys tys

def varsFields : List (String × Ty String) → List (Tvar String)
  | [] => []
  | (_, ty) :: fields => ty.vars ++ varsFields fields

end

mutual

/-- The free variables of a type in the kinds of its bound variables. -/
def Ty.kindVars : Ty String → List (Tvar String)
  | .wild => []
  | .id _ => []
  | .freeId _ _ => []
  | .record _ fields => kindVarsFields fields
  | .construct args _ => kindVarsTys args
  | .tuple tys => kindVarsTys tys
  | .func dom ran => dom.kindVars ++ ran.kindVars
  | .poly tvars body => unbound tvars (allVarsTvars tvars ++ body.kindVars)

def kindVarsTys : List (Ty String) → List (Tvar String)
  | [] => []
  | ty :: tys => ty.kindVars ++ kindVarsTys tys

def kindVarsFields : List (String × Ty String) → List (Tvar String)
  | [] => []
  | (_, ty) :: fields => ty.kindVars ++ kindVarsFields fields

end

/-! ### Constructors -/

section Mentions

variable {ν : Type} (names : List String)

mutual

/-- A type applies one of the named constructors, outside the kinds of its bound
variables. -/
def Ty.Mentions : Ty ν → Prop
  | .wild => False
  | .id _ => False
  | .freeId _ _ => False
  | .record _ fields => mentionsFields fields
  | .construct args tyCon => (∃ name ∈ names, tyCon = [name]) ∨ mentionsTys args
  | .tuple tys => mentionsTys tys
  | .func dom ran => Ty.Mentions dom ∨ Ty.Mentions ran
  | .poly _ body => Ty.Mentions body

def mentionsTys : List (Ty ν) → Prop
  | [] => False
  | ty :: tys => Ty.Mentions ty ∨ mentionsTys tys

def mentionsFields : List (String × Ty ν) → Prop
  | [] => False
  | (_, ty) :: fields => Ty.Mentions ty ∨ mentionsFields fields

end

mutual

/-- A type applies one of the named constructors, in the kinds of its bound
variables or outside them. -/
def Ty.MentionsAny : Ty ν → Prop
  | .wild => False
  | .id _ => False
  | .freeId _ _ => False
  | .record _ fields => mentionsAnyFields fields
  | .construct args tyCon =>
    (∃ name ∈ names, tyCon = [name]) ∨ mentionsAnyTys args
  | .tuple tys => mentionsAnyTys tys
  | .func dom ran => Ty.MentionsAny dom ∨ Ty.MentionsAny ran
  | .poly tvars body => mentionsAnyTvars tvars ∨ Ty.MentionsAny body

def mentionsAnyTys : List (Ty ν) → Prop
  | [] => False
  | ty :: tys => Ty.MentionsAny ty ∨ mentionsAnyTys tys

def mentionsAnyFields : List (String × Ty ν) → Prop
  | [] => False
  | (_, ty) :: fields => Ty.MentionsAny ty ∨ mentionsAnyFields fields

def TvarKind.MentionsAny : TvarKind ν → Prop
  | .univ _ => False
  | .recKind _ fields => mentionsAnyFields fields

def mentionsAnyTvars : List (KindedTvar ν) → Prop
  | [] => False
  | (_, kind) :: tvars => kind.MentionsAny ∨ mentionsAnyTvars tvars

end

end Mentions

theorem mentionsTys_iff {ν : Type} {names : List String} {tys : List (Ty ν)} :
    mentionsTys names tys ↔ ∃ ty ∈ tys, ty.Mentions names := by
  induction tys with
  | nil => simp [mentionsTys]
  | cons ty tys ih => simp [mentionsTys, ih]

section Canon

variable {names : List String}

mutual

theorem Ty.mentions_canon (ctx : List String) (ty : Ty String) :
    (ty.canon ctx).Mentions names ↔ ty.Mentions names := by
  cases ty with
  | record ifFlex fields =>
    simp only [Ty.canon, Ty.Mentions, mentionsFields_canon ctx fields]
  | construct args tyCon =>
    simp only [Ty.canon, Ty.Mentions, mentionsTys_canon ctx args]
  | tuple tys => simp only [Ty.canon, Ty.Mentions, mentionsTys_canon ctx tys]
  | func dom ran =>
    simp only [Ty.canon, Ty.Mentions, Ty.mentions_canon ctx dom,
      Ty.mentions_canon ctx ran]
  | poly tvars body => simp only [Ty.canon, Ty.Mentions, Ty.mentions_canon _ body]
  | _ => simp only [Ty.canon, Ty.Mentions]

theorem mentionsTys_canon (ctx : List String) (tys : List (Ty String)) :
    mentionsTys names (canonTys ctx tys) ↔ mentionsTys names tys := by
  cases tys with
  | nil => rfl
  | cons ty tys =>
    simp only [canonTys, mentionsTys, Ty.mentions_canon ctx ty,
      mentionsTys_canon ctx tys]

theorem mentionsFields_canon (ctx : List String)
    (fields : List (String × Ty String)) :
    mentionsFields names (canonFields ctx fields) ↔
      mentionsFields names fields := by
  cases fields with
  | nil => rfl
  | cons field fields =>
    obtain ⟨label, ty⟩ := field
    simp only [canonFields, mentionsFields, Ty.mentions_canon ctx ty,
      mentionsFields_canon ctx fields]

end

end Canon

/-! ### Substitutions that change nothing -/

/-- A substitution of the interface elaborator leaves a variable alone. -/
def Subst.Fixes (subst : Subst) (tvar : Tvar String) : Prop :=
  (subst.tyvar.lookup tvar.symbol).getD (.id tvar) = .id tvar

theorem lookup_mask {subst : Subst} {tvars : List (KindedTvar String)}
    {symbol : String} : (maskTyvar subst tvars).tyvar.lookup symbol =
      if symbol ∈ boundNames tvars then none else subst.tyvar.lookup symbol := by
  simp only [maskTyvar]
  induction subst.tyvar with
  | nil => simp
  | cons entry rest ih =>
    obtain ⟨name, ty⟩ := entry
    by_cases hbound : name ∈ boundNames tvars
    · rw [List.filter_cons_of_neg (by simpa using hbound), ih]
      by_cases hname : symbol = name
      · subst hname
        rw [if_pos hbound, if_pos hbound]
      · have hbeq : (symbol == name) = false := by simpa using hname
        simp only [List.lookup_cons, hbeq]
    · rw [List.filter_cons_of_pos (by simpa using hbound)]
      by_cases hname : symbol = name
      · subst hname
        simp [hbound]
      · have hbeq : (symbol == name) = false := by simpa using hname
        simp only [List.lookup_cons, hbeq, ih]

theorem Subst.Fixes.mask {subst : Subst} {tvars : List (KindedTvar String)}
    {found : List (Tvar String)}
    (hfixes : ∀ tvar ∈ unbound tvars found, subst.Fixes tvar) :
    ∀ tvar ∈ found, (maskTyvar subst tvars).Fixes tvar := by
  intro tvar hmem
  unfold Subst.Fixes
  rw [lookup_mask]
  by_cases hbound : tvar.symbol ∈ boundNames tvars
  · simp [hbound]
  · simpa [hbound, Subst.Fixes] using hfixes tvar (mem_unbound.mpr ⟨hmem, hbound⟩)

end WithType

end SmlSharp
