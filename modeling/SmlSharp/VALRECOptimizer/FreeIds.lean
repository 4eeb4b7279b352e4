/-
The free variables that the optimizer finds, and the variables that are mentioned.
-/
import SmlSharp.VALRECOptimizer.Syntax

namespace SmlSharp

namespace VALRECOptimizer

variable {τ : Type}

/-! ### VALREC_Utils -/

mutual

/-- The identifiers that a pattern binds. -/
def getFreeIdsInPat : Pat τ → Finset Nat
  | .atom _ => ∅
  | .varTrans id => {id}
  | .varOpaque id => {id}
  | .construct _ arg => getFreeIdsInPat arg
  | .record fields => getFreeIdsInPatList fields
  | .layered id pat => insert id (getFreeIdsInPat pat)
  | .typed pat _ => getFreeIdsInPat pat

def getFreeIdsInPatList : List (Pat τ) → Finset Nat
  | [] => ∅
  | pat :: patList => getFreeIdsInPat pat ∪ getFreeIdsInPatList patList

end

def getBoundIdsInBindList : List (ValBind Empty τ) → Finset Nat
  | [] => ∅
  | .valbind pat _ :: bindList => getFreeIdsInPat pat ∪ getBoundIdsInBindList bindList

def getBoundIdsInRecBinds (bindList : List (RecBind Empty τ)) : Finset Nat :=
  (bindList.map RecBind.id).toFinset

def getBoundIdsInFundeclList (fundecls : List (FunBind Empty τ)) : Finset Nat :=
  (fundecls.map FunBind.id).toFinset

def getBoundIdsInDecl : Decl Empty τ → Finset Nat
  | .val bindList => getBoundIdsInBindList bindList
  | .valOpaqueSig var _ => {var}
  | .valTransSig var _ => {var}
  | .decfun funbinds => getBoundIdsInFundeclList funbinds
  | .valrec recbinds => getBoundIdsInRecBinds recbinds
  | .valpolyrec recbinds => getBoundIdsInRecBinds recbinds
  | .exntagD _ => ∅
  | .tycastDecl _ => ∅
  | .atom _ => ∅

def getBoundIdsInDeclList : List (Decl Empty τ) → Finset Nat
  | [] => ∅
  | decl :: declList => getBoundIdsInDecl decl ∪ getBoundIdsInDeclList declList

mutual

def getFreeIdsInExp : Exp Empty τ → Finset Nat
  | .atom _ => ∅
  | .var id => {id}
  | .typed exp => getFreeIdsInExp exp
  | .interfaceTyped exp => getFreeIdsInExp exp
  | .appm funExp argExpList => getFreeIdsInExp funExp ∪ getFreeIdsInExpList argExpList
  | .appmNounify funExp argExpList => getFreeIdsInExp funExp ∪ getFreeIdsInExpList argExpList
  | .letExp localDeclList mainExp =>
    getFreeIdsInDeclList ∅ ∅ localDeclList ∪
      getFreeIdsInExp mainExp \ getBoundIdsInDeclList localDeclList
  | .tycast exp => getFreeIdsInExp exp
  | .record elementList => getFreeIdsInExpList elementList
  | .raiseExp exp => getFreeIdsInExp exp
  | .handle handler matchList => getFreeIdsInExp handler ∪ getFreeIdsInRule matchList
  | .fnm matchList => getFreeIdsInRule matchList
  | .fnm1 vars exp => getFreeIdsInExp exp \ vars.toFinset
  | .fnm1Poly vars exp => getFreeIdsInExp exp \ vars.toFinset
  | .casem selectorList matchList => getFreeIdsInExpList selectorList ∪ getFreeIdsInRule matchList
  | .dynamicCase selector matchList => getFreeIdsInExp selector ∪ getFreeIdsInRule matchList
  | .recordUpdate exp elementList => getFreeIdsInExp exp ∪ getFreeIdsInExpList elementList
  | .recordUpdate2 exp1 exp2 => getFreeIdsInExp exp1 ∪ getFreeIdsInExp exp2
  | .select exp => getFreeIdsInExp exp
  | .seq expList => getFreeIdsInExpList expList
  | .ffiImport ffiFun => getFreeIdsInExp ffiFun
  | .sqlSchema tyFnExp => getFreeIdsInExp tyFnExp
  | .join exp1 exp2 => getFreeIdsInExp exp1 ∪ getFreeIdsInExp exp2
  | .dynamic exp => getFreeIdsInExp exp
  | .dynamicIs exp => getFreeIdsInExp exp
  | .dynamicView exp => getFreeIdsInExp exp
termination_by structural x => x

def getFreeIdsInExpList : List (Exp Empty τ) → Finset Nat
  | [] => ∅
  | exp :: expList => getFreeIdsInExp exp ∪ getFreeIdsInExpList expList
termination_by structural x => x

def getFreeIdsInRule : List (Rule Empty τ) → Finset Nat
  | [] => ∅
  | .rule args body :: rules =>
    getFreeIdsInExp body \ getFreeIdsInPatList args ∪ getFreeIdsInRule rules
termination_by structural x => x

/-- The free variables of the rules of the functions, from which
`getFreeIdsInFundeclList` takes the functions. -/
def getFreeIdsInFunbinds : List (FunBind Empty τ) → Finset Nat
  | [] => ∅
  | .funbind _ rules :: funbinds => getFreeIdsInRule rules ∪ getFreeIdsInFunbinds funbinds
termination_by structural x => x

/-- The identifiers of the bindings so far are not free in the later ones. -/
def getFreeIdsInRecBinds (freeIds boundIds : Finset Nat) : List (RecBind Empty τ) → Finset Nat
  | [] => freeIds
  | .recbind varInfo _ body :: bindList =>
    getFreeIdsInRecBinds (freeIds ∪ getFreeIdsInExp body \ boundIds) (insert varInfo boundIds)
      bindList
termination_by structural x => x

def getFreeIdsInBindList (freeIds boundIds : Finset Nat) : List (ValBind Empty τ) → Finset Nat
  | [] => freeIds
  | .valbind pat exp :: bindList =>
    getFreeIdsInBindList (freeIds ∪ getFreeIdsInExp exp \ boundIds)
      (boundIds ∪ getFreeIdsInPat pat) bindList
termination_by structural x => x

/-- The free identifiers of a declaration; in a group they are taken without
those it binds. -/
def getFreeIdsInDecl : Decl Empty τ → Finset Nat
  | .val bindList => getFreeIdsInBindList ∅ ∅ bindList
  | .valOpaqueSig _ exp => getFreeIdsInExp exp
  | .valTransSig _ exp => getFreeIdsInExp exp
  | .decfun funbinds => getFreeIdsInFunbinds funbinds \ getBoundIdsInFundeclList funbinds
  | .valrec recbinds => getFreeIdsInRecBinds ∅ ∅ recbinds \ getBoundIdsInRecBinds recbinds
  | .valpolyrec recbinds => getFreeIdsInRecBinds ∅ ∅ recbinds \ getBoundIdsInRecBinds recbinds
  | .exntagD varInfo => {varInfo}
  | .tycastDecl _ => ∅
  | .atom _ => ∅
termination_by structural x => x

def getFreeIdsInDeclList (freeIds boundIds : Finset Nat) : List (Decl Empty τ) → Finset Nat
  | [] => freeIds
  | decl :: declList =>
    getFreeIdsInDeclList (freeIds ∪ getFreeIdsInDecl decl \ boundIds)
      (boundIds ∪ getBoundIdsInDecl decl) declList
termination_by structural x => x

end

/-! ### Bound variables -/

section Binds

variable (x : Nat)

mutual

/-- The variable is bound somewhere in the expression. -/
def Exp.Binds : Exp Empty τ → Prop
  | .atom _ => False
  | .var _ => False
  | .typed exp => exp.Binds
  | .interfaceTyped exp => exp.Binds
  | .appm funExp argExpList => funExp.Binds ∨ expsBind argExpList
  | .appmNounify funExp argExpList => funExp.Binds ∨ expsBind argExpList
  | .letExp localDeclList mainExp => declsBind localDeclList ∨ mainExp.Binds
  | .tycast exp => exp.Binds
  | .record elementList => expsBind elementList
  | .raiseExp exp => exp.Binds
  | .handle handler matchList => handler.Binds ∨ rulesBind matchList
  | .fnm matchList => rulesBind matchList
  | .fnm1 vars exp => x ∈ vars ∨ exp.Binds
  | .fnm1Poly vars exp => x ∈ vars ∨ exp.Binds
  | .casem selectorList matchList => expsBind selectorList ∨ rulesBind matchList
  | .dynamicCase selector matchList => selector.Binds ∨ rulesBind matchList
  | .recordUpdate exp elementList => exp.Binds ∨ expsBind elementList
  | .recordUpdate2 exp1 exp2 => exp1.Binds ∨ exp2.Binds
  | .select exp => exp.Binds
  | .seq expList => expsBind expList
  | .ffiImport ffiFun => ffiFun.Binds
  | .sqlSchema tyFnExp => tyFnExp.Binds
  | .join exp1 exp2 => exp1.Binds ∨ exp2.Binds
  | .dynamic exp => exp.Binds
  | .dynamicIs exp => exp.Binds
  | .dynamicView exp => exp.Binds

def expsBind : List (Exp Empty τ) → Prop
  | [] => False
  | exp :: expList => exp.Binds ∨ expsBind expList

def rulesBind : List (Rule Empty τ) → Prop
  | [] => False
  | .rule args body :: rules => x ∈ getFreeIdsInPatList args ∨ body.Binds ∨ rulesBind rules

def funbindsBind : List (FunBind Empty τ) → Prop
  | [] => False
  | .funbind funVarInfo rules :: funbinds =>
    x = funVarInfo ∨ rulesBind rules ∨ funbindsBind funbinds

def recbindsBind : List (RecBind Empty τ) → Prop
  | [] => False
  | .recbind varInfo _ body :: recbinds => x = varInfo ∨ body.Binds ∨ recbindsBind recbinds

def valbindsBind : List (ValBind Empty τ) → Prop
  | [] => False
  | .valbind pat exp :: valbinds =>
    x ∈ getFreeIdsInPat pat ∨ exp.Binds ∨ valbindsBind valbinds

def Decl.Binds : Decl Empty τ → Prop
  | .val declList => valbindsBind declList
  | .valOpaqueSig var exp => x = var ∨ exp.Binds
  | .valTransSig var exp => x = var ∨ exp.Binds
  | .decfun funbinds => funbindsBind funbinds
  | .valrec recbinds => recbindsBind recbinds
  | .valpolyrec polyrecbinds => recbindsBind polyrecbinds
  | .exntagD _ => False
  | .tycastDecl declList => declsBind declList
  | .atom _ => False

/-- Some declaration of the list binds `x`, at whatever depth. -/
def declsBind : List (Decl Empty τ) → Prop
  | [] => False
  | decl :: declList => decl.Binds ∨ declsBind declList

end

end Binds

/-! ### What is found -/

section Found

variable {x : Nat}

theorem mem_union_congr {s t : Finset Nat} {P Q : Prop} (hs : x ∈ s ↔ P) (ht : x ∈ t ↔ Q) :
    x ∈ s ∪ t ↔ P ∨ Q := Finset.mem_union.trans (or_congr hs ht)

theorem mem_sdiff_congr {s t : Finset Nat} {P : Prop} (hs : x ∈ s ↔ P) (ht : x ∉ t) :
    x ∈ s \ t ↔ P := by
  rw [Finset.mem_sdiff, hs]
  exact and_iff_left ht

theorem not_mem_boundIds_bindList {bindList : List (ValBind Empty τ)}
    (h : ¬ valbindsBind x bindList) : x ∉ getBoundIdsInBindList bindList := by
  induction bindList with
  | nil => exact Finset.notMem_empty x
  | cons valbind bindList ih =>
    cases valbind with
    | valbind pat exp =>
      simp only [valbindsBind, not_or] at h
      rw [getBoundIdsInBindList, Finset.mem_union, not_or]
      exact ⟨h.1, ih h.2.2⟩

theorem not_mem_boundIds_fundecls {funbinds : List (FunBind Empty τ)}
    (h : ¬ funbindsBind x funbinds) : x ∉ getBoundIdsInFundeclList funbinds := by
  induction funbinds with
  | nil => exact Finset.notMem_empty x
  | cons funbind funbinds ih =>
    cases funbind with
    | funbind funVarInfo rules =>
      simp only [funbindsBind, not_or] at h
      have hrest := ih h.2.2
      simp only [getBoundIdsInFundeclList, List.map_cons, List.toFinset_cons,
        Finset.mem_insert, not_or] at hrest ⊢
      exact ⟨h.1, hrest⟩

theorem not_mem_boundIds_recBinds {recbinds : List (RecBind Empty τ)}
    (h : ¬ recbindsBind x recbinds) : x ∉ getBoundIdsInRecBinds recbinds := by
  induction recbinds with
  | nil => exact Finset.notMem_empty x
  | cons recbind recbinds ih =>
    cases recbind with
    | recbind varInfo tyList body =>
      simp only [recbindsBind, not_or] at h
      have hrest := ih h.2.2
      simp only [getBoundIdsInRecBinds, List.map_cons, List.toFinset_cons,
        Finset.mem_insert, not_or] at hrest ⊢
      exact ⟨h.1, hrest⟩

/-- An identifier that is bound nowhere is not among those a declaration binds.
-/
theorem not_mem_boundIds_decl {decl : Decl Empty τ} (h : ¬ decl.Binds x) :
    x ∉ getBoundIdsInDecl decl := by
  cases decl with
  | val declList => exact not_mem_boundIds_bindList h
  | valOpaqueSig var exp => exact fun hmem => h (Or.inl (Finset.mem_singleton.mp hmem))
  | valTransSig var exp => exact fun hmem => h (Or.inl (Finset.mem_singleton.mp hmem))
  | decfun funbinds => exact not_mem_boundIds_fundecls h
  | nonrecfun made funbind => exact made.elim
  | valrec recbinds => exact not_mem_boundIds_recBinds h
  | valpolyrec polyrecbinds => exact not_mem_boundIds_recBinds h
  | exntagD varInfo => exact Finset.notMem_empty x
  | tycastDecl declList => exact Finset.notMem_empty x
  | atom form => exact Finset.notMem_empty x

theorem not_mem_boundIds_declList {declList : List (Decl Empty τ)}
    (h : ¬ declsBind x declList) : x ∉ getBoundIdsInDeclList declList := by
  induction declList with
  | nil => exact Finset.notMem_empty x
  | cons decl declList ih =>
    rw [declsBind, not_or] at h
    rw [getBoundIdsInDeclList, Finset.mem_union, not_or]
    exact ⟨not_mem_boundIds_decl h.1, ih h.2⟩

mutual

/-- A variable that is not bound in the expression is found if it is mentioned outside
of local declarations with type casts. -/
theorem mem_freeIds_exp (e : Exp Empty τ) (h : ¬ e.Binds x) :
    x ∈ getFreeIdsInExp e ↔ e.Mentions False x := by
  match e with
  | .atom _ => exact iff_of_false (Finset.notMem_empty x) id
  | .var id => exact Finset.mem_singleton
  | .typed exp => exact mem_freeIds_exp exp h
  | .interfaceTyped exp => exact mem_freeIds_exp exp h
  | .appm funExp argExpList =>
    have h := not_or.mp h
    exact mem_union_congr (mem_freeIds_exp funExp h.1) (mem_freeIds_expList argExpList h.2)
  | .appmNounify funExp argExpList =>
    have h := not_or.mp h
    exact mem_union_congr (mem_freeIds_exp funExp h.1) (mem_freeIds_expList argExpList h.2)
  | .letExp localDeclList mainExp =>
    have h := not_or.mp h
    have hdecls := mem_freeIds_declList localDeclList ∅ ∅ h.1 (Finset.notMem_empty x)
    exact mem_union_congr (hdecls.trans (or_iff_right (Finset.notMem_empty x)))
      (mem_sdiff_congr (mem_freeIds_exp mainExp h.2) (not_mem_boundIds_declList h.1))
  | .tycast exp => exact mem_freeIds_exp exp h
  | .record elementList => exact mem_freeIds_expList elementList h
  | .raiseExp exp => exact mem_freeIds_exp exp h
  | .handle handler matchList =>
    have h := not_or.mp h
    exact mem_union_congr (mem_freeIds_exp handler h.1) (mem_freeIds_rule matchList h.2)
  | .fnm matchList => exact mem_freeIds_rule matchList h
  | .fnm1 vars exp =>
    have h := not_or.mp h
    exact mem_sdiff_congr (mem_freeIds_exp exp h.2) (by simpa using h.1)
  | .fnm1Poly vars exp =>
    have h := not_or.mp h
    exact mem_sdiff_congr (mem_freeIds_exp exp h.2) (by simpa using h.1)
  | .casem selectorList matchList =>
    have h := not_or.mp h
    exact mem_union_congr (mem_freeIds_expList selectorList h.1) (mem_freeIds_rule matchList h.2)
  | .dynamicCase selector matchList =>
    have h := not_or.mp h
    exact mem_union_congr (mem_freeIds_exp selector h.1) (mem_freeIds_rule matchList h.2)
  | .recordUpdate exp elementList =>
    have h := not_or.mp h
    exact mem_union_congr (mem_freeIds_exp exp h.1) (mem_freeIds_expList elementList h.2)
  | .recordUpdate2 exp1 exp2 =>
    have h := not_or.mp h
    exact mem_union_congr (mem_freeIds_exp exp1 h.1) (mem_freeIds_exp exp2 h.2)
  | .select exp => exact mem_freeIds_exp exp h
  | .seq expList => exact mem_freeIds_expList expList h
  | .ffiImport ffiFun => exact mem_freeIds_exp ffiFun h
  | .sqlSchema tyFnExp => exact mem_freeIds_exp tyFnExp h
  | .join exp1 exp2 =>
    have h := not_or.mp h
    exact mem_union_congr (mem_freeIds_exp exp1 h.1) (mem_freeIds_exp exp2 h.2)
  | .dynamic exp => exact mem_freeIds_exp exp h
  | .dynamicIs exp => exact mem_freeIds_exp exp h
  | .dynamicView exp => exact mem_freeIds_exp exp h

theorem mem_freeIds_expList (expList : List (Exp Empty τ)) (h : ¬ expsBind x expList) :
    x ∈ getFreeIdsInExpList expList ↔ expsMention False x expList := by
  match expList with
  | [] => exact iff_of_false (Finset.notMem_empty x) id
  | exp :: expList =>
    have h := not_or.mp h
    exact mem_union_congr (mem_freeIds_exp exp h.1) (mem_freeIds_expList expList h.2)

theorem mem_freeIds_rule (rules : List (Rule Empty τ)) (h : ¬ rulesBind x rules) :
    x ∈ getFreeIdsInRule rules ↔ rulesMention False x rules := by
  match rules with
  | [] => exact iff_of_false (Finset.notMem_empty x) id
  | .rule args body :: rules =>
    have h := not_or.mp h
    have hrest := not_or.mp h.2
    exact mem_union_congr (mem_sdiff_congr (mem_freeIds_exp body hrest.1) h.1)
      (mem_freeIds_rule rules hrest.2)

theorem mem_freeIds_funbinds (funbinds : List (FunBind Empty τ)) (h : ¬ funbindsBind x funbinds) :
    x ∈ getFreeIdsInFunbinds funbinds ↔ funbindsMention False x funbinds := by
  match funbinds with
  | [] => exact iff_of_false (Finset.notMem_empty x) id
  | .funbind funVarInfo rules :: funbinds =>
    have h := not_or.mp h
    have hrest := not_or.mp h.2
    exact mem_union_congr (mem_freeIds_rule rules hrest.1)
      (mem_freeIds_funbinds funbinds hrest.2)

theorem mem_freeIds_recBinds (recbinds : List (RecBind Empty τ)) (freeIds boundIds : Finset Nat)
    (h : ¬ recbindsBind x recbinds) (hbound : x ∉ boundIds) :
    x ∈ getFreeIdsInRecBinds freeIds boundIds recbinds ↔
      x ∈ freeIds ∨ recbindsMention False x recbinds := by
  match recbinds with
  | [] => exact (or_iff_left id).symm
  | .recbind varInfo tyList body :: recbinds =>
    have h := not_or.mp h
    have hrest := not_or.mp h.2
    have hhead := mem_union_congr (Iff.rfl : x ∈ freeIds ↔ x ∈ freeIds)
      (mem_sdiff_congr (mem_freeIds_exp body hrest.1) hbound)
    have htail := mem_freeIds_recBinds recbinds (freeIds ∪ getFreeIdsInExp body \ boundIds)
      (insert varInfo boundIds) hrest.2 (by simp [h.1, hbound])
    exact (htail.trans (or_congr_left hhead)).trans or_assoc

theorem mem_freeIds_bindList (bindList : List (ValBind Empty τ)) (freeIds boundIds : Finset Nat)
    (h : ¬ valbindsBind x bindList) (hbound : x ∉ boundIds) :
    x ∈ getFreeIdsInBindList freeIds boundIds bindList ↔
      x ∈ freeIds ∨ valbindsMention False x bindList := by
  match bindList with
  | [] => exact (or_iff_left id).symm
  | .valbind pat exp :: bindList =>
    have h := not_or.mp h
    have hrest := not_or.mp h.2
    have hhead := mem_union_congr (Iff.rfl : x ∈ freeIds ↔ x ∈ freeIds)
      (mem_sdiff_congr (mem_freeIds_exp exp hrest.1) hbound)
    have htail := mem_freeIds_bindList bindList (freeIds ∪ getFreeIdsInExp exp \ boundIds)
      (boundIds ∪ getFreeIdsInPat pat) hrest.2 (by simp [h.1, hbound])
    exact (htail.trans (or_congr_left hhead)).trans or_assoc

/-- Where an identifier is bound nowhere, it is free exactly where it is
mentioned outside casts. -/
theorem mem_freeIds_decl (decl : Decl Empty τ) (h : ¬ decl.Binds x) :
    x ∈ getFreeIdsInDecl decl ↔ decl.Mentions False x := by
  match decl with
  | .val bindList =>
    exact (mem_freeIds_bindList bindList ∅ ∅ h (Finset.notMem_empty x)).trans
      (or_iff_right (Finset.notMem_empty x))
  | .valOpaqueSig var exp => exact mem_freeIds_exp exp (not_or.mp h).2
  | .valTransSig var exp => exact mem_freeIds_exp exp (not_or.mp h).2
  | .decfun funbinds =>
    exact mem_sdiff_congr (mem_freeIds_funbinds funbinds h) (not_mem_boundIds_fundecls h)
  | .valrec recbinds =>
    have hfree := mem_freeIds_recBinds recbinds ∅ ∅ h (Finset.notMem_empty x)
    exact mem_sdiff_congr (hfree.trans (or_iff_right (Finset.notMem_empty x)))
      (not_mem_boundIds_recBinds h)
  | .valpolyrec recbinds =>
    have hfree := mem_freeIds_recBinds recbinds ∅ ∅ h (Finset.notMem_empty x)
    exact mem_sdiff_congr (hfree.trans (or_iff_right (Finset.notMem_empty x)))
      (not_mem_boundIds_recBinds h)
  | .exntagD varInfo => exact Finset.mem_singleton
  | .tycastDecl declList => exact iff_of_false (Finset.notMem_empty x) And.left
  | .atom _ => exact iff_of_false (Finset.notMem_empty x) id

theorem mem_freeIds_declList (declList : List (Decl Empty τ)) (freeIds boundIds : Finset Nat)
    (h : ¬ declsBind x declList) (hbound : x ∉ boundIds) :
    x ∈ getFreeIdsInDeclList freeIds boundIds declList ↔
      x ∈ freeIds ∨ declsMention False x declList := by
  match declList with
  | [] => exact (or_iff_left id).symm
  | decl :: declList =>
    have h := not_or.mp h
    have hbind := not_mem_boundIds_decl h.1
    have hhead := mem_union_congr (Iff.rfl : x ∈ freeIds ↔ x ∈ freeIds)
      (mem_sdiff_congr (mem_freeIds_decl decl h.1) hbound)
    have htail := mem_freeIds_declList declList (freeIds ∪ getFreeIdsInDecl decl \ boundIds)
      (boundIds ∪ getBoundIdsInDecl decl) h.2 (by simp [hbind, hbound])
    exact (htail.trans (or_congr_left hhead)).trans or_assoc

end

end Found

end VALRECOptimizer

end SmlSharp
