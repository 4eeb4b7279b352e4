/-
Types that the elaborators leave as they are, and bodies in which the two
substitutions agree.
-/
import SmlSharp.WithType.Occurs

namespace SmlSharp

namespace WithType

section NoNames

variable {ν : Type}

mutual

theorem Ty.mentionsAny_nil (ty : Ty ν) : ¬ ty.MentionsAny [] := by
  cases ty with
  | record ifFlex fields => simpa [Ty.MentionsAny] using mentionsAnyFields_nil fields
  | construct args tyCon => simpa [Ty.MentionsAny] using mentionsAnyTys_nil args
  | tuple tys => simpa [Ty.MentionsAny] using mentionsAnyTys_nil tys
  | func dom ran =>
    simpa [Ty.MentionsAny] using ⟨Ty.mentionsAny_nil dom, Ty.mentionsAny_nil ran⟩
  | poly tvars body =>
    simpa [Ty.MentionsAny] using
      ⟨mentionsAnyTvars_nil tvars, Ty.mentionsAny_nil body⟩
  | _ => simp [Ty.MentionsAny]

theorem mentionsAnyTys_nil (tys : List (Ty ν)) : ¬ mentionsAnyTys [] tys := by
  cases tys with
  | nil => simp [mentionsAnyTys]
  | cons ty tys =>
    simpa [mentionsAnyTys] using ⟨Ty.mentionsAny_nil ty, mentionsAnyTys_nil tys⟩

theorem mentionsAnyFields_nil (fields : List (String × Ty ν)) :
    ¬ mentionsAnyFields [] fields := by
  cases fields with
  | nil => simp [mentionsAnyFields]
  | cons field fields =>
    obtain ⟨label, ty⟩ := field
    simpa [mentionsAnyFields] using
      ⟨Ty.mentionsAny_nil ty, mentionsAnyFields_nil fields⟩

theorem TvarKind.mentionsAny_nil (kind : TvarKind ν) : ¬ kind.MentionsAny [] := by
  cases kind with
  | univ properties => simp [TvarKind.MentionsAny]
  | recKind properties fields =>
    simpa [TvarKind.MentionsAny] using mentionsAnyFields_nil fields

theorem mentionsAnyTvars_nil (tvars : List (KindedTvar ν)) :
    ¬ mentionsAnyTvars [] tvars := by
  cases tvars with
  | nil => simp [mentionsAnyTvars]
  | cons tvar tvars =>
    obtain ⟨tvar, kind⟩ := tvar
    simpa [mentionsAnyTvars] using
      ⟨TvarKind.mentionsAny_nil kind, mentionsAnyTvars_nil tvars⟩

end

end NoNames

section Fixed

variable {expandCon : TypBind → List (Ty String) → Elab (Ty String)}
  {names : List String} {subst : Subst}

mutual

/-- A type without constructors to expand and without variables to replace. -/
theorem Ty.substTyWith_fixed {subst : Subst}
    (hnames : ∀ symbol, symbol ∉ names → subst.tycon.lookup symbol = none)
    (ty : Ty String) (hcons : ¬ ty.MentionsAny names)
    (hvars : ∀ tvar ∈ ty.allVars, subst.Fixes tvar) :
    (substTyWith expandCon subst ty).1 = ty := by
  cases ty with
  | wild => rfl
  | id tvar => exact hvars tvar (by simp [Ty.allVars])
  | freeId tvar kind => rfl
  | record ifFlex fields =>
    simp only [Ty.MentionsAny] at hcons
    simp only [Ty.allVars] at hvars
    simp only [substTyWith, substFieldsWith_fixed hnames fields hcons hvars]
  | construct args tyCon =>
    simp only [Ty.MentionsAny, not_or] at hcons
    simp only [Ty.allVars] at hvars
    have hargs := substTysWith_fixed hnames args hcons.2 hvars
    match tyCon with
    | [] => simp only [substTyWith, hargs]
    | [symbol] =>
      have hnone := hnames symbol fun hmem => hcons.1 ⟨symbol, hmem, rfl⟩
      simp only [substTyWith, hnone, hargs]
    | _ :: _ :: _ => simp only [substTyWith, hargs]
  | tuple tys =>
    simp only [Ty.MentionsAny] at hcons
    simp only [Ty.allVars] at hvars
    simp only [substTyWith, substTysWith_fixed hnames tys hcons hvars]
  | func dom ran =>
    simp only [Ty.MentionsAny, not_or] at hcons
    simp only [Ty.allVars, List.forall_mem_append] at hvars
    simp only [substTyWith, Ty.substTyWith_fixed hnames dom hcons.1 hvars.1,
      Ty.substTyWith_fixed hnames ran hcons.2 hvars.2]
  | poly tvars body =>
    simp only [Ty.MentionsAny, not_or] at hcons
    simp only [Ty.allVars] at hvars
    have hinner := Subst.Fixes.mask hvars
    rw [List.forall_mem_append] at hinner
    have hnames' : ∀ symbol, symbol ∉ names →
        (maskTyvar subst tvars).tycon.lookup symbol = none := hnames
    simp only [substTyWith,
      substTvarsWith_fixed hnames' tvars hcons.1 hinner.1,
      Ty.substTyWith_fixed hnames' body hcons.2 hinner.2]

theorem substTysWith_fixed {subst : Subst}
    (hnames : ∀ symbol, symbol ∉ names → subst.tycon.lookup symbol = none)
    (tys : List (Ty String)) (hcons : ¬ mentionsAnyTys names tys)
    (hvars : ∀ tvar ∈ allVarsTys tys, subst.Fixes tvar) :
    (substTysWith expandCon subst tys).1 = tys := by
  cases tys with
  | nil => rfl
  | cons ty tys =>
    simp only [mentionsAnyTys, not_or] at hcons
    simp only [allVarsTys, List.forall_mem_append] at hvars
    simp only [substTysWith, Ty.substTyWith_fixed hnames ty hcons.1 hvars.1,
      substTysWith_fixed hnames tys hcons.2 hvars.2]

theorem substFieldsWith_fixed {subst : Subst}
    (hnames : ∀ symbol, symbol ∉ names → subst.tycon.lookup symbol = none)
    (fields : List (String × Ty String))
    (hcons : ¬ mentionsAnyFields names fields)
    (hvars : ∀ tvar ∈ allVarsFields fields, subst.Fixes tvar) :
    (substFieldsWith expandCon subst fields).1 = fields := by
  cases fields with
  | nil => rfl
  | cons field fields =>
    obtain ⟨label, ty⟩ := field
    simp only [mentionsAnyFields, not_or] at hcons
    simp only [allVarsFields, List.forall_mem_append] at hvars
    simp only [substFieldsWith, Ty.substTyWith_fixed hnames ty hcons.1 hvars.1,
      substFieldsWith_fixed hnames fields hcons.2 hvars.2]

theorem substTvarKindWith_fixed {subst : Subst}
    (hnames : ∀ symbol, symbol ∉ names → subst.tycon.lookup symbol = none)
    (kind : TvarKind String) (hcons : ¬ kind.MentionsAny names)
    (hvars : ∀ tvar ∈ kind.allVars, subst.Fixes tvar) :
    (substTvarKindWith expandCon subst kind).1 = kind := by
  cases kind with
  | univ properties => rfl
  | recKind properties fields =>
    simp only [TvarKind.MentionsAny] at hcons
    simp only [TvarKind.allVars] at hvars
    simp only [substTvarKindWith,
      substFieldsWith_fixed hnames fields hcons hvars]

theorem substTvarsWith_fixed {subst : Subst}
    (hnames : ∀ symbol, symbol ∉ names → subst.tycon.lookup symbol = none)
    (tvars : List (KindedTvar String)) (hcons : ¬ mentionsAnyTvars names tvars)
    (hvars : ∀ tvar ∈ allVarsTvars tvars, subst.Fixes tvar) :
    (substTvarsWith expandCon subst tvars).1 = tvars := by
  cases tvars with
  | nil => rfl
  | cons tvar tvars =>
    obtain ⟨tvar, kind⟩ := tvar
    simp only [mentionsAnyTvars, not_or] at hcons
    simp only [allVarsTvars, List.forall_mem_append] at hvars
    simp only [substTvarsWith,
      substTvarKindWith_fixed hnames kind hcons.1 hvars.1,
      substTvarsWith_fixed hnames tvars hcons.2 hvars.2]

end

/-- Kinds without variables to replace, where there is nothing to expand. -/
theorem substTvarsWith_kept (hcons : subst.tycon = [])
    (tvars : List (KindedTvar String))
    (hvars : ∀ tvar ∈ allVarsTvars tvars, subst.Fixes tvar) :
    (substTvarsWith expandCon subst tvars).1 = tvars := by
  have hnames : ∀ symbol, symbol ∉ ([] : List String) →
      subst.tycon.lookup symbol = none := by
    simp [hcons]
  exact substTvarsWith_fixed hnames tvars (mentionsAnyTvars_nil tvars) hvars

end Fixed

section Expand

variable {binds : List TypBind}

theorem findTypBind_none {symbol : String}
    (hnot : symbol ∉ binds.map TypBind.symbol) :
    findTypBind binds symbol = none := by
  apply List.find?_eq_none.mpr
  intro bind hbind
  have hne : bind.symbol ≠ symbol := by
    rintro rfl
    exact hnot (List.mem_map.mpr ⟨bind, hbind, rfl⟩)
  simpa using hne

mutual

/-- A type without constructors of `withtype` outside its kinds. -/
theorem Ty.expandInTy_fixed (ty : Ty String)
    (hcons : ¬ ty.Mentions (binds.map TypBind.symbol)) :
    (expandInTy binds ty).1 = ty := by
  cases ty with
  | wild => rfl
  | id tvar => rfl
  | freeId tvar kind => rfl
  | record ifFlex fields =>
    simp only [Ty.Mentions] at hcons
    simp only [expandInTy, expandInFields_fixed fields hcons]
  | construct args tyCon =>
    simp only [Ty.Mentions, not_or] at hcons
    have hargs := expandInTys_fixed args hcons.2
    match tyCon with
    | [] => simp only [expandInTy, hargs]
    | [symbol] =>
      have hnone := findTypBind_none fun hmem =>
        hcons.1 ⟨symbol, hmem, rfl⟩
      simp only [expandInTy, hnone, hargs]
    | _ :: _ :: _ => simp only [expandInTy, hargs]
  | tuple tys =>
    simp only [Ty.Mentions] at hcons
    simp only [expandInTy, expandInTys_fixed tys hcons]
  | func dom ran =>
    simp only [Ty.Mentions, not_or] at hcons
    simp only [expandInTy, Ty.expandInTy_fixed dom hcons.1,
      Ty.expandInTy_fixed ran hcons.2]
  | poly tvars body =>
    simp only [Ty.Mentions] at hcons
    simp only [expandInTy, Ty.expandInTy_fixed body hcons]

theorem expandInTys_fixed (tys : List (Ty String))
    (hcons : ¬ mentionsTys (binds.map TypBind.symbol) tys) :
    (expandInTys binds tys).1 = tys := by
  cases tys with
  | nil => rfl
  | cons ty tys =>
    simp only [mentionsTys, not_or] at hcons
    simp only [expandInTys, Ty.expandInTy_fixed ty hcons.1,
      expandInTys_fixed tys hcons.2]

theorem expandInFields_fixed (fields : List (String × Ty String))
    (hcons : ¬ mentionsFields (binds.map TypBind.symbol) fields) :
    (expandInFields binds fields).1 = fields := by
  cases fields with
  | nil => rfl
  | cons field fields =>
    obtain ⟨label, ty⟩ := field
    simp only [mentionsFields, not_or] at hcons
    simp only [expandInFields, Ty.expandInTy_fixed ty hcons.1,
      expandInFields_fixed fields hcons.2]

end

end Expand

/-! ### The body of a binding -/

/-- What the interface elaborator puts for a variable. -/
def Subst.get (subst : Subst) (tvar : Tvar String) : Ty String :=
  (subst.tyvar.lookup tvar.symbol).getD (.id tvar)

theorem Subst.get_mask {subst : Subst} {tvars : List (KindedTvar String)}
    {tvar : Tvar String} : (maskTyvar subst tvars).get tvar =
      if tvar.symbol ∈ boundNames tvars then .id tvar else subst.get tvar := by
  unfold Subst.get
  rw [lookup_mask]
  by_cases hbound : tvar.symbol ∈ boundNames tvars
  · simp [hbound]
  · simp [hbound]

section Body

variable {expandCon : TypBind → List (Ty String) → Elab (Ty String)}

mutual

/-- The two substitutions agree on a type where they agree on its variables and
nothing is put for the variables of its kinds. -/
theorem Ty.subst_agree {substFun : Tvar String → Elab (Ty String)}
    {subst : Subst} (hcons : subst.tycon = []) (ty : Ty String)
    (hvars : ∀ tvar ∈ ty.vars, (substFun tvar).1 = subst.get tvar)
    (hkinds : ∀ tvar ∈ ty.kindVars, subst.Fixes tvar) :
    (substTyVarInTy substFun ty).1 = (substTyWith expandCon subst ty).1 := by
  cases ty with
  | wild => rfl
  | id tvar => exact hvars tvar (by simp [Ty.vars])
  | freeId tvar kind => rfl
  | record ifFlex fields =>
    simp only [Ty.vars] at hvars
    simp only [Ty.kindVars] at hkinds
    simp only [substTyVarInTy, substTyWith,
      substFields_agree hcons fields hvars hkinds]
  | construct args tyCon =>
    simp only [Ty.vars] at hvars
    simp only [Ty.kindVars] at hkinds
    have hargs := substTys_agree hcons args hvars hkinds
    match tyCon with
    | [] => simp only [substTyVarInTy, substTyWith, hargs]
    | [symbol] => simp [substTyVarInTy, substTyWith, hargs, hcons]
    | _ :: _ :: _ => simp only [substTyVarInTy, substTyWith, hargs]
  | tuple tys =>
    simp only [Ty.vars] at hvars
    simp only [Ty.kindVars] at hkinds
    simp only [substTyVarInTy, substTyWith,
      substTys_agree hcons tys hvars hkinds]
  | func dom ran =>
    simp only [Ty.vars, List.forall_mem_append] at hvars
    simp only [Ty.kindVars, List.forall_mem_append] at hkinds
    simp only [substTyVarInTy, substTyWith,
      Ty.subst_agree hcons dom hvars.1 hkinds.1,
      Ty.subst_agree hcons ran hvars.2 hkinds.2]
  | poly tvars body =>
    simp only [Ty.vars] at hvars
    simp only [Ty.kindVars] at hkinds
    have hmask := Subst.Fixes.mask hkinds
    rw [List.forall_mem_append] at hmask
    have hcons' : (maskTyvar subst tvars).tycon = [] := hcons
    have hinner : ∀ tvar ∈ body.vars,
        (if tvar.symbol ∈ boundNames tvars then (Ty.id tvar, [])
          else substFun tvar).1 = (maskTyvar subst tvars).get tvar := by
      intro tvar hmem
      rw [Subst.get_mask]
      by_cases hbound : tvar.symbol ∈ boundNames tvars
      · simp [hbound]
      · simpa [hbound] using hvars tvar (mem_unbound.mpr ⟨hmem, hbound⟩)
    simp only [substTyVarInTy, substTyWith,
      substTvarsWith_kept hcons' tvars hmask.1,
      Ty.subst_agree hcons' body hinner hmask.2]

theorem substTys_agree {substFun : Tvar String → Elab (Ty String)}
    {subst : Subst} (hcons : subst.tycon = []) (tys : List (Ty String))
    (hvars : ∀ tvar ∈ varsTys tys, (substFun tvar).1 = subst.get tvar)
    (hkinds : ∀ tvar ∈ kindVarsTys tys, subst.Fixes tvar) :
    (substTyVarInTys substFun tys).1 = (substTysWith expandCon subst tys).1 := by
  cases tys with
  | nil => rfl
  | cons ty tys =>
    simp only [varsTys, List.forall_mem_append] at hvars
    simp only [kindVarsTys, List.forall_mem_append] at hkinds
    simp only [substTyVarInTys, substTysWith,
      Ty.subst_agree hcons ty hvars.1 hkinds.1,
      substTys_agree hcons tys hvars.2 hkinds.2]

theorem substFields_agree {substFun : Tvar String → Elab (Ty String)}
    {subst : Subst} (hcons : subst.tycon = []) (fields : List (String × Ty String))
    (hvars : ∀ tvar ∈ varsFields fields, (substFun tvar).1 = subst.get tvar)
    (hkinds : ∀ tvar ∈ kindVarsFields fields, subst.Fixes tvar) :
    (substTyVarInFields substFun fields).1 =
      (substFieldsWith expandCon subst fields).1 := by
  cases fields with
  | nil => rfl
  | cons field fields =>
    obtain ⟨label, ty⟩ := field
    simp only [varsFields, List.forall_mem_append] at hvars
    simp only [kindVarsFields, List.forall_mem_append] at hkinds
    simp only [substTyVarInFields, substFieldsWith,
      Ty.subst_agree hcons ty hvars.1 hkinds.1,
      substFields_agree hcons fields hvars.2 hkinds.2]

end

end Body

end WithType

end SmlSharp
