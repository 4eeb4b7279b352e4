/-
Where the two elaborators must agree: types that come out the same up to the
names of bound variables leave nothing to be expanded.
-/
import SmlSharp.WithType.Agree

namespace SmlSharp

namespace WithType

/-! ### Substitution up to renaming -/

variable {ctx : List String} {subst : Subst} {datbind : List DatBind} {withType : List TypBind}

theorem canon_eq_id {tvar : Tvar String} {ty : Ty String}
    (heq : (Ty.id tvar).canon ctx = ty.canon ctx) : ty = .id tvar := by
  cases ty with
  | id other =>
    have htvar : canonTvar ctx tvar = canonTvar ctx other := by
      simpa [Ty.canon] using heq
    rw [canonTvar_injective htvar]
  | _ => simp [Ty.canon] at heq

theorem Subst.Fixes.of_mask {tvars : List (KindedTvar String)}
    {found : List (Tvar String)}
    (hfixes : ∀ tvar ∈ found, (maskTyvar subst tvars).Fixes tvar) :
    ∀ tvar ∈ unbound tvars found, subst.Fixes tvar := by
  intro tvar hmem
  obtain ⟨hfound, hfree⟩ := mem_unbound.mp hmem
  have hfix := hfixes tvar hfound
  unfold Subst.Fixes at hfix ⊢
  rwa [lookup_mask, if_neg hfree] at hfix

section Kinds

variable {expandCon : TypBind → List (Ty String) → Elab (Ty String)}

theorem substTvarsWith_names (subst : Subst) (tvars : List (KindedTvar String)) :
    boundNames (substTvarsWith expandCon subst tvars).1 = boundNames tvars := by
  induction tvars with
  | nil => rfl
  | cons tvar tvars ih =>
    simp only [boundNames] at ih
    simp [substTvarsWith, boundNames, ih]

mutual

/-- A substitution of variables that changes nothing up to renaming leaves every
variable alone. -/
theorem Ty.fixes_of_canon {subst : Subst} (hcons : subst.tycon = [])
    {ctx : List String} (ty : Ty String)
    (heq : ty.canon ctx = (substTyWith expandCon subst ty).1.canon ctx) :
    ∀ tvar ∈ ty.allVars, subst.Fixes tvar := by
  cases ty with
  | wild => simp [Ty.allVars]
  | id tvar =>
    simp only [Ty.allVars, List.mem_singleton, forall_eq]
    exact canon_eq_id heq
  | freeId tvar kind => simp [Ty.allVars]
  | record ifFlex fields =>
    simp only [substTyWith, Ty.canon, Ty.record.injEq, true_and] at heq
    simp only [Ty.allVars]
    exact fixesFields_of_canon hcons fields heq
  | construct args tyCon =>
    have hargs : canonTys ctx args =
        canonTys ctx (substTysWith expandCon subst args).1 := by
      match tyCon with
      | [] => simpa [substTyWith, Ty.canon] using heq
      | [symbol] => simpa [substTyWith, Ty.canon, hcons] using heq
      | _ :: _ :: _ => simpa [substTyWith, Ty.canon] using heq
    simp only [Ty.allVars]
    exact fixesTys_of_canon hcons args hargs
  | tuple tys =>
    simp only [substTyWith, Ty.canon, Ty.tuple.injEq] at heq
    simp only [Ty.allVars]
    exact fixesTys_of_canon hcons tys heq
  | func dom ran =>
    simp only [substTyWith, Ty.canon, Ty.func.injEq] at heq
    simp only [Ty.allVars, List.forall_mem_append]
    exact ⟨Ty.fixes_of_canon hcons dom heq.1,
      Ty.fixes_of_canon hcons ran heq.2⟩
  | poly tvars body =>
    have hcons' : (maskTyvar subst tvars).tycon = [] := hcons
    simp only [substTyWith, Ty.canon, Ty.poly.injEq, substTvarsWith_names]
      at heq
    simp only [Ty.allVars]
    apply Subst.Fixes.of_mask
    rw [List.forall_mem_append]
    exact ⟨fixesTvars_of_canon hcons' tvars heq.1,
      Ty.fixes_of_canon hcons' body heq.2⟩

theorem fixesTys_of_canon {subst : Subst} (hcons : subst.tycon = [])
    {ctx : List String} (tys : List (Ty String)) (heq : canonTys ctx tys =
      canonTys ctx (substTysWith expandCon subst tys).1) :
    ∀ tvar ∈ allVarsTys tys, subst.Fixes tvar := by
  cases tys with
  | nil => simp [allVarsTys]
  | cons ty tys =>
    simp only [substTysWith, canonTys, List.cons.injEq] at heq
    simp only [allVarsTys, List.forall_mem_append]
    exact ⟨Ty.fixes_of_canon hcons ty heq.1,
      fixesTys_of_canon hcons tys heq.2⟩

theorem fixesFields_of_canon {subst : Subst} (hcons : subst.tycon = [])
    {ctx : List String} (fields : List (String × Ty String))
    (heq : canonFields ctx fields =
      canonFields ctx (substFieldsWith expandCon subst fields).1) :
    ∀ tvar ∈ allVarsFields fields, subst.Fixes tvar := by
  cases fields with
  | nil => simp [allVarsFields]
  | cons field fields =>
    obtain ⟨label, ty⟩ := field
    simp only [substFieldsWith, canonFields, List.cons.injEq, Prod.mk.injEq,
      true_and] at heq
    simp only [allVarsFields, List.forall_mem_append]
    exact ⟨Ty.fixes_of_canon hcons ty heq.1,
      fixesFields_of_canon hcons fields heq.2⟩

theorem fixesKind_of_canon {subst : Subst} (hcons : subst.tycon = [])
    {ctx : List String} (kind : TvarKind String) (heq : kind.canon ctx =
      (substTvarKindWith expandCon subst kind).1.canon ctx) :
    ∀ tvar ∈ kind.allVars, subst.Fixes tvar := by
  cases kind with
  | univ properties => simp [TvarKind.allVars]
  | recKind properties fields =>
    simp only [substTvarKindWith, TvarKind.canon, TvarKind.recKind.injEq,
      true_and] at heq
    simp only [TvarKind.allVars]
    exact fixesFields_of_canon hcons fields heq

theorem fixesTvars_of_canon {subst : Subst} (hcons : subst.tycon = [])
    {ctx : List String} (tvars : List (KindedTvar String))
    (heq : canonTvars ctx tvars =
      canonTvars ctx (substTvarsWith expandCon subst tvars).1) :
    ∀ tvar ∈ allVarsTvars tvars, subst.Fixes tvar := by
  cases tvars with
  | nil => simp [allVarsTvars]
  | cons tvar tvars =>
    obtain ⟨tvar, kind⟩ := tvar
    simp only [substTvarsWith, canonTvars, List.cons.injEq, Prod.mk.injEq,
      true_and] at heq
    simp only [allVarsTvars, List.forall_mem_append]
    exact ⟨fixesKind_of_canon hcons kind heq.1,
      fixesTvars_of_canon hcons tvars heq.2⟩

end

/-- What two substitutions put for the variables that occur in a list. -/
def SameFor (substFun : Tvar String → Elab (Ty String)) (subst : Subst)
    (vars kindVars : List (Tvar String)) : Prop :=
  (∀ tvar ∈ vars, ∃ ctx,
    (substFun tvar).1.canon ctx = (subst.get tvar).canon ctx) ∧
  ∀ tvar ∈ kindVars, subst.Fixes tvar

theorem SameFor.append {vars vars' kindVars kindVars' : List (Tvar String)}
    (hleft : SameFor substFun subst vars kindVars)
    (hright : SameFor substFun subst vars' kindVars') :
    SameFor substFun subst (vars ++ vars') (kindVars ++ kindVars') :=
  ⟨List.forall_mem_append.mpr ⟨hleft.1, hright.1⟩,
    List.forall_mem_append.mpr ⟨hleft.2, hright.2⟩⟩

mutual

/-- Where the two substitutions give the same type up to renaming they put the
same for its variables, and nothing for the variables of its kinds. -/
theorem Ty.same_of_canon {substFun : Tvar String → Elab (Ty String)}
    {subst : Subst} (hcons : subst.tycon = []) {ctx : List String}
    (ty : Ty String) (heq : (substTyVarInTy substFun ty).1.canon ctx =
      (substTyWith expandCon subst ty).1.canon ctx) :
    SameFor substFun subst ty.vars ty.kindVars := by
  cases ty with
  | wild => exact ⟨by simp [Ty.vars], by simp [Ty.kindVars]⟩
  | id tvar =>
    refine ⟨?_, by simp [Ty.kindVars]⟩
    simp only [Ty.vars, List.mem_singleton, forall_eq]
    exact ⟨ctx, heq⟩
  | freeId tvar kind => exact ⟨by simp [Ty.vars], by simp [Ty.kindVars]⟩
  | record ifFlex fields =>
    simp only [substTyVarInTy, substTyWith, Ty.canon, Ty.record.injEq,
      true_and] at heq
    exact sameFields_of_canon hcons fields heq
  | construct args tyCon =>
    have hargs : canonTys ctx (substTyVarInTys substFun args).1 =
        canonTys ctx (substTysWith expandCon subst args).1 := by
      match tyCon with
      | [] => simpa [substTyVarInTy, substTyWith, Ty.canon] using heq
      | [symbol] =>
        simpa [substTyVarInTy, substTyWith, Ty.canon, hcons] using heq
      | _ :: _ :: _ => simpa [substTyVarInTy, substTyWith, Ty.canon] using heq
    exact sameTys_of_canon hcons args hargs
  | tuple tys =>
    simp only [substTyVarInTy, substTyWith, Ty.canon, Ty.tuple.injEq] at heq
    exact sameTys_of_canon hcons tys heq
  | func dom ran =>
    simp only [substTyVarInTy, substTyWith, Ty.canon, Ty.func.injEq] at heq
    exact (Ty.same_of_canon hcons dom heq.1).append
      (Ty.same_of_canon hcons ran heq.2)
  | poly tvars body =>
    have hcons' : (maskTyvar subst tvars).tycon = [] := hcons
    simp only [substTyVarInTy, substTyWith, Ty.canon, Ty.poly.injEq,
      substTvarsWith_names] at heq
    obtain ⟨hvars, hkinds⟩ := Ty.same_of_canon hcons' body heq.2
    have hbinders := fixesTvars_of_canon hcons' tvars heq.1
    constructor
    · intro tvar hmem
      obtain ⟨hfound, hfree⟩ := mem_unbound.mp hmem
      obtain ⟨ctx', hsame⟩ := hvars tvar hfound
      rw [Subst.get_mask, if_neg hfree] at hsame
      exact ⟨ctx', by simpa only [if_neg hfree] using hsame⟩
    · exact Subst.Fixes.of_mask (List.forall_mem_append.mpr ⟨hbinders, hkinds⟩)

theorem sameTys_of_canon {substFun : Tvar String → Elab (Ty String)}
    {subst : Subst} (hcons : subst.tycon = []) {ctx : List String}
    (tys : List (Ty String))
    (heq : canonTys ctx (substTyVarInTys substFun tys).1 =
      canonTys ctx (substTysWith expandCon subst tys).1) :
    SameFor substFun subst (varsTys tys) (kindVarsTys tys) := by
  cases tys with
  | nil => exact ⟨by simp [varsTys], by simp [kindVarsTys]⟩
  | cons ty tys =>
    simp only [substTyVarInTys, substTysWith, canonTys, List.cons.injEq]
      at heq
    exact (Ty.same_of_canon hcons ty heq.1).append
      (sameTys_of_canon hcons tys heq.2)

theorem sameFields_of_canon {substFun : Tvar String → Elab (Ty String)}
    {subst : Subst} (hcons : subst.tycon = []) {ctx : List String}
    (fields : List (String × Ty String))
    (heq : canonFields ctx (substTyVarInFields substFun fields).1 =
      canonFields ctx (substFieldsWith expandCon subst fields).1) :
    SameFor substFun subst (varsFields fields) (kindVarsFields fields) := by
  cases fields with
  | nil => exact ⟨by simp [varsFields], by simp [kindVarsFields]⟩
  | cons field fields =>
    obtain ⟨label, ty⟩ := field
    simp only [substTyVarInFields, substFieldsWith, canonFields,
      List.cons.injEq, Prod.mk.injEq, true_and] at heq
    exact (Ty.same_of_canon hcons ty heq.1).append
      (sameFields_of_canon hcons fields heq.2)

end

end Kinds

/-! ### Expanded types -/

section Clean

variable {binds : List TypBind}

mutual

theorem Ty.subst_clean {names : List String}
    {substFun : Tvar String → Elab (Ty String)}
    (hsubst : ∀ tvar, ¬ (substFun tvar).1.Mentions names) (ty : Ty String)
    (hclean : ¬ ty.Mentions names) :
    ¬ (substTyVarInTy substFun ty).1.Mentions names := by
  cases ty with
  | wild => exact hclean
  | id tvar => exact hsubst tvar
  | freeId tvar kind => exact hclean
  | record ifFlex fields =>
    simp only [Ty.Mentions] at hclean
    simpa only [substTyVarInTy, Ty.Mentions] using
      substFields_clean hsubst fields hclean
  | construct args tyCon =>
    simp only [Ty.Mentions, not_or] at hclean
    simpa only [substTyVarInTy, Ty.Mentions, not_or] using
      ⟨hclean.1, substTys_clean hsubst args hclean.2⟩
  | tuple tys =>
    simp only [Ty.Mentions] at hclean
    simpa only [substTyVarInTy, Ty.Mentions] using
      substTys_clean hsubst tys hclean
  | func dom ran =>
    simp only [Ty.Mentions, not_or] at hclean
    simpa only [substTyVarInTy, Ty.Mentions, not_or] using
      ⟨Ty.subst_clean hsubst dom hclean.1, Ty.subst_clean hsubst ran hclean.2⟩
  | poly tvars body =>
    simp only [Ty.Mentions] at hclean
    simp only [substTyVarInTy, Ty.Mentions]
    apply Ty.subst_clean _ body hclean
    intro tvar
    by_cases hbound : tvar.symbol ∈ boundNames tvars
    · simp [hbound, Ty.Mentions]
    · simpa [hbound] using hsubst tvar

theorem substTys_clean {names : List String}
    {substFun : Tvar String → Elab (Ty String)}
    (hsubst : ∀ tvar, ¬ (substFun tvar).1.Mentions names)
    (tys : List (Ty String)) (hclean : ¬ mentionsTys names tys) :
    ¬ mentionsTys names (substTyVarInTys substFun tys).1 := by
  cases tys with
  | nil => exact hclean
  | cons ty tys =>
    simp only [mentionsTys, not_or] at hclean
    simpa only [substTyVarInTys, mentionsTys, not_or] using
      ⟨Ty.subst_clean hsubst ty hclean.1, substTys_clean hsubst tys hclean.2⟩

theorem substFields_clean {names : List String}
    {substFun : Tvar String → Elab (Ty String)}
    (hsubst : ∀ tvar, ¬ (substFun tvar).1.Mentions names)
    (fields : List (String × Ty String))
    (hclean : ¬ mentionsFields names fields) :
    ¬ mentionsFields names (substTyVarInFields substFun fields).1 := by
  cases fields with
  | nil => exact hclean
  | cons field fields =>
    obtain ⟨label, ty⟩ := field
    simp only [mentionsFields, not_or] at hclean
    simpa only [substTyVarInFields, mentionsFields, not_or] using
      ⟨Ty.subst_clean hsubst ty hclean.1,
        substFields_clean hsubst fields hclean.2⟩

end

/-- The bodies of the bindings apply no constructor of the same `withtype`. -/
def CleanBodies (binds : List TypBind) : Prop :=
  ∀ bind ∈ binds, ¬ bind.ty.Mentions (binds.map TypBind.symbol)

mutual

/-- The source elaborator leaves no constructor of `withtype` outside kinds. -/
theorem Ty.expandInTy_clean (hbodies : CleanBodies binds) (ty : Ty String)
    (haccept : (expandInTy binds ty).2 = []) :
    ¬ (expandInTy binds ty).1.Mentions (binds.map TypBind.symbol) := by
  cases ty with
  | record ifFlex fields =>
    simp only [expandInTy] at haccept
    simpa only [expandInTy, Ty.Mentions] using
      expandInFields_clean hbodies fields haccept
  | construct args tyCon =>
    match tyCon with
    | [] =>
      simp only [expandInTy, List.append_eq_nil_iff] at haccept
      simpa [expandInTy, Ty.Mentions] using
        expandInTys_clean hbodies args haccept.1
    | [name] =>
      cases hfind : findTypBind binds name with
      | none =>
        simp only [expandInTy, hfind] at haccept
        have hargs := expandInTys_clean hbodies args haccept
        have hnot : name ∉ binds.map TypBind.symbol := by
          intro hmem
          obtain ⟨bind, hbind, hname⟩ := List.mem_map.mp hmem
          have hnone := List.find?_eq_none.mp hfind bind hbind
          exact hnone (by simpa using hname)
        simp only [expandInTy, hfind, Ty.Mentions, not_or]
        refine ⟨?_, hargs⟩
        rintro ⟨other, hother, heq⟩
        obtain rfl : name = other := by simpa using heq
        exact hnot hother
      | some bind =>
        obtain ⟨-, hargs, hexpand⟩ := expandInTy_con hfind haccept
        have hclean := expandInTys_clean hbodies args hargs
        rw [hexpand]
        apply Ty.subst_clean _ _ (hbodies bind (findTypBind_mem hfind).1)
        intro tvar
        rw [substParam_fst]
        cases harg : argOf bind.tyvars
            (args.map fun ty => (expandInTy binds ty).1) tvar with
        | none => simp [Ty.Mentions]
        | some arg =>
          have hmem : arg ∈ (expandInTys binds args).1 := by
            rw [expandInTys_fst]
            exact argOf_mem harg
          exact fun hmention =>
            hclean (mentionsTys_iff.mpr ⟨arg, hmem, hmention⟩)
    | _ :: _ :: _ =>
      simp only [expandInTy, List.append_eq_nil_iff] at haccept
      simpa [expandInTy, Ty.Mentions] using
        expandInTys_clean hbodies args haccept.1
  | tuple tys =>
    simp only [expandInTy] at haccept
    simpa only [expandInTy, Ty.Mentions] using
      expandInTys_clean hbodies tys haccept
  | func dom ran =>
    simp only [expandInTy, List.append_eq_nil_iff] at haccept
    simpa only [expandInTy, Ty.Mentions, not_or] using
      ⟨Ty.expandInTy_clean hbodies dom haccept.1,
        Ty.expandInTy_clean hbodies ran haccept.2⟩
  | poly tvars body =>
    simp only [expandInTy] at haccept
    simpa only [expandInTy, Ty.Mentions] using
      Ty.expandInTy_clean hbodies body haccept
  | _ => simp [expandInTy, Ty.Mentions]

theorem expandInTys_clean (hbodies : CleanBodies binds) (tys : List (Ty String))
    (haccept : (expandInTys binds tys).2 = []) :
    ¬ mentionsTys (binds.map TypBind.symbol) (expandInTys binds tys).1 := by
  cases tys with
  | nil => simp [expandInTys, mentionsTys]
  | cons ty tys =>
    simp only [expandInTys, List.append_eq_nil_iff] at haccept
    simpa only [expandInTys, mentionsTys, not_or] using
      ⟨Ty.expandInTy_clean hbodies ty haccept.1,
        expandInTys_clean hbodies tys haccept.2⟩

theorem expandInFields_clean (hbodies : CleanBodies binds)
    (fields : List (String × Ty String))
    (haccept : (expandInFields binds fields).2 = []) :
    ¬ mentionsFields (binds.map TypBind.symbol)
      (expandInFields binds fields).1 := by
  cases fields with
  | nil => simp [expandInFields, mentionsFields]
  | cons field fields =>
    obtain ⟨label, ty⟩ := field
    simp only [expandInFields, List.append_eq_nil_iff] at haccept
    simpa only [expandInFields, mentionsFields, not_or] using
      ⟨Ty.expandInTy_clean hbodies ty haccept.1,
        expandInFields_clean hbodies fields haccept.2⟩

end

theorem tycon_some (hdistinct : Distinct binds) {name : String}
    (hmem : name ∈ binds.map TypBind.symbol) :
    ∃ bind ∈ binds, bind.symbol = name ∧
      (tyconSubst binds).tycon.lookup name = some bind := by
  obtain ⟨bind, hbind, rfl⟩ := List.mem_map.mp hmem
  have hsome : (findTypBind binds bind.symbol).isSome := by
    rw [findTypBind, List.find?_isSome]
    exact ⟨bind, hbind, by simp⟩
  obtain ⟨found, hfound⟩ := Option.isSome_iff_exists.mp hsome
  obtain ⟨hmem, hname⟩ := findTypBind_mem hfound
  exact ⟨found, hmem, hname, by rw [lookup_tycon hdistinct.names, hfound]⟩

/-- An expanded application of a constructor is never the application itself. -/
theorem expandTypBind_ne (hdistinct : Distinct binds)
    (hbodies : CleanBodies binds) {bind : TypBind} (hbind : bind ∈ binds) {args : List (Ty String)}
    (heq : (Ty.construct args [bind.symbol]).canon ctx =
      (expandTypBind bind args).1.canon ctx) : False := by
  have hbody := hbodies bind hbind
  simp only [expandTypBind] at heq
  cases hty : bind.ty with
  | id tvar =>
    rw [hty] at heq
    have hget : (tyvarSubst (if bind.tyvars.length = args.length then
        bind.tyvars.zip args else [])).get tvar = .id tvar ∨
        (tyvarSubst (if bind.tyvars.length = args.length then
          bind.tyvars.zip args else [])).get tvar ∈ args := by
      by_cases harity : bind.tyvars.length = args.length
      · rw [if_pos harity, tyvarSubst_get _ (hdistinct.params bind hbind)]
        cases harg : argOf bind.tyvars args tvar with
        | none => exact Or.inl rfl
        | some arg => exact Or.inr (argOf_mem harg)
      · rw [if_neg harity]
        exact Or.inl rfl
    simp only [substTyWith] at heq
    rcases hget with hid | hmem
    · rw [← Subst.get, hid] at heq
      simp [Ty.canon] at heq
    · have hsize := congrArg Ty.size heq
      rw [Ty.size_canon, Ty.size_canon, ← Subst.get] at hsize
      have hle := size_le_sizeTys hmem
      simp only [Ty.size] at hsize
      omega
  | construct bodyArgs path =>
    rw [hty] at heq hbody
    have hpath : path = [bind.symbol] := by
      rcases path with _ | ⟨name, _ | ⟨second, rest⟩⟩
      · simp [substTyWith, Ty.canon] at heq
      · simp only [substTyWith, Ty.canon, tyvarSubst] at heq
        injection heq with _ hpath
        exact hpath.symm
      · simp [substTyWith, Ty.canon] at heq
    apply hbody
    simp only [Ty.Mentions]
    exact Or.inl ⟨bind.symbol, List.mem_map.mpr ⟨bind, hbind, rfl⟩, hpath⟩
  | _ =>
    rw [hty] at heq
    simp [substTyWith, Ty.canon] at heq

mutual

/-- A type that the interface elaborator leaves as it is, up to renaming, has no
constructor of `withtype`, not in its kinds either. -/
theorem Ty.clean_of_canon (hdistinct : Distinct binds)
    (hbodies : CleanBodies binds) {ctx : List String} (ty : Ty String)
    (heq : ty.canon ctx =
      (substTyWith expandTypBind (tyconSubst binds) ty).1.canon ctx) :
    ¬ ty.MentionsAny (binds.map TypBind.symbol) := by
  cases ty with
  | record ifFlex fields =>
    simp only [substTyWith, Ty.canon, Ty.record.injEq, true_and] at heq
    simpa only [Ty.MentionsAny] using
      cleanFields_of_canon hdistinct hbodies fields heq
  | construct args tyCon =>
    simp only [Ty.MentionsAny, not_or]
    by_cases hmem : ∃ name ∈ binds.map TypBind.symbol, tyCon = [name]
    · obtain ⟨name, hmem, rfl⟩ := hmem
      obtain ⟨bind, hbind, rfl, hlookup⟩ := tycon_some hdistinct hmem
      simp only [substTyWith, hlookup] at heq
      exact (expandTypBind_ne hdistinct hbodies hbind heq).elim
    · have hargs : canonTys ctx args = canonTys ctx
          (substTysWith expandTypBind (tyconSubst binds) args).1 := by
        match tyCon with
        | [] => simpa [substTyWith, Ty.canon] using heq
        | [name] =>
          have hnone := tycon_none hdistinct name fun h =>
            hmem ⟨name, h, rfl⟩
          simpa [substTyWith, Ty.canon, hnone] using heq
        | _ :: _ :: _ => simpa [substTyWith, Ty.canon] using heq
      exact ⟨hmem, cleanTys_of_canon hdistinct hbodies args hargs⟩
  | tuple tys =>
    simp only [substTyWith, Ty.canon, Ty.tuple.injEq] at heq
    simpa only [Ty.MentionsAny] using
      cleanTys_of_canon hdistinct hbodies tys heq
  | func dom ran =>
    simp only [substTyWith, Ty.canon, Ty.func.injEq] at heq
    simpa only [Ty.MentionsAny, not_or] using
      ⟨Ty.clean_of_canon hdistinct hbodies dom heq.1,
        Ty.clean_of_canon hdistinct hbodies ran heq.2⟩
  | poly tvars body =>
    have hmask : maskTyvar (tyconSubst binds) tvars = tyconSubst binds := rfl
    simp only [substTyWith, Ty.canon, Ty.poly.injEq, substTvarsWith_names,
      hmask] at heq
    simpa only [Ty.MentionsAny, not_or] using
      ⟨cleanTvars_of_canon hdistinct hbodies tvars heq.1,
        Ty.clean_of_canon hdistinct hbodies body heq.2⟩
  | _ => simp [Ty.MentionsAny]

theorem cleanTys_of_canon (hdistinct : Distinct binds)
    (hbodies : CleanBodies binds) {ctx : List String} (tys : List (Ty String))
    (heq : canonTys ctx tys =
      canonTys ctx (substTysWith expandTypBind (tyconSubst binds) tys).1) :
    ¬ mentionsAnyTys (binds.map TypBind.symbol) tys := by
  cases tys with
  | nil => simp [mentionsAnyTys]
  | cons ty tys =>
    simp only [substTysWith, canonTys, List.cons.injEq] at heq
    simpa only [mentionsAnyTys, not_or] using
      ⟨Ty.clean_of_canon hdistinct hbodies ty heq.1,
        cleanTys_of_canon hdistinct hbodies tys heq.2⟩

theorem cleanFields_of_canon (hdistinct : Distinct binds)
    (hbodies : CleanBodies binds) {ctx : List String}
    (fields : List (String × Ty String)) (heq : canonFields ctx fields =
      canonFields ctx
        (substFieldsWith expandTypBind (tyconSubst binds) fields).1) :
    ¬ mentionsAnyFields (binds.map TypBind.symbol) fields := by
  cases fields with
  | nil => simp [mentionsAnyFields]
  | cons field fields =>
    obtain ⟨label, ty⟩ := field
    simp only [substFieldsWith, canonFields, List.cons.injEq, Prod.mk.injEq,
      true_and] at heq
    simpa only [mentionsAnyFields, not_or] using
      ⟨Ty.clean_of_canon hdistinct hbodies ty heq.1,
        cleanFields_of_canon hdistinct hbodies fields heq.2⟩

theorem cleanKind_of_canon (hdistinct : Distinct binds)
    (hbodies : CleanBodies binds) {ctx : List String} (kind : TvarKind String)
    (heq : kind.canon ctx =
      (substTvarKindWith expandTypBind (tyconSubst binds) kind).1.canon ctx) :
    ¬ kind.MentionsAny (binds.map TypBind.symbol) := by
  cases kind with
  | univ properties => simp [TvarKind.MentionsAny]
  | recKind properties fields =>
    simp only [substTvarKindWith, TvarKind.canon, TvarKind.recKind.injEq,
      true_and] at heq
    simpa only [TvarKind.MentionsAny] using
      cleanFields_of_canon hdistinct hbodies fields heq

theorem cleanTvars_of_canon (hdistinct : Distinct binds)
    (hbodies : CleanBodies binds) {ctx : List String}
    (tvars : List (KindedTvar String)) (heq : canonTvars ctx tvars =
      canonTvars ctx (substTvarsWith expandTypBind (tyconSubst binds) tvars).1) :
    ¬ mentionsAnyTvars (binds.map TypBind.symbol) tvars := by
  cases tvars with
  | nil => simp [mentionsAnyTvars]
  | cons tvar tvars =>
    obtain ⟨tvar, kind⟩ := tvar
    simp only [substTvarsWith, canonTvars, List.cons.injEq, Prod.mk.injEq,
      true_and] at heq
    simpa only [mentionsAnyTvars, not_or] using
      ⟨cleanKind_of_canon hdistinct hbodies kind heq.1,
        cleanTvars_of_canon hdistinct hbodies tvars heq.2⟩

end

/-- The arguments of a constructor, where the two elaborators expand its
application to the same type up to renaming. -/
theorem flatArgs_of_canon (hdistinct : Distinct binds)
    (hbodies : CleanBodies binds) {bind : TypBind} (hbind : bind ∈ binds)
    {args : List (Ty String)} (harity : bind.tyvars.length = args.length)
    (haccept : (expandInTys binds args).2 = [])
    (heq : (substTyVarInTy (substParam (bind.tyvars.map Tvar.symbol)
      (args.map fun ty => (expandInTy binds ty).1)) bind.ty).1.canon ctx =
      (expandTypBind bind args).1.canon ctx) : FlatArgs binds bind args := by
  have hnodup := hdistinct.params bind hbind
  simp only [expandTypBind, if_pos harity] at heq
  obtain ⟨hvars, hkinds⟩ := Ty.same_of_canon rfl bind.ty heq
  rintro ⟨param, arg⟩ hzip
  have hargOf : ∀ tvar : Tvar String, tvar.symbol = param.symbol →
      argOf bind.tyvars args tvar = some arg := fun tvar hname =>
    (argOf_eq_some_iff hnodup).mpr ⟨param, hzip, hname.symm⟩
  constructor
  · intro tvar hmem hname
    obtain ⟨ctx', hsame⟩ := hvars tvar hmem
    rw [substParam_fst, argOf_map, tyvarSubst_get _ hnodup, hargOf tvar hname]
      at hsame
    have hclean := Ty.expandInTy_clean hbodies arg
      (expandInTys_accepted haccept arg (List.of_mem_zip hzip).2)
    rw [← Ty.mentions_canon ctx'] at hclean ⊢
    simp only [Option.map_some, Option.getD_some] at hsame
    rwa [hsame] at hclean
  · intro tvar hmem hname
    have hfix := hkinds tvar hmem
    have hget := tyvarSubst_get args hnodup tvar
    unfold Subst.get at hget
    unfold Subst.Fixes at hfix
    rw [hget, hargOf tvar hname] at hfix
    exact hfix

mutual

/-- Accepted types that the two elaborators expand to the same type up to
renaming are flat. -/
theorem Ty.flat_of_canon (hdistinct : Distinct binds)
    (hbodies : CleanBodies binds) {ctx : List String} (ty : Ty String)
    (haccept : (expandInTy binds ty).2 = [])
    (heq : (expandInTy binds ty).1.canon ctx =
      (substTyWith expandTypBind (tyconSubst binds) ty).1.canon ctx) :
    ty.Flat binds := by
  cases ty with
  | record ifFlex fields =>
    simp only [expandInTy] at haccept
    simp only [expandInTy, substTyWith, Ty.canon, Ty.record.injEq, true_and]
      at heq
    simpa only [Ty.Flat] using
      flatFields_of_canon hdistinct hbodies fields haccept heq
  | construct args tyCon =>
    match tyCon with
    | [] =>
      simp only [expandInTy, List.append_eq_nil_iff] at haccept
      simp only [expandInTy, substTyWith, Ty.canon, Ty.construct.injEq,
        and_true] at heq
      simpa only [Ty.Flat] using
        flatTys_of_canon hdistinct hbodies args haccept.1 heq
    | [name] =>
      have hlookup := lookup_tycon hdistinct.names name
      cases hfind : findTypBind binds name with
      | none =>
        simp only [expandInTy, hfind] at haccept
        simp only [expandInTy, substTyWith, hfind, hlookup, Ty.canon,
          Ty.construct.injEq, and_true] at heq
        simpa only [Ty.Flat, hfind] using
          flatTys_of_canon hdistinct hbodies args haccept heq
      | some bind =>
        obtain ⟨harity, hargs, hexpand⟩ := expandInTy_con hfind haccept
        rw [hexpand] at heq
        simp only [substTyWith, hlookup, hfind] at heq
        simpa only [Ty.Flat, hfind] using flatArgs_of_canon hdistinct
          hbodies (findTypBind_mem hfind).1 harity hargs heq
    | _ :: _ :: _ =>
      simp only [expandInTy, List.append_eq_nil_iff] at haccept
      simp only [expandInTy, substTyWith, Ty.canon, Ty.construct.injEq,
        and_true] at heq
      simpa only [Ty.Flat] using
        flatTys_of_canon hdistinct hbodies args haccept.1 heq
  | tuple tys =>
    simp only [expandInTy] at haccept
    simp only [expandInTy, substTyWith, Ty.canon, Ty.tuple.injEq] at heq
    simpa only [Ty.Flat] using
      flatTys_of_canon hdistinct hbodies tys haccept heq
  | func dom ran =>
    simp only [expandInTy, List.append_eq_nil_iff] at haccept
    simp only [expandInTy, substTyWith, Ty.canon, Ty.func.injEq] at heq
    simpa only [Ty.Flat] using
      ⟨Ty.flat_of_canon hdistinct hbodies dom haccept.1 heq.1,
        Ty.flat_of_canon hdistinct hbodies ran haccept.2 heq.2⟩
  | poly tvars body =>
    have hmask : maskTyvar (tyconSubst binds) tvars = tyconSubst binds := rfl
    simp only [expandInTy] at haccept
    simp only [expandInTy, substTyWith, Ty.canon, Ty.poly.injEq,
      substTvarsWith_names, hmask] at heq
    simpa only [Ty.Flat] using
      ⟨cleanTvars_of_canon hdistinct hbodies tvars heq.1,
        Ty.flat_of_canon hdistinct hbodies body haccept heq.2⟩
  | _ => simp [Ty.Flat]

theorem flatTys_of_canon (hdistinct : Distinct binds)
    (hbodies : CleanBodies binds) {ctx : List String} (tys : List (Ty String))
    (haccept : (expandInTys binds tys).2 = [])
    (heq : canonTys ctx (expandInTys binds tys).1 =
      canonTys ctx (substTysWith expandTypBind (tyconSubst binds) tys).1) :
    flatTys binds tys := by
  cases tys with
  | nil => trivial
  | cons ty tys =>
    simp only [expandInTys, List.append_eq_nil_iff] at haccept
    simp only [expandInTys, substTysWith, canonTys, List.cons.injEq] at heq
    exact ⟨Ty.flat_of_canon hdistinct hbodies ty haccept.1 heq.1,
      flatTys_of_canon hdistinct hbodies tys haccept.2 heq.2⟩

theorem flatFields_of_canon (hdistinct : Distinct binds)
    (hbodies : CleanBodies binds) {ctx : List String}
    (fields : List (String × Ty String))
    (haccept : (expandInFields binds fields).2 = [])
    (heq : canonFields ctx (expandInFields binds fields).1 = canonFields ctx
        (substFieldsWith expandTypBind (tyconSubst binds) fields).1) :
    flatFields binds fields := by
  cases fields with
  | nil => trivial
  | cons field fields =>
    obtain ⟨label, ty⟩ := field
    simp only [expandInFields, List.append_eq_nil_iff] at haccept
    simp only [expandInFields, substFieldsWith, canonFields, List.cons.injEq,
      Prod.mk.injEq, true_and] at heq
    exact ⟨Ty.flat_of_canon hdistinct hbodies ty haccept.1 heq.1,
      flatFields_of_canon hdistinct hbodies fields haccept.2 heq.2⟩

end

end Clean

/-! ### Declarations -/

/-- The same constructors, with the same argument types up to renaming. -/
def SameDatBinds : List DatBind → List DatBind → Prop :=
  List.Forall₂ fun left right => left.symbol = right.symbol ∧
    left.tyvars = right.tyvars ∧
    List.Forall₂ (fun con con' => con.symbol = con'.symbol ∧
      Option.Rel SameUpToRenaming con.ty con'.ty) left.conbind right.conbind

/-- All constructor arguments of a declaration are flat. -/
def FlatDecl (datbind : List DatBind) (withType : List TypBind) : Prop :=
  ∀ bind ∈ datbind, ∀ con ∈ bind.conbind, ∀ ty, con.ty = some ty →
    ty.Flat withType

theorem distinct_of_accepted (haccept : (elabDataBindsWithTypeBinds withType datbind).2 = []) :
    Distinct withType := by
  simp only [elabDataBindsWithTypeBinds, checkSymbolDuplication,
    List.append_eq_nil_iff, List.map_eq_nil_iff, List.flatMap_eq_nil_iff]
    at haccept
  obtain ⟨⟨⟨⟨hnames, -⟩, -⟩, hparams⟩, -⟩ := haccept
  refine ⟨?_, fun bind hbind => nodup_of_duplicates (hparams bind hbind)⟩
  exact (nodup_of_duplicates hnames).of_append_right

theorem accepted_con (haccept : (elabDataBindsWithTypeBinds withType datbind).2 = [])
    {bind : DatBind} (hbind : bind ∈ datbind) {con : ConBind}
    (hcon : con ∈ bind.conbind) {ty : Ty String} (hty : con.ty = some ty) :
    (expandInTy withType ty).2 = [] := by
  simp only [elabDataBindsWithTypeBinds, List.append_eq_nil_iff,
    List.flatMap_eq_nil_iff, List.forall_mem_map] at haccept
  have herrors := haccept.2 bind hbind
  simp only [expandWithTypesInDataBind, List.flatMap_eq_nil_iff,
    List.forall_mem_map] at herrors
  simpa [expandInDataCon, hty] using herrors con hcon

theorem sameDatBinds_iff :
    SameDatBinds (elabDataBindsWithTypeBinds withType datbind).1
      (elabDatatypeDec datbind withType).1 ↔
    ∀ bind ∈ datbind, ∀ con ∈ bind.conbind, ∀ ty, con.ty = some ty →
      SameUpToRenaming (expandInTy withType ty).1
        (substTy (tyconSubst withType) ty).1 := by
  have hcon : ∀ con : ConBind,
      ((expandInDataCon withType con).1.symbol =
        (substConbind (tyconSubst withType) con).1.symbol ∧
      Option.Rel SameUpToRenaming (expandInDataCon withType con).1.ty
        (substConbind (tyconSubst withType) con).1.ty) ↔
      ∀ ty, con.ty = some ty → SameUpToRenaming (expandInTy withType ty).1
        (substTy (tyconSubst withType) ty).1 := by
    intro con
    cases hty : con.ty with
    | none => simp [expandInDataCon, substConbind, hty]
    | some ty => simp [expandInDataCon, substConbind, hty]
  simp only [SameDatBinds, elabDataBindsWithTypeBinds, elabDatatypeDec,
    List.map_map, List.forall₂_map_left_iff, List.forall₂_map_right_iff,
    List.forall₂_same, Function.comp, expandWithTypesInDataBind, substDatbind,
    hcon, true_and]

/-- The two elaborators give the same constructor arguments to an accepted
declaration whose arguments are flat, and only to those where no body after
`withtype` applies a constructor of the same `withtype`. -/
theorem elab_same_iff_flat (datbind : List DatBind) (withType : List TypBind)
    (haccept : (elabDataBindsWithTypeBinds withType datbind).2 = []) :
    (FlatDecl datbind withType →
      SameDatBinds (elabDataBindsWithTypeBinds withType datbind).1
        (elabDatatypeDec datbind withType).1) ∧
    (CleanBodies withType →
      SameDatBinds (elabDataBindsWithTypeBinds withType datbind).1
        (elabDatatypeDec datbind withType).1 → FlatDecl datbind withType) := by
  have hdistinct := distinct_of_accepted haccept
  rw [sameDatBinds_iff]
  constructor
  · intro hflat bind hbind con hcon ty hty
    have hagree := Ty.expand_agree hdistinct ty
      (accepted_con haccept hbind hcon hty) (hflat bind hbind con hcon ty hty)
    rw [SameUpToRenaming, hagree]
  · intro hbodies hsame bind hbind con hcon ty hty
    exact Ty.flat_of_canon hdistinct hbodies ty
      (accepted_con haccept hbind hcon hty) (hsame bind hbind con hcon ty hty)

/-! ### A nested application -/

/-- `datatype d = D of int w` with `withtype 'a w = 'a * 'a`. -/
def pairBind : TypBind :=
  ⟨[⟨"a", false⟩], "w", .tuple [.id ⟨"a", false⟩, .id ⟨"a", false⟩]⟩

def intTy : Ty String := .construct [] ["int"]

def datatypeOf (ty : Ty String) : List DatBind := [⟨[], "d", [⟨"D", some ty⟩]⟩]

/-- One application of the constructor comes out the same. -/
theorem elab_same_single :
    SameDatBinds
      (elabDataBindsWithTypeBinds [pairBind]
        (datatypeOf (.construct [intTy] ["w"]))).1
      (elabDatatypeDec (datatypeOf (.construct [intTy] ["w"])) [pairBind]).1 := by
  apply (elab_same_iff_flat _ _ (by decide)).1
  intro bind hbind con hcon ty hty
  obtain rfl := List.mem_singleton.mp hbind
  obtain rfl := List.mem_singleton.mp hcon
  obtain rfl : Ty.construct [intTy] ["w"] = ty := by simpa using hty
  rintro ⟨param, arg⟩ hmem
  obtain ⟨rfl, rfl⟩ : param = ⟨"a", false⟩ ∧ arg = intTy := by
    simpa [pairBind] using hmem
  constructor
  · simp [intTy, pairBind, Ty.Mentions, mentionsTys]
  · simp [pairBind, Ty.kindVars, kindVarsTys]

/-- An application in the argument of another one is expanded in a source file
only. -/
theorem elab_nested_differs :
    (elabDataBindsWithTypeBinds [pairBind]
      (datatypeOf (.construct [.construct [intTy] ["w"]] ["w"]))).2 = [] ∧
    (elabDatatypeDec (datatypeOf (.construct [.construct [intTy] ["w"]] ["w"]))
      [pairBind]).2 = [] ∧
    ¬ SameDatBinds
      (elabDataBindsWithTypeBinds [pairBind]
        (datatypeOf (.construct [.construct [intTy] ["w"]] ["w"]))).1
      (elabDatatypeDec
        (datatypeOf (.construct [.construct [intTy] ["w"]] ["w"]))
        [pairBind]).1 := by
  refine ⟨by decide, by decide, ?_⟩
  rw [sameDatBinds_iff]
  intro hsame
  have hdiffers := hsame _ List.mem_cons_self _ List.mem_cons_self _ rfl
  simp [SameUpToRenaming, expandInTy, expandInTys, findTypBind, pairBind, intTy,
    substTy, substTyWith, tyconSubst, expandTypBind, replaceTyVarInTyWithTy,
    substTyVarInTy, substTyVarInTys, substParam, tyvarSubst, substTysWith,
    Ty.canon, canonTys] at hdiffers

end WithType

end SmlSharp
