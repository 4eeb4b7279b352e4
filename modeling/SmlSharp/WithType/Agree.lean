/-
When the elaborator of source files and that of interface files expand the same
`withtype` declaration to the same constructor arguments.
-/
import SmlSharp.Lib.KeyedList
import SmlSharp.WithType.Unchanged

namespace SmlSharp

namespace WithType

/-! ### The condition -/

section Flat

variable (binds : List TypBind)

/-- The arguments of a `withtype` constructor: where the body uses a parameter
nothing is left to be expanded in its argument, and a parameter in the kind of a
bound variable is given itself. -/
def FlatArgs (bind : TypBind) (args : List (Ty String)) : Prop :=
  ∀ param ∈ bind.tyvars.zip args,
    (∀ tvar ∈ bind.ty.vars, tvar.symbol = param.1.symbol →
      ¬ param.2.Mentions (binds.map TypBind.symbol)) ∧
    (∀ tvar ∈ bind.ty.kindVars, tvar.symbol = param.1.symbol →
      param.2 = .id tvar)

mutual

/-- No `withtype` constructor stands in an argument of another one or in a kind,
up to arguments that are dropped. -/
def Ty.Flat : Ty String → Prop
  | .wild => True
  | .id _ => True
  | .freeId _ _ => True
  | .record _ fields => flatFields fields
  | .construct args tyCon =>
    match tyCon with
    | [name] =>
      match findTypBind binds name with
      | some bind => FlatArgs binds bind args
      | none => flatTys args
    | _ => flatTys args
  | .tuple tys => flatTys tys
  | .func dom ran => Ty.Flat dom ∧ Ty.Flat ran
  | .poly tvars body =>
    ¬ mentionsAnyTvars (binds.map TypBind.symbol) tvars ∧ Ty.Flat body

def flatTys : List (Ty String) → Prop
  | [] => True
  | ty :: tys => Ty.Flat ty ∧ flatTys tys

def flatFields : List (String × Ty String) → Prop
  | [] => True
  | (_, ty) :: fields => Ty.Flat ty ∧ flatFields fields

end

end Flat

/-! ### Parameters and bindings -/

theorem nodup_of_duplicates {names : List String}
    (hnone : duplicates names = []) : names.Nodup := by
  rw [List.nodup_iff_count_le_one]
  intro name
  by_contra hmany
  have hmem : name ∈ duplicates names := by
    simp only [duplicates, List.mem_eraseDups, List.mem_filter]
    exact ⟨List.count_pos_iff.mp (by omega), by simpa using hmany⟩
  simp [hnone] at hmem

theorem lookup_reverse {α : Type} {entries : List (String × α)}
    (hnodup : (entries.map Prod.fst).Nodup) (key : String) :
    entries.reverse.lookup key = entries.lookup key := by
  have hreverse : (entries.reverse.map Prod.fst).Nodup := by
    rw [List.map_reverse]
    exact List.nodup_reverse.mpr hnodup
  apply Option.ext
  intro value
  rw [KeyedList.lookup_eq_some_iff hreverse, KeyedList.lookup_eq_some_iff hnodup, List.mem_reverse]

theorem foldl_entries {α β : Type} (f : β → String × α) (xs : List β)
    (z : List (String × α)) :
    xs.foldl (fun z x => f x :: z) z = (xs.map f).reverse ++ z := by
  induction xs generalizing z with
  | nil => rfl
  | cons x xs ih => simp [ih]

theorem lookup_tycon {binds : List TypBind}
    (hnodup : (binds.map TypBind.symbol).Nodup) (symbol : String) :
    (tyconSubst binds).tycon.lookup symbol = findTypBind binds symbol := by
  have hentries : (tyconSubst binds).tycon =
      (binds.map fun bind => (bind.symbol, bind)).reverse := by
    have hfold := foldl_entries (fun bind : TypBind => (bind.symbol, bind)) binds
      []
    rwa [List.append_nil] at hfold
  rw [hentries, lookup_reverse (by simpa [Function.comp_def] using hnodup)]
  unfold findTypBind
  clear hentries hnodup
  induction binds with
  | nil => rfl
  | cons bind binds ih =>
    by_cases hname : bind.symbol = symbol
    · simp [hname]
    · have hbeq : (symbol == bind.symbol) = false := by
        simpa using Ne.symm hname
      simp [List.lookup_cons, hbeq, hname, ih]

/-- The argument of a parameter. -/
def argOf (tyvars : List (Tvar String)) (args : List (Ty String))
    (tvar : Tvar String) : Option (Ty String) :=
  ((tyvars.map Tvar.symbol).zip args).lookup tvar.symbol

theorem argOf_map {tyvars : List (Tvar String)} {args : List (Ty String)}
    (f : Ty String → Ty String) (tvar : Tvar String) :
    argOf tyvars (args.map f) tvar = (argOf tyvars args tvar).map f := by
  unfold argOf
  induction tyvars generalizing args with
  | nil => simp
  | cons param tyvars ih =>
    cases args with
    | nil => simp
    | cons arg args =>
      simp only [List.map_cons, List.zip_cons_cons, List.lookup_cons]
      cases tvar.symbol == param.symbol with
      | true => rfl
      | false => exact ih

theorem zip_keys_nodup {α : Type} {names : List String} (hnodup : names.Nodup)
    (args : List α) : ((names.zip args).map Prod.fst).Nodup := by
  induction names generalizing args with
  | nil => simp
  | cons name names ih =>
    cases args with
    | nil => simp
    | cons arg args =>
      obtain ⟨hfresh, hrest⟩ := List.nodup_cons.mp hnodup
      refine List.nodup_cons.mpr ⟨?_, ih hrest args⟩
      intro hmem
      obtain ⟨⟨key, value⟩, hzip, rfl⟩ := List.mem_map.mp hmem
      exact hfresh (List.of_mem_zip hzip).1

theorem argOf_eq_some_iff {tyvars : List (Tvar String)} {args : List (Ty String)}
    (hnodup : (tyvars.map Tvar.symbol).Nodup) {tvar : Tvar String}
    {arg : Ty String} : argOf tyvars args tvar = some arg ↔
      ∃ param, (param, arg) ∈ tyvars.zip args ∧ param.symbol = tvar.symbol := by
  rw [argOf, KeyedList.lookup_eq_some_iff (zip_keys_nodup hnodup args), List.zip_map_left,
    List.mem_map]
  constructor
  · rintro ⟨⟨param, arg'⟩, hmem, heq⟩
    obtain ⟨hname, rfl⟩ : param.symbol = tvar.symbol ∧ arg' = arg := by
      simpa using heq
    exact ⟨param, hmem, hname⟩
  · rintro ⟨param, hmem, hname⟩
    exact ⟨(param, arg), hmem, by simp [hname]⟩

theorem argOf_mem {tyvars : List (Tvar String)} {args : List (Ty String)}
    {tvar : Tvar String} {arg : Ty String}
    (harg : argOf tyvars args tvar = some arg) : arg ∈ args := by
  unfold argOf at harg
  induction tyvars generalizing args with
  | nil => simp at harg
  | cons param tyvars ih =>
    cases args with
    | nil => simp at harg
    | cons first args =>
      simp only [List.map_cons, List.zip_cons_cons, List.lookup_cons] at harg
      cases hname : tvar.symbol == param.symbol with
      | true =>
        obtain rfl : first = arg := by simpa [hname] using harg
        exact List.mem_cons_self
      | false =>
        exact List.mem_cons_of_mem _ (ih (by simpa [hname] using harg))

theorem substParam_fst (tyvars : List (Tvar String)) (args : List (Ty String))
    (tvar : Tvar String) : (substParam (tyvars.map Tvar.symbol) args tvar).1 =
      (argOf tyvars args tvar).getD (.id tvar) := by
  unfold substParam argOf
  cases ((tyvars.map Tvar.symbol).zip args).lookup tvar.symbol <;> rfl

theorem tyvarSubst_get {tyvars : List (Tvar String)} (args : List (Ty String))
    (hnodup : (tyvars.map Tvar.symbol).Nodup) (tvar : Tvar String) :
    (tyvarSubst (tyvars.zip args)).get tvar =
      (argOf tyvars args tvar).getD (.id tvar) := by
  have hentries : (tyvarSubst (tyvars.zip args)).tyvar =
      ((tyvars.map Tvar.symbol).zip args).reverse := by
    have hfold := foldl_entries
      (fun pair : Tvar String × Ty String => (pair.1.symbol, pair.2))
      (tyvars.zip args) []
    rw [List.append_nil] at hfold
    rw [List.zip_map_left]
    exact hfold
  rw [Subst.get, hentries, lookup_reverse (zip_keys_nodup hnodup args), argOf]

/-! ### The condition is enough -/

/-- What the source elaborator demands of the bindings after `withtype`. -/
structure Distinct (binds : List TypBind) : Prop where
  names : (binds.map TypBind.symbol).Nodup
  params : ∀ bind ∈ binds, (bind.tyvars.map Tvar.symbol).Nodup

theorem findTypBind_mem {binds : List TypBind} {symbol : String}
    {bind : TypBind} (hfind : findTypBind binds symbol = some bind) :
    bind ∈ binds ∧ bind.symbol = symbol := by
  have hsymbol := List.find?_some hfind
  exact ⟨List.mem_of_find?_eq_some hfind, by simpa using hsymbol⟩

theorem expandInTys_fst (binds : List TypBind) (tys : List (Ty String)) :
    (expandInTys binds tys).1 = tys.map fun ty => (expandInTy binds ty).1 := by
  induction tys with
  | nil => rfl
  | cons ty tys ih => simp [expandInTys, ih]

theorem expandInTys_accepted {binds : List TypBind} {tys : List (Ty String)}
    (haccept : (expandInTys binds tys).2 = []) :
    ∀ ty ∈ tys, (expandInTy binds ty).2 = [] := by
  induction tys with
  | nil => simp
  | cons ty tys ih =>
    simp only [expandInTys, List.append_eq_nil_iff] at haccept
    simpa [haccept.1] using ih haccept.2

/-- What an accepted application of a `withtype` constructor expands to. -/
theorem expandInTy_con {binds : List TypBind} {args : List (Ty String)}
    {name : String} {bind : TypBind}
    (hfind : findTypBind binds name = some bind)
    (haccept : (expandInTy binds (.construct args [name])).2 = []) :
    bind.tyvars.length = args.length ∧ (expandInTys binds args).2 = [] ∧
      (expandInTy binds (.construct args [name])).1 =
        (substTyVarInTy (substParam (bind.tyvars.map Tvar.symbol)
          (args.map fun ty => (expandInTy binds ty).1)) bind.ty).1 := by
  have hlength : (expandInTys binds args).1.length = args.length := by
    simp [expandInTys_fst]
  by_cases harity : bind.tyvars.length = args.length
  · have harity' : bind.tyvars.length = (expandInTys binds args).1.length :=
      harity.trans hlength.symm
    simp only [expandInTy, hfind, if_pos harity', List.append_eq_nil_iff]
      at haccept
    refine ⟨harity, haccept.1, ?_⟩
    rw [← expandInTys_fst]
    simp only [expandInTy, hfind, if_pos harity', replaceTyVarInTyWithTy]
  · have harity' : ¬ bind.tyvars.length = (expandInTys binds args).1.length :=
      fun h => harity (h.trans hlength)
    simp [expandInTy, hfind, harity'] at haccept

section Agree

variable {binds : List TypBind}

/-- The body of a binding, where nothing is left to be expanded in the arguments
it uses. -/
theorem expandTypBind_agree (hdistinct : Distinct binds) {bind : TypBind}
    (hbind : bind ∈ binds) {args : List (Ty String)}
    (harity : bind.tyvars.length = args.length)
    (hflat : FlatArgs binds bind args) :
    (substTyVarInTy (substParam (bind.tyvars.map Tvar.symbol)
      (args.map fun ty => (expandInTy binds ty).1)) bind.ty).1 =
      (expandTypBind bind args).1 := by
  have hnodup := hdistinct.params bind hbind
  simp only [expandTypBind, if_pos harity]
  apply Ty.subst_agree rfl
  · intro tvar hmem
    rw [substParam_fst, argOf_map, tyvarSubst_get args hnodup]
    cases harg : argOf bind.tyvars args tvar with
    | none => rfl
    | some arg =>
      obtain ⟨param, hzip, hname⟩ := (argOf_eq_some_iff hnodup).mp harg
      have hclean := (hflat _ hzip).1 tvar hmem hname.symm
      exact Ty.expandInTy_fixed arg hclean
  · intro tvar hmem
    have hget := tyvarSubst_get args hnodup tvar
    unfold Subst.get at hget
    unfold Subst.Fixes
    rw [hget]
    cases harg : argOf bind.tyvars args tvar with
    | none => rfl
    | some arg =>
      obtain ⟨param, hzip, hname⟩ := (argOf_eq_some_iff hnodup).mp harg
      exact (hflat _ hzip).2 tvar hmem hname.symm

theorem tycon_none (hdistinct : Distinct binds) (symbol : String)
    (hnot : symbol ∉ binds.map TypBind.symbol) :
    (tyconSubst binds).tycon.lookup symbol = none := by
  rw [lookup_tycon hdistinct.names, findTypBind_none hnot]

mutual

/-- On accepted flat types the two elaborators agree. -/
theorem Ty.expand_agree (hdistinct : Distinct binds) (ty : Ty String)
    (haccept : (expandInTy binds ty).2 = []) (hflat : ty.Flat binds) :
    (expandInTy binds ty).1 = (substTy (tyconSubst binds) ty).1 := by
  cases ty with
  | wild => rfl
  | id tvar => rfl
  | freeId tvar kind => rfl
  | record ifFlex fields =>
    simp only [expandInTy] at haccept
    simp only [Ty.Flat] at hflat
    have hfields := expandFields_agree hdistinct fields haccept hflat
    simp only [expandInTy, substTy, substTyWith, hfields]
  | construct args tyCon =>
    match tyCon with
    | [] =>
      simp only [expandInTy, List.append_eq_nil_iff] at haccept
      simp only [Ty.Flat] at hflat
      have hargs := expandTys_agree hdistinct args haccept.1 hflat
      simp only [expandInTy, substTy, substTyWith, hargs]
    | [name] =>
      have hlookup := lookup_tycon hdistinct.names name
      cases hfind : findTypBind binds name with
      | none =>
        simp only [expandInTy, hfind] at haccept
        simp only [Ty.Flat, hfind] at hflat
        have hargs := expandTys_agree hdistinct args haccept hflat
        simp only [expandInTy, substTy, substTyWith, hfind, hlookup, hargs]
      | some bind =>
        obtain ⟨harity, -, hexpand⟩ := expandInTy_con hfind haccept
        simp only [Ty.Flat, hfind] at hflat
        have hbody := expandTypBind_agree hdistinct
          (findTypBind_mem hfind).1 harity hflat
        rw [hexpand, hbody]
        simp only [substTy, substTyWith, hlookup, hfind]
    | _ :: _ :: _ =>
      simp only [expandInTy, List.append_eq_nil_iff] at haccept
      simp only [Ty.Flat] at hflat
      have hargs := expandTys_agree hdistinct args haccept.1 hflat
      simp only [expandInTy, substTy, substTyWith, hargs]
  | tuple tys =>
    simp only [expandInTy] at haccept
    simp only [Ty.Flat] at hflat
    have htys := expandTys_agree hdistinct tys haccept hflat
    simp only [expandInTy, substTy, substTyWith, htys]
  | func dom ran =>
    simp only [expandInTy, List.append_eq_nil_iff] at haccept
    simp only [Ty.Flat] at hflat
    have hdom := Ty.expand_agree hdistinct dom haccept.1 hflat.1
    have hran := Ty.expand_agree hdistinct ran haccept.2 hflat.2
    simp only [substTy] at hdom hran
    simp only [expandInTy, substTy, substTyWith, hdom, hran]
  | poly tvars body =>
    simp only [expandInTy] at haccept
    simp only [Ty.Flat] at hflat
    have hbody := Ty.expand_agree hdistinct body haccept hflat.2
    have htvars : (substTvarsWith expandTypBind (tyconSubst binds) tvars).1 =
        tvars :=
      substTvarsWith_fixed (tycon_none hdistinct) tvars hflat.1
        fun tvar _ => rfl
    have hmask : maskTyvar (tyconSubst binds) tvars = tyconSubst binds := rfl
    simp only [substTy] at hbody
    simp only [expandInTy, substTy, substTyWith, hmask, htvars, hbody]

theorem expandTys_agree (hdistinct : Distinct binds) (tys : List (Ty String))
    (haccept : (expandInTys binds tys).2 = []) (hflat : flatTys binds tys) :
    (expandInTys binds tys).1 =
      (substTysWith expandTypBind (tyconSubst binds) tys).1 := by
  cases tys with
  | nil => rfl
  | cons ty tys =>
    simp only [expandInTys, List.append_eq_nil_iff] at haccept
    simp only [flatTys] at hflat
    have hty := Ty.expand_agree hdistinct ty haccept.1 hflat.1
    simp only [substTy] at hty
    simp only [expandInTys, substTysWith, hty,
      expandTys_agree hdistinct tys haccept.2 hflat.2]

theorem expandFields_agree (hdistinct : Distinct binds)
    (fields : List (String × Ty String))
    (haccept : (expandInFields binds fields).2 = [])
    (hflat : flatFields binds fields) : (expandInFields binds fields).1 =
      (substFieldsWith expandTypBind (tyconSubst binds) fields).1 := by
  cases fields with
  | nil => rfl
  | cons field fields =>
    obtain ⟨label, ty⟩ := field
    simp only [expandInFields, List.append_eq_nil_iff] at haccept
    simp only [flatFields] at hflat
    have hty := Ty.expand_agree hdistinct ty haccept.1 hflat.1
    simp only [substTy] at hty
    simp only [expandInFields, substFieldsWith, hty,
      expandFields_agree hdistinct fields haccept.2 hflat.2]

end

end Agree

end WithType

end SmlSharp
