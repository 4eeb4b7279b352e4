/-
What the collecting functions return: the unguarded variables that the
environment does not bind, each once.
-/
import SmlSharp.UserTvarScope.Collect
import SmlSharp.UserTvarScope.Unguarded

namespace SmlSharp

namespace UserTvarScope

open WithType (Tvar TvarKind KindedTvar TypBind ConBind DatBind)

/-! ### Sets of type variables -/

@[simp] theorem names_nil : names [] = ∅ := by
  simp [names]

@[simp] theorem names_cons (tv : Tvar String) (tvs : List (Tvar String)) :
    names (tv :: tvs) = insert tv.symbol (names tvs) := by
  ext α
  simp [names, eq_comm]

@[simp] theorem kindedNames_nil : kindedNames [] = ∅ := by
  simp [kindedNames]

@[simp] theorem kindedNames_cons (tvar : KindedTvar String)
    (tvars : List (KindedTvar String)) :
    kindedNames (tvar :: tvars) = insert tvar.1.symbol (kindedNames tvars) := by
  ext α
  simp [kindedNames, eq_comm]

theorem kindedNames_map (tvars : List (Tvar String)) :
    kindedNames (tvars.map fun tv => (tv, .univ [])) = names tvars := by
  induction tvars with
  | nil => simp
  | cons tv tvars ih => simp [ih]

theorem names_reverse (tvs : List (Tvar String)) : names tvs.reverse = names tvs := by
  ext α
  simp [names]

theorem mem_names {tvs : TvSet} {α : String} :
    α ∈ names tvs ↔ ∃ tv ∈ tvs, tv.symbol = α := Iff.rfl

theorem mem_kindedNames {tvars : List (KindedTvar String)} {α : String} :
    α ∈ kindedNames tvars ↔ ∃ tvar ∈ tvars, tvar.1.symbol = α := Iff.rfl

/-- The error of a variable that an outer declaration binds already. -/
def ElaborateError.ScopedAtOuterDecl : ElaborateError → Prop
  | .userTvarScopedAtOuterDecl _ => True
  | _ => False

/-- No variable was found to be scoped by an outer declaration already. -/
def Report.NoOuterScope {α : Type} (report : Report α) : Prop :=
  ∀ error ∈ report.errors, ¬ error.ScopedAtOuterDecl

theorem Report.noOuterScope_pure {α : Type} (value : α) :
    (pure value : Report α).NoOuterScope := by
  simp [Report.NoOuterScope]

theorem Report.noOuterScope_bind {α β : Type} {report : Report α}
    {next : α → Report β} : (report >>= next).NoOuterScope ↔
      report.NoOuterScope ∧ (next report.result).NoOuterScope := by
  simp only [Report.NoOuterScope, Report.errors_bind, List.mem_append]
  constructor
  · intro h
    exact ⟨fun error herror => h error (Or.inl herror),
      fun error herror => h error (Or.inr herror)⟩
  · rintro ⟨h1, h2⟩ error (herror | herror)
    · exact h1 error herror
    · exact h2 error herror

theorem checkEq_noOuterScope (tvar : Tvar String) (isEq : Bool) :
    (checkEq tvar isEq).NoOuterScope := by
  unfold checkEq
  split
  · exact Report.noOuterScope_pure ()
  · simp [Report.NoOuterScope, ElaborateError.ScopedAtOuterDecl]

theorem union_find_none {tvs : TvSet} {symbol : String} :
    (tvs.find? fun tv1 => tv1.symbol = symbol) = none ↔ symbol ∉ names tvs := by
  simp [List.find?_eq_none, mem_names]

/-- A variable whose name is there is compared with it, not added. -/
theorem unionElem_spec (tvs1 : TvSet) (tv : Tvar String) (tvs : TvSet)
    (hsub : names tvs1 ⊆ names tvs) :
    names (unionElem tvs1 tv tvs).result = insert tv.symbol (names tvs) ∧
      (unionElem tvs1 tv tvs).NoOuterScope := by
  unfold unionElem
  cases hfind : tvs1.find? (fun tv1 => tv1.symbol = tv.symbol) with
  | none => exact ⟨by simp, Report.noOuterScope_pure _⟩
  | some tv1 =>
    have hmem : tv.symbol ∈ names tvs1 := by
      by_contra hnot
      rw [union_find_none.mpr hnot] at hfind
      simp at hfind
    constructor
    · simp only [Report.result_bind, Report.result_pure]
      exact (Set.insert_eq_of_mem (hsub hmem)).symm
    · exact Report.noOuterScope_bind.mpr
        ⟨checkEq_noOuterScope tv tv1.isEq, Report.noOuterScope_pure _⟩

/-- The union of two sets has the names of both, and reports no scope error. -/
theorem union_spec (tvs1 tvs2 : TvSet) :
    names (union tvs1 tvs2).result = names tvs1 ∪ names tvs2 ∧
      (union tvs1 tvs2).NoOuterScope := by
  induction tvs2 with
  | nil => exact ⟨by simp [union], Report.noOuterScope_pure tvs1⟩
  | cons tv tvs2 ih =>
    obtain ⟨hnames, hsilent⟩ := ih
    have hcons : union tvs1 (tv :: tvs2) =
        union tvs1 tvs2 >>= unionElem tvs1 tv := rfl
    have helem := unionElem_spec tvs1 tv (union tvs1 tvs2).result
      (hnames ▸ Set.subset_union_left)
    rw [hcons]
    constructor
    · rw [Report.result_bind, helem.1, hnames, names_cons, Set.union_insert]
    · exact Report.noOuterScope_bind.mpr ⟨hsilent, helem.2⟩

/-- The union keeps the names distinct. -/
theorem union_nodup {tvs1 tvs2 : TvSet} (h1 : (tvs1.map Tvar.symbol).Nodup)
    (h2 : (tvs2.map Tvar.symbol).Nodup) :
    ((union tvs1 tvs2).result.map Tvar.symbol).Nodup := by
  induction tvs2 with
  | nil => simpa [union] using h1
  | cons tv tvs2 ih =>
    obtain ⟨hnew, hrest⟩ := List.nodup_cons.mp h2
    have hcons : (union tvs1 (tv :: tvs2)).result =
        (unionElem tvs1 tv (union tvs1 tvs2).result).result := rfl
    rw [hcons, unionElem]
    cases hfind : tvs1.find? (fun tv1 => tv1.symbol = tv.symbol) with
    | none =>
      refine List.nodup_cons.mpr ⟨?_, ih hrest⟩
      intro hmem
      have hold : tv.symbol ∈ names (union tvs1 tvs2).result :=
        List.mem_map.mp hmem
      rw [(union_spec tvs1 tvs2).1] at hold
      rcases hold with hold | hold
      · exact union_find_none.mp hfind hold
      · exact hnew (List.mem_map.mpr hold)
    | some tv1 => exact ih hrest

/-- Bound variables are taken away by name. -/
theorem names_setminus (tvs1 : TvSet) (tvs2 : List (KindedTvar String)) :
    names (setminus tvs1 tvs2) = names tvs1 \ kindedNames tvs2 := by
  ext α
  simp only [setminus, mem_names, List.mem_filter, Set.mem_sdiff, mem_kindedNames]
  constructor
  · rintro ⟨tv, ⟨hmem, hkeep⟩, rfl⟩
    refine ⟨⟨tv, hmem, rfl⟩, ?_⟩
    rintro ⟨tv2, hmem2, heq⟩
    simp only [Bool.not_eq_true', List.any_eq_false, decide_eq_true_eq] at hkeep
    exact hkeep tv2 hmem2 heq
  · rintro ⟨⟨tv, hmem, rfl⟩, hnot⟩
    refine ⟨tv, ⟨hmem, ?_⟩, rfl⟩
    simp only [Bool.not_eq_true', List.any_eq_false, decide_eq_true_eq]
    intro tv2 hmem2 heq
    exact hnot ⟨tv2, hmem2, heq⟩

/-! ### Environments -/

/-- The names that an environment binds. -/
def BtvEnv.domain (btvEnv : BtvEnv) : Set String :=
  { α | btvEnv.inDomain α }

theorem BtvEnv.mem_domain {btvEnv : BtvEnv} {α : String} :
    α ∈ btvEnv.domain ↔ btvEnv.inDomain α = true := Iff.rfl

theorem emptyEnv_domain : emptyEnv.domain = ∅ := by
  ext α
  simp [BtvEnv.mem_domain, BtvEnv.inDomain, BtvEnv.find, emptyEnv]

theorem BtvEnv.domain_insert (btvEnv : BtvEnv) (symbol : String)
    (binding : Binding) :
    (btvEnv.insert symbol binding).domain = btvEnv.domain ∪ {symbol} := by
  ext α
  simp only [BtvEnv.mem_domain, BtvEnv.inDomain, BtvEnv.find, BtvEnv.insert,
    Option.isSome_map, KeyedList.find_insert, Set.mem_union,
    Set.mem_singleton_iff, id]
  by_cases heq : symbol = α
  · simp [heq]
  · simp [heq, Ne.symm heq]

/-- Bindings that are made one after another bind the names of all items. -/
theorem BtvEnv.domain_foldl {ι : Type} (symbol : ι → String)
    (binding : ι → Binding) (items : List ι) (btvEnv : BtvEnv) :
    BtvEnv.domain (items.foldl
        (fun env item => BtvEnv.insert env (symbol item) (binding item)) btvEnv) =
      btvEnv.domain ∪ { α | ∃ item ∈ items, symbol item = α } := by
  induction items generalizing btvEnv with
  | nil => simp
  | cons item items ih =>
    rw [List.foldl_cons, ih, BtvEnv.domain_insert, Set.union_assoc]
    congr 1
    ext α
    simp [eq_comm]

theorem extend_domain (btvEnv : BtvEnv) (tvset : TvSet) :
    (extend btvEnv tvset).domain = btvEnv.domain ∪ names tvset :=
  BtvEnv.domain_foldl Tvar.symbol _ tvset btvEnv

theorem BtvEnv.domain_eq_keys (btvEnv : BtvEnv) :
    btvEnv.domain = { α | ∃ entry ∈ btvEnv, entry.1 = α } := by
  ext α
  simp only [BtvEnv.mem_domain, BtvEnv.inDomain, BtvEnv.find, Option.isSome_map,
    KeyedList.find_isSome_iff, KeyedList.keys, List.mem_map, Set.mem_ofPred_eq, id]

theorem BtvEnv.domain_unionWithSnd (btvEnv newEnv : BtvEnv) :
    (btvEnv.unionWithSnd newEnv).domain = btvEnv.domain ∪ newEnv.domain := by
  rw [BtvEnv.domain_eq_keys newEnv]
  exact BtvEnv.domain_foldl Prod.fst Prod.snd newEnv btvEnv

/-- A name that is bound twice is reported, and bound all the same. -/
theorem insertKindedTvar_spec (btvEnv : BtvEnv) (tvar : KindedTvar String) :
    (insertKindedTvar btvEnv tvar).result.domain =
        btvEnv.domain ∪ {tvar.1.symbol} ∧
      (insertKindedTvar btvEnv tvar).NoOuterScope := by
  constructor
  · simp only [insertKindedTvar, Report.result_bind, Report.result_pure,
      BtvEnv.domain_insert]
  · refine Report.noOuterScope_bind.mpr ⟨?_, Report.noOuterScope_pure _⟩
    unfold enqueueIf
    split
    · simp [Report.NoOuterScope, ElaborateError.ScopedAtOuterDecl]
    · exact Report.noOuterScope_pure ()

/-- The loop of `toBtvEnv` from the environment built so far. -/
theorem toBtvEnv_loop (kindedTvars : List (KindedTvar String))
    (start : Report BtvEnv) (hstart : start.NoOuterScope) :
    let last := kindedTvars.foldl
      (fun btvEnv tvar => btvEnv >>= (insertKindedTvar · tvar)) start
    last.result.domain = start.result.domain ∪ kindedNames kindedTvars ∧
      last.NoOuterScope := by
  induction kindedTvars generalizing start with
  | nil => exact ⟨by simp, hstart⟩
  | cons tvar kindedTvars ih =>
    obtain ⟨hinsert, hquiet⟩ := insertKindedTvar_spec start.result tvar
    obtain ⟨hdomain, hsilent⟩ := ih (start >>= (insertKindedTvar · tvar))
      (Report.noOuterScope_bind.mpr ⟨hstart, hquiet⟩)
    refine ⟨?_, hsilent⟩
    rw [List.foldl_cons, hdomain, Report.result_bind, hinsert, kindedNames_cons,
      Set.union_assoc, Set.singleton_union]

theorem bindKindedTvars_spec (btvEnv : BtvEnv)
    (kindedTvars : List (KindedTvar String)) :
    (bindKindedTvars btvEnv kindedTvars).result.domain =
        btvEnv.domain ∪ kindedNames kindedTvars ∧
      (bindKindedTvars btvEnv kindedTvars).NoOuterScope := by
  obtain ⟨hdomain, hsilent⟩ :=
    toBtvEnv_loop kindedTvars (pure emptyEnv) (Report.noOuterScope_pure _)
  constructor
  · simp only [bindKindedTvars, Report.result_bind, Report.result_pure,
      BtvEnv.domain_unionWithSnd]
    rw [toBtvEnv, hdomain, Report.result_pure, emptyEnv_domain, Set.empty_union]
  · exact Report.noOuterScope_bind.mpr ⟨hsilent, Report.noOuterScope_pure _⟩

/-! ### One call and a list of calls -/

/-- A call collects the variables of `free` that `domain` does not bind. -/
structure Collects (domain : Set String) (call : Report TvSet)
    (free : Set String) : Prop where
  names_eq : names call.result = free \ domain
  nodup : (call.result.map Tvar.symbol).Nodup
  noOuterScope : call.NoOuterScope

section Calls

variable {domain : Set String} {call call1 call2 : Report TvSet}
  {free free1 free2 : Set String}

theorem Collects.empty : Collects domain (pure []) ∅ where
  names_eq := by simp
  nodup := List.nodup_nil
  noOuterScope := Report.noOuterScope_pure _

/-- Two parts of a phrase contribute the free names of both. -/
theorem Collects.union (h1 : Collects domain call1 free1)
    (h2 : Collects domain call2 free2) :
    Collects domain (tyvarsUnion call1 call2) (free1 ∪ free2) where
  names_eq := by
    simp only [tyvarsUnion, Report.result_bind]
    rw [(union_spec _ _).1, h1.names_eq, h2.names_eq, Set.union_sdiff_distrib]
  nodup := union_nodup h1.nodup h2.nodup
  noOuterScope :=
    Report.noOuterScope_bind.mpr ⟨h1.noOuterScope,
      Report.noOuterScope_bind.mpr ⟨h2.noOuterScope, (union_spec _ _).2⟩⟩

/-- A binder takes its names away from those of its body. -/
theorem Collects.setminus (tvs : List (KindedTvar String))
    (h : Collects domain call free) :
    Collects domain (call >>= fun found => pure (setminus found tvs))
      (free \ kindedNames tvs) where
  names_eq := by
    rw [Report.result_bind, Report.result_pure, names_setminus, h.names_eq]
    exact Set.sdiff_sdiff_comm
  nodup := h.nodup.sublist (List.filter_sublist.map Tvar.symbol)
  noOuterScope :=
    Report.noOuterScope_bind.mpr ⟨h.noOuterScope, Report.noOuterScope_pure _⟩

/-- A call under a binder. -/
theorem Collects.bind {btvEnv : BtvEnv} {kindedTvars : List (KindedTvar String)}
    {next : BtvEnv → Report TvSet} (h : ∀ env : BtvEnv,
      env.domain = btvEnv.domain ∪ kindedNames kindedTvars →
        Collects env.domain (next env) free) :
    Collects btvEnv.domain (bindKindedTvars btvEnv kindedTvars >>= next)
      (free \ kindedNames kindedTvars) := by
  obtain ⟨hdomain, hsilent⟩ := bindKindedTvars_spec btvEnv kindedTvars
  have hnext := h _ hdomain
  exact {
    names_eq := by
      rw [Report.result_bind, hnext.names_eq, hdomain, Set.union_comm, sdiff_sdiff_left]
      rfl
    nodup := hnext.nodup
    noOuterScope := Report.noOuterScope_bind.mpr ⟨hsilent, hnext.noOuterScope⟩ }

/-- The body is searched in the extended environment, so that it does not
contribute the names bound. -/
theorem Collects.bindTvars {btvEnv : BtvEnv} {tvars : List (Tvar String)}
    {next : BtvEnv → Report TvSet}
    (h : ∀ env : BtvEnv, Collects env.domain (next env) free) :
    Collects btvEnv.domain (UserTvarScope.bindTvars btvEnv tvars >>= next)
      (free \ names tvars) := by
  rw [← kindedNames_map tvars]
  exact Collects.bind fun env _ => h env

/-- Calls that collect together the variables of `free`. -/
inductive CollectsAll (domain : Set String) :
    List (Report TvSet) → Set String → Prop where
  | nil : CollectsAll domain [] ∅
  | cons {call : Report TvSet} {calls : List (Report TvSet)}
      {free rest : Set String} :
      Collects domain call free → CollectsAll domain calls rest →
        CollectsAll domain (call :: calls) (free ∪ rest)

/-- The order of the parts does not matter. -/
theorem CollectsAll.perm {calls calls' : List (Report TvSet)}
    (hperm : calls.Perm calls') (h : CollectsAll domain calls free) :
    CollectsAll domain calls' free := by
  induction hperm generalizing free with
  | nil => exact h
  | cons call _ ih =>
    cases h with
    | cons hcall hcalls => exact .cons hcall (ih hcalls)
  | swap call1 call2 calls =>
    cases h with
    | cons hcall1 hrest =>
      cases hrest with
      | cons hcall2 hcalls =>
        rw [Set.union_left_comm]
        exact .cons hcall2 (.cons hcall1 hcalls)
  | trans _ _ ih1 ih2 => exact ih2 (ih1 h)

/-- The loop of `tyvarsList` from what has been collected. -/
theorem CollectsAll.foldl {calls : List (Report TvSet)} {rest : Set String}
    (h : CollectsAll domain calls rest) (hstart : Collects domain call free) :
    Collects domain (calls.foldl tyvarsUnion call) (free ∪ rest) := by
  induction h generalizing call free with
  | nil => simpa using hstart
  | cons hcall _ ih =>
    rw [List.foldl_cons, ← Set.union_assoc]
    exact ih (hstart.union hcall)

theorem CollectsAll.list {calls : List (Report TvSet)}
    (h : CollectsAll domain calls free) :
    Collects domain (tyvarsList calls) free := by
  simpa [tyvarsList] using h.foldl Collects.empty

/-- Rows are visited in the order of their labels. -/
theorem CollectsAll.sorted {rows : List (String × Report TvSet)}
    (h : CollectsAll domain (rows.map Prod.snd) free) :
    Collects domain (tyvarsList ((sortTyrows rows).map Prod.snd)) free :=
  (h.perm ((ListSorter.sort_perm _ rows).symm.map Prod.snd)).list

end Calls

/-- A variable is collected unless it is bound. -/
theorem tyvarsTvar_collects (btvEnv : BtvEnv) (tv : Tvar String) :
    Collects btvEnv.domain (tyvarsTvar btvEnv tv) {tv.symbol} := by
  unfold tyvarsTvar
  cases hfind : btvEnv.find tv.symbol with
  | none =>
    have hout : tv.symbol ∉ btvEnv.domain := by
      simp [BtvEnv.mem_domain, BtvEnv.inDomain, hfind]
    exact {
      names_eq := by
        rw [sdiff_eq_left.mpr (Set.disjoint_singleton_left.mpr hout)]
        simp
      nodup := by simp
      noOuterScope := Report.noOuterScope_pure _ }
  | some binding =>
    have hin : tv.symbol ∈ btvEnv.domain := by
      simp [BtvEnv.mem_domain, BtvEnv.inDomain, hfind]
    exact {
      names_eq := by
        rw [Set.sdiff_eq_empty.mpr (Set.singleton_subset_iff.mpr hin)]
        exact names_nil
      nodup := by simp
      noOuterScope := Report.noOuterScope_bind.mpr
        ⟨checkEq_noOuterScope tv binding.isEq, Report.noOuterScope_pure _⟩ }

/-! ### Types and patterns -/

mutual

/-- The collected variables of a type are its free ones. The induction goes over
types and kinds at once. -/
theorem tyvarsTy_collects :
    ∀ (ty : Ty) (btvEnv : BtvEnv),
      Collects btvEnv.domain (tyvarsTy btvEnv ty) (freeTy ty)
  | .wild, _ => .empty
  | .id tv, btvEnv => tyvarsTvar_collects btvEnv tv
  | .freeId _ _, _ => .empty
  | .record _ fields, btvEnv => (tyvarsTyRows_collects fields btvEnv).sorted
  | .construct tys _, btvEnv => (tyvarsTys_collects tys btvEnv).list
  | .tuple tys, btvEnv => (tyvarsTys_collects tys btvEnv).list
  | .func ty1 ty2, btvEnv =>
    (tyvarsTy_collects ty1 btvEnv).union (tyvarsTy_collects ty2 btvEnv)
  | .poly tvars ty, _ =>
    Collects.bind fun env _ =>
      (tyvarsKindedTvars_collects tvars env).list.union (tyvarsTy_collects ty env)

theorem tyvarsTys_collects :
    ∀ (tys : List Ty) (btvEnv : BtvEnv),
      CollectsAll btvEnv.domain (tyvarsTys btvEnv tys) (freeTys tys)
  | [], _ => .nil
  | ty :: tys, btvEnv =>
    .cons (tyvarsTy_collects ty btvEnv) (tyvarsTys_collects tys btvEnv)

theorem tyvarsTyRows_collects :
    ∀ (rows : List (String × Ty)) (btvEnv : BtvEnv),
      CollectsAll btvEnv.domain ((tyvarsTyRows btvEnv rows).map Prod.snd)
        (freeTyRows rows)
  | [], _ => .nil
  | (_, ty) :: rows, btvEnv =>
    .cons (tyvarsTy_collects ty btvEnv) (tyvarsTyRows_collects rows btvEnv)

theorem tyvarsKindedTvars_collects :
    ∀ (tvars : List (KindedTvar String)) (btvEnv : BtvEnv),
      CollectsAll btvEnv.domain (tyvarsKindedTvars btvEnv tvars) (freeKinds tvars)
  | [], _ => .nil
  | (_, kind) :: tvars, btvEnv =>
    .cons (tyvarsTvarKind_collects kind btvEnv)
      (tyvarsKindedTvars_collects tvars btvEnv)

theorem tyvarsTvarKind_collects :
    ∀ (kind : TvarKind String) (btvEnv : BtvEnv),
      Collects btvEnv.domain (tyvarsTvarKind btvEnv kind) (freeKind kind)
  | .univ _, _ => .empty
  | .recKind _ recordKind, btvEnv =>
    (tyvarsTyRows_collects recordKind btvEnv).sorted

end

theorem tyvarsTyOpt_collects (ty : Option Ty) (btvEnv : BtvEnv) :
    Collects btvEnv.domain (tyvarsOpt (tyvarsTy btvEnv) ty) (freeTyOpt ty) := by
  cases ty with
  | none => exact .empty
  | some ty => exact tyvarsTy_collects ty btvEnv

mutual

theorem tyvarsFFIty_collects :
    ∀ (ty : FfiTy) (btvEnv : BtvEnv),
      Collects btvEnv.domain (tyvarsFFIty btvEnv ty) (freeFfiTy ty)
  | .funTy argTys varTys retTys, btvEnv =>
    ((tyvarsFFItys_collects argTys btvEnv).list.union
      (tyvarsFFItysOpt_collects varTys btvEnv)).union
      (tyvarsFFItys_collects retTys btvEnv).list
  | .tyVar tv, btvEnv => tyvarsTvar_collects btvEnv tv
  | .recordTy rows, btvEnv => (tyvarsFFIRows_collects rows btvEnv).sorted
  | .conTy tys _, btvEnv => (tyvarsFFItys_collects tys btvEnv).list

theorem tyvarsFFItys_collects :
    ∀ (tys : List FfiTy) (btvEnv : BtvEnv),
      CollectsAll btvEnv.domain (tyvarsFFItys btvEnv tys) (freeFfiTys tys)
  | [], _ => .nil
  | ty :: tys, btvEnv =>
    .cons (tyvarsFFIty_collects ty btvEnv) (tyvarsFFItys_collects tys btvEnv)

theorem tyvarsFFItysOpt_collects :
    ∀ (tys : Option (List FfiTy)) (btvEnv : BtvEnv),
      Collects btvEnv.domain (tyvarsFFItysOpt btvEnv tys) (freeFfiTysOpt tys)
  | none, _ => .empty
  | some tys, btvEnv => (tyvarsFFItys_collects tys btvEnv).list

theorem tyvarsFFIRows_collects :
    ∀ (rows : List (String × FfiTy)) (btvEnv : BtvEnv),
      CollectsAll btvEnv.domain ((tyvarsFFIRows btvEnv rows).map Prod.snd)
        (freeFfiRows rows)
  | [], _ => .nil
  | (_, ty) :: rows, btvEnv =>
    .cons (tyvarsFFIty_collects ty btvEnv) (tyvarsFFIRows_collects rows btvEnv)

end

theorem tyvarsTypbinds_collects (typbinds : List TypBind) (btvEnv : BtvEnv) :
    CollectsAll btvEnv.domain (typbinds.map (tyvarsTypbind btvEnv))
      (freeTypBinds typbinds) := by
  induction typbinds with
  | nil => exact .nil
  | cons typbind typbinds ih =>
    exact .cons (Collects.bindTvars fun env => tyvarsTy_collects typbind.ty env) ih

theorem tyvarsConbinds_collects (conbinds : List ConBind) (btvEnv : BtvEnv) :
    CollectsAll btvEnv.domain (conbinds.map (tyvarsConbind btvEnv))
      (freeConBinds conbinds) := by
  induction conbinds with
  | nil => exact .nil
  | cons conbind conbinds ih =>
    exact .cons (tyvarsTyOpt_collects conbind.ty btvEnv) ih

theorem tyvarsDatbinds_collects (datbinds : List DatBind) (btvEnv : BtvEnv) :
    CollectsAll btvEnv.domain (datbinds.map (tyvarsDatbind btvEnv))
      (freeDatBinds datbinds) := by
  induction datbinds with
  | nil => exact .nil
  | cons datbind datbinds ih =>
    exact .cons (Collects.bindTvars fun env =>
      (tyvarsConbinds_collects datbind.conbind env).list) ih

theorem tyvarsExbinds_collects (exbinds : List ExBind) (btvEnv : BtvEnv) :
    CollectsAll btvEnv.domain (exbinds.map (tyvarsExbind btvEnv))
      (freeExBinds exbinds) := by
  induction exbinds with
  | nil => exact .nil
  | cons exbind exbinds ih =>
    cases exbind with
    | define _ ty => exact .cons (tyvarsTyOpt_collects ty btvEnv) ih
    | replicate _ _ =>
      rw [freeExBinds, ← Set.empty_union (freeExBinds exbinds)]
      exact .cons .empty ih

mutual

/-- A pattern contributes the variables of its type annotations. -/
theorem tyvarsPat_collects (btvEnv : BtvEnv) :
    ∀ pat : Pat, Collects btvEnv.domain (tyvarsPat btvEnv pat) (freePat pat)
  | .wild => .empty
  | .id _ => .empty
  | .constant _ => .empty
  | .construct pat1 pat2 =>
    (tyvarsPat_collects btvEnv pat1).union (tyvarsPat_collects btvEnv pat2)
  | .record _ rows => (tyvarsPatRows_collects btvEnv rows).list
  | .layered _ ty pat =>
    (tyvarsTyOpt_collects ty btvEnv).union (tyvarsPat_collects btvEnv pat)
  | .typed pat ty =>
    (tyvarsPat_collects btvEnv pat).union (tyvarsTy_collects ty btvEnv)

theorem tyvarsPatRows_collects (btvEnv : BtvEnv) :
    ∀ rows : List (String × Pat),
      CollectsAll btvEnv.domain (tyvarsPatRows btvEnv rows) (freePatRows rows)
  | [] => .nil
  | (_, pat) :: rows =>
    .cons (tyvarsPat_collects btvEnv pat) (tyvarsPatRows_collects btvEnv rows)

end

theorem tyvarsPats_collects (btvEnv : BtvEnv) (pats : List Pat) :
    CollectsAll btvEnv.domain (pats.map (tyvarsPat btvEnv)) (freePats pats) := by
  induction pats with
  | nil => exact .nil
  | cons pat pats ih => exact .cons (tyvarsPat_collects btvEnv pat) ih

/-! ### Expressions and declarations -/

mutual

/-- The source leaves the kinds of rule variables out. -/
theorem tyvarsExp_collects (btvEnv : BtvEnv) :
    ∀ exp : Exp,
      Collects btvEnv.domain (tyvarsExp btvEnv exp) (unguardedExp false exp)
  | .constant _ => .empty
  | .sizeOf ty => tyvarsTy_collects ty btvEnv
  | .var _ => .empty
  | .typed exp ty =>
    (tyvarsExp_collects btvEnv exp).union (tyvarsTy_collects ty btvEnv)
  | .appM exp exps =>
    (tyvarsExp_collects btvEnv exp).union (tyvarsExps_collects btvEnv exps).list
  | .letIn decls exp =>
    (tyvarsDecls_collects btvEnv decls).list.union (tyvarsExp_collects btvEnv exp)
  | .record rows => (tyvarsRows_collects btvEnv rows).list
  | .recordUpdate exp rows =>
    (tyvarsExp_collects btvEnv exp).union (tyvarsRows_collects btvEnv rows).list
  | .recordUpdate2 exp exp2 =>
    (tyvarsExp_collects btvEnv exp).union (tyvarsExp_collects btvEnv exp2)
  | .raise exp => tyvarsExp_collects btvEnv exp
  | .handle exp rules =>
    (tyvarsExp_collects btvEnv exp).union
      (tyvarsMatch1s_collects btvEnv rules).list
  | .fnM rules => (tyvarsMatches_collects btvEnv rules).list
  | .caseM exps rules _ =>
    (tyvarsExps_collects btvEnv exps).list.union
      (tyvarsMatches_collects btvEnv rules).list
  | .recordSelector _ => .empty
  | .select _ exp => tyvarsExp_collects btvEnv exp
  | .seq exps => (tyvarsExps_collects btvEnv exps).list
  | .ffiImport ffiFun ffiTy =>
    (tyvarsFFIFun_collects btvEnv ffiFun).union (tyvarsFFIty_collects ffiTy btvEnv)
  | .sqlSchema tyFnExp ty =>
    (tyvarsExp_collects btvEnv tyFnExp).union (tyvarsTy_collects ty btvEnv)
  | .join _ exp1 exp2 =>
    (tyvarsExp_collects btvEnv exp1).union (tyvarsExp_collects btvEnv exp2)
  | .dynamic exp ty =>
    (tyvarsExp_collects btvEnv exp).union (tyvarsTy_collects ty btvEnv)
  | .dynamicIs exp ty =>
    (tyvarsExp_collects btvEnv exp).union (tyvarsTy_collects ty btvEnv)
  | .dynamicNull ty => tyvarsTy_collects ty btvEnv
  | .dynamicTop ty => tyvarsTy_collects ty btvEnv
  | .dynamicView exp ty =>
    (tyvarsExp_collects btvEnv exp).union (tyvarsTy_collects ty btvEnv)
  | .dynamicCase exp rules =>
    (tyvarsExp_collects btvEnv exp).union
      (tyvarsDynMatches_collects btvEnv rules).list
  | .reifyTy ty => tyvarsTy_collects ty btvEnv

theorem tyvarsFFIFun_collects (btvEnv : BtvEnv) :
    ∀ ffiFun : FfiFun,
      Collects btvEnv.domain (tyvarsFFIFun btvEnv ffiFun)
        (unguardedFfiFun false ffiFun)
  | .func exp => tyvarsExp_collects btvEnv exp
  | .externDecl _ => .empty

theorem tyvarsExps_collects (btvEnv : BtvEnv) :
    ∀ exps : List Exp,
      CollectsAll btvEnv.domain (tyvarsExps btvEnv exps) (unguardedExps false exps)
  | [] => .nil
  | exp :: exps =>
    .cons (tyvarsExp_collects btvEnv exp) (tyvarsExps_collects btvEnv exps)

theorem tyvarsRows_collects (btvEnv : BtvEnv) :
    ∀ rows : List (String × Exp),
      CollectsAll btvEnv.domain (tyvarsRows btvEnv rows) (unguardedRows false rows)
  | [] => .nil
  | (_, exp) :: rows =>
    .cons (tyvarsExp_collects btvEnv exp) (tyvarsRows_collects btvEnv rows)

theorem tyvarsMatches_collects (btvEnv : BtvEnv) :
    ∀ rules : List (List Pat × Exp),
      CollectsAll btvEnv.domain (tyvarsMatches btvEnv rules)
        (unguardedMatches false rules)
  | [] => .nil
  | (pats, exp) :: rules =>
    .cons
      ((tyvarsPats_collects btvEnv pats).list.union (tyvarsExp_collects btvEnv exp))
      (tyvarsMatches_collects btvEnv rules)

theorem tyvarsMatch1s_collects (btvEnv : BtvEnv) :
    ∀ rules : List (Pat × Exp),
      CollectsAll btvEnv.domain (tyvarsMatch1s btvEnv rules)
        (unguardedBinds false rules)
  | [] => .nil
  | (pat, exp) :: rules =>
    .cons ((tyvarsPat_collects btvEnv pat).union (tyvarsExp_collects btvEnv exp))
      (tyvarsMatch1s_collects btvEnv rules)

theorem tyvarsDynMatches_collects (btvEnv : BtvEnv) :
    ∀ rules : List (List (KindedTvar String) × Pat × Exp),
      CollectsAll btvEnv.domain (tyvarsDynMatches btvEnv rules)
        (unguardedDynMatches false rules)
  | [] => .nil
  | (tyvars, pat, exp) :: rules => by
      have hrule := ((tyvarsPat_collects btvEnv pat).union
        (tyvarsExp_collects btvEnv exp)).setminus tyvars
      rw [← Set.empty_union (freePat pat ∪ unguardedExp false exp)] at hrule
      exact .cons hrule (tyvarsDynMatches_collects btvEnv rules)

/-- A declaration that scopes its own variables contributes none. -/
theorem tyvarsDecl_collects (btvEnv : BtvEnv) :
    ∀ decl : Decl,
      Collects btvEnv.domain (tyvarsDecl btvEnv decl) (unguardedDecl false decl)
  | .val _ _ => .empty
  | .valRec _ _ => .empty
  | .valPolyRec _ => .empty
  | .decFun _ _ => .empty
  | .type typbinds => (tyvarsTypbinds_collects typbinds btvEnv).list
  | .datatype datbinds => (tyvarsDatbinds_collects datbinds btvEnv).list
  | .replicateDat _ _ => .empty
  | .abstype datbinds decls =>
    (tyvarsDatbinds_collects datbinds btvEnv).list.union
      (tyvarsDecls_collects btvEnv decls).list
  | .exd exbinds => (tyvarsExbinds_collects exbinds btvEnv).list
  | .localDec decls1 decls2 =>
    (tyvarsDecls_collects btvEnv decls1).list.union
      (tyvarsDecls_collects btvEnv decls2).list
  | .open _ => .empty
  | .infixDec _ _ => .empty
  | .infixrDec _ _ => .empty
  | .nonfixDec _ => .empty
  | .empty => .empty

theorem tyvarsDecls_collects (btvEnv : BtvEnv) :
    ∀ decls : List Decl,
      CollectsAll btvEnv.domain (tyvarsDecls btvEnv decls)
        (unguardedDecls false decls)
  | [] => .nil
  | decl :: decls =>
    .cons (tyvarsDecl_collects btvEnv decl) (tyvarsDecls_collects btvEnv decls)

end

theorem tyvarsFvalbinds_collects (btvEnv : BtvEnv)
    (fvalbinds : List (Pat × List (List Pat × Exp))) :
    CollectsAll btvEnv.domain (fvalbinds.map (tyvarsFvalbind btvEnv))
      (unguardedFvalbinds false fvalbinds) := by
  induction fvalbinds with
  | nil => exact .nil
  | cons fvalbind fvalbinds ih =>
    exact .cons ((tyvarsPat_collects btvEnv fvalbind.1).union
      (tyvarsMatches_collects btvEnv fvalbind.2).list) ih

end UserTvarScope

end SmlSharp
