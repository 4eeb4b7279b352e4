/-
What the pass decides, declaration by declaration, and when it is the implicit
scoping.
-/
import SmlSharp.UserTvarScope.Collects
import SmlSharp.UserTvarScope.Decide

namespace SmlSharp

namespace UserTvarScope

open WithType (Tvar TvarKind KindedTvar)

/-- A declaration keeps its explicit scope and gets the variables of
`implicit` besides, each of them once. -/
def Site.Scopes (site : Site) (scopedTvars : List (KindedTvar String))
    (implicit : Set String) : Prop :=
  ∃ tvs : TvSet,
    scopedTvars = site.explicit ++ tvs.map (fun tv => (tv, .univ [])) ∧
      (tvs.map Tvar.symbol).Nodup ∧ names tvs = implicit

/-- No enclosing declaration scopes a variable of the explicit scope. -/
def Site.Fresh (site : Site) : Prop :=
  Disjoint (kindedNames site.explicit) site.enclosing.tracked

/-! ### One declaration -/

theorem checkOuterDecl_noOuterScope (btvEnv : BtvEnv)
    (tvars : List (KindedTvar String)) :
    (checkOuterDecl btvEnv tvars).NoOuterScope ↔
      Disjoint (kindedNames tvars) btvEnv.domain := by
  induction tvars with
  | nil => simp [checkOuterDecl, Report.noOuterScope_pure]
  | cons tvar tvars ih =>
    rw [kindedNames_cons, Set.disjoint_insert_left, ← ih]
    refine Report.noOuterScope_bind.trans (and_congr_left fun _ => ?_)
    cases hfound : btvEnv.inDomain tvar.1.symbol with
    | false =>
      simp [enqueueIf, BtvEnv.mem_domain, hfound, Report.noOuterScope_pure]
    | true =>
      simp [enqueueIf, BtvEnv.mem_domain, hfound, Report.NoOuterScope,
        ElaborateError.ScopedAtOuterDecl]

section Declaration

variable {α : Type} {tyvarsFn : BtvEnv → α → Report TvSet} {x : α}
  {few many : Set String}

theorem decideScope_spec (hsub : few ⊆ many)
    (hcollects : ∀ env : BtvEnv, Collects env.domain (tyvarsFn env x) few)
    (enclosing : Enclosing) (btvEnv : BtvEnv)
    (henv : btvEnv.domain = enclosing.tracked)
    (explicitScope : List (KindedTvar String)) :
    let site := Site.of enclosing explicitScope few many hsub
    let decided := decideScope tyvarsFn btvEnv explicitScope x
    decided.result.1.domain = site.inner.tracked ∧
      site.Scopes decided.result.2 (site.collected \ enclosing.tracked) ∧
      (decided.NoOuterScope ↔ site.Fresh) := by
  obtain ⟨hdomain, hsilent⟩ := bindKindedTvars_spec btvEnv explicitScope
  have hunguarded :=
    (tyvarsKindedTvars_collects explicitScope
      (bindKindedTvars btvEnv explicitScope).result).list.union
      (hcollects (bindKindedTvars btvEnv explicitScope).result)
  have hnames :
      names (tyvarsUnion
        (tyvarsList (tyvarsKindedTvars
          (bindKindedTvars btvEnv explicitScope).result explicitScope))
        (tyvarsFn (bindKindedTvars btvEnv explicitScope).result x)).result =
        ((freeKinds explicitScope ∪ few) \ kindedNames explicitScope) \
          enclosing.tracked := by
    rw [hunguarded.names_eq, hdomain, henv, sdiff_sdiff_left,
      Set.union_comm enclosing.tracked]
    rfl
  have hchecked : (checkOuterDecl btvEnv explicitScope).NoOuterScope ↔
      (Site.of enclosing explicitScope few many hsub).Fresh := by
    rw [checkOuterDecl_noOuterScope, henv]
    rfl
  refine ⟨?_, ⟨_, rfl, ?_, ?_⟩, ?_⟩
  · change (extend _ (tyvarsUnion _ _).result).domain = _
    rw [extend_domain, hnames, hdomain, henv, Set.union_assoc]
    ext α
    simp only [Site.inner, Site.of, Set.mem_union, Set.mem_sdiff]
    tauto
  · rw [List.map_reverse, List.nodup_reverse]
    exact hunguarded.nodup
  · exact (names_reverse _).trans hnames
  · rw [← hchecked]
    constructor
    · intro hquiet
      exact (Report.noOuterScope_bind.mp hquiet).1
    · intro hquiet
      refine Report.noOuterScope_bind.mpr ⟨hquiet, ?_⟩
      refine Report.noOuterScope_bind.mpr ⟨hsilent, ?_⟩
      obtain ⟨hkinds, hrest⟩ := Report.noOuterScope_bind.mp hunguarded.noOuterScope
      obtain ⟨hbody, hunion⟩ := Report.noOuterScope_bind.mp hrest
      refine Report.noOuterScope_bind.mpr ⟨hkinds, ?_⟩
      refine Report.noOuterScope_bind.mpr ⟨hbody, ?_⟩
      exact Report.noOuterScope_bind.mpr ⟨hunion, Report.noOuterScope_pure _⟩

end Declaration

/-! ### All declarations -/

/-- The declarations of a phrase are decided one by one: their new scopes are
read from the result, and an error tells of each explicit scope that is not
fresh. -/
def Decides {α : Type} (sites : List Site) (report : Report α)
    (sitesOf : Enclosing → α → List Site) : Prop :=
  (∀ enclosing : Enclosing,
    List.Forall₂
      (fun site decided =>
        site.Scopes decided.explicit (site.collected \ site.enclosing.tracked))
      sites (sitesOf enclosing report.result)) ∧
  (report.NoOuterScope ↔ ∀ site ∈ sites, site.Fresh)

section Phrases

variable {α β γ : Type} {sites sites1 sites2 : List Site} {report : Report α}
  {report1 : Report α} {report2 : Report β}
  {sitesOf : Enclosing → γ → List Site} {sitesOf1 : Enclosing → α → List Site}
  {sitesOf2 : Enclosing → β → List Site}

theorem Decides.leaf {value : γ}
    (hsites : ∀ enclosing, sitesOf enclosing value = []) :
    Decides [] (pure value) sitesOf :=
  ⟨fun enclosing => by
    rw [Report.result_pure, hsites]
    exact .nil, by simp [Report.noOuterScope_pure]⟩

theorem Decides.map {con : α → γ} (h : Decides sites report sitesOf1)
    (hsites : ∀ enclosing value,
      ∃ inner, sitesOf enclosing (con value) = sitesOf1 inner value) :
    Decides sites (report >>= fun value => pure (con value)) sitesOf := by
  obtain ⟨hscopes, hfresh⟩ := h
  constructor
  · intro enclosing
    obtain ⟨inner, hinner⟩ := hsites enclosing report.result
    rw [Report.result_bind, Report.result_pure, hinner]
    exact hscopes inner
  · rw [Report.noOuterScope_bind, hfresh]
    exact and_iff_left (Report.noOuterScope_pure _)

theorem Decides.pair {con : α → β → γ} (h1 : Decides sites1 report1 sitesOf1)
    (h2 : Decides sites2 report2 sitesOf2)
    (hsites : ∀ enclosing value1 value2, ∃ inner1 inner2,
      sitesOf enclosing (con value1 value2) =
        sitesOf1 inner1 value1 ++ sitesOf2 inner2 value2) :
    Decides (sites1 ++ sites2)
      (report1 >>= fun value1 => report2 >>= fun value2 =>
        pure (con value1 value2)) sitesOf := by
  obtain ⟨hscopes1, hfresh1⟩ := h1
  obtain ⟨hscopes2, hfresh2⟩ := h2
  constructor
  · intro enclosing
    obtain ⟨inner1, inner2, hinner⟩ :=
      hsites enclosing report1.result report2.result
    simp only [Report.result_bind, Report.result_pure, hinner]
    exact List.rel_append (hscopes1 inner1) (hscopes2 inner2)
  · rw [Report.noOuterScope_bind, hfresh1, Report.noOuterScope_bind, hfresh2,
      and_iff_left (Report.noOuterScope_pure _)]
    exact List.forall_mem_append.symm

theorem Decides.declaration {tyvarsFn : BtvEnv → α → Report TvSet} {x : α}
    {few many : Set String} {con : List (KindedTvar String) → β → γ}
    {decideBody : BtvEnv → Report β} (hsub : few ⊆ many)
    (hcollects : ∀ env : BtvEnv, Collects env.domain (tyvarsFn env x) few)
    {enclosing : Enclosing} {btvEnv : BtvEnv}
    (henv : btvEnv.domain = enclosing.tracked)
    (explicitScope : List (KindedTvar String)) (hbody : ∀ env : BtvEnv,
      env.domain = (Site.of enclosing explicitScope few many hsub).inner.tracked →
        Decides sites (decideBody env) sitesOf2)
    (hsites : ∀ enclosing scopedTvars value, ∃ site inner,
      site.explicit = scopedTvars ∧ sitesOf enclosing (con scopedTvars value) =
          site :: sitesOf2 inner value) :
    Decides (Site.of enclosing explicitScope few many hsub :: sites)
      (decideScope tyvarsFn btvEnv explicitScope x >>= fun decided =>
        decideBody decided.1 >>= fun value => pure (con decided.2 value))
      sitesOf := by
  obtain ⟨hinner, hscopes, hfresh⟩ :=
    decideScope_spec hsub hcollects enclosing btvEnv henv explicitScope
  obtain ⟨hrest, hquiet⟩ := hbody _ hinner
  constructor
  · intro outer
    obtain ⟨site, inner, hsite, heq⟩ := hsites outer
      (decideScope tyvarsFn btvEnv explicitScope x).result.2
      (decideBody (decideScope tyvarsFn btvEnv explicitScope x).result.1).result
    simp only [Report.result_bind, Report.result_pure, heq]
    refine .cons ?_ (hrest inner)
    rw [hsite]
    exact hscopes
  · rw [Report.noOuterScope_bind, hfresh, Report.noOuterScope_bind, hquiet,
      and_iff_left (Report.noOuterScope_pure _)]
    exact List.forall_mem_cons.symm

end Phrases

mutual

theorem decideExp_decides :
    ∀ (exp : Exp) (enclosing : Enclosing) (btvEnv : BtvEnv),
      btvEnv.domain = enclosing.tracked →
        Decides (sitesExp enclosing exp) (decideExp btvEnv exp) sitesExp
  | .constant _, _, _, _ => .leaf fun _ => rfl
  | .sizeOf _, _, _, _ => .leaf fun _ => rfl
  | .var _, _, _, _ => .leaf fun _ => rfl
  | .typed exp _, enclosing, btvEnv, henv =>
    (decideExp_decides exp enclosing btvEnv henv).map fun _ _ => ⟨_, rfl⟩
  | .appM exp exps, enclosing, btvEnv, henv =>
    (decideExp_decides exp enclosing btvEnv henv).pair
      (decideExps_decides exps enclosing btvEnv henv)
      fun _ _ _ => ⟨_, _, rfl⟩
  | .letIn decls exp, enclosing, btvEnv, henv =>
    (decideDecls_decides decls enclosing btvEnv henv).pair
      (decideExp_decides exp enclosing btvEnv henv)
      fun _ _ _ => ⟨_, _, rfl⟩
  | .record rows, enclosing, btvEnv, henv =>
    (decideRows_decides rows enclosing btvEnv henv).map fun _ _ => ⟨_, rfl⟩
  | .recordUpdate exp rows, enclosing, btvEnv, henv =>
    (decideExp_decides exp enclosing btvEnv henv).pair
      (decideRows_decides rows enclosing btvEnv henv)
      fun _ _ _ => ⟨_, _, rfl⟩
  | .recordUpdate2 exp exp2, enclosing, btvEnv, henv =>
    (decideExp_decides exp enclosing btvEnv henv).pair
      (decideExp_decides exp2 enclosing btvEnv henv)
      fun _ _ _ => ⟨_, _, rfl⟩
  | .raise exp, enclosing, btvEnv, henv =>
    (decideExp_decides exp enclosing btvEnv henv).map fun _ _ => ⟨_, rfl⟩
  | .handle exp rules, enclosing, btvEnv, henv =>
    (decideExp_decides exp enclosing btvEnv henv).pair
      (decideBinds_decides rules enclosing btvEnv henv)
      fun _ _ _ => ⟨_, _, rfl⟩
  | .fnM rules, enclosing, btvEnv, henv =>
    (decideMatches_decides rules enclosing btvEnv henv).map fun _ _ => ⟨_, rfl⟩
  | .caseM exps rules _, enclosing, btvEnv, henv =>
    (decideExps_decides exps enclosing btvEnv henv).pair
      (decideMatches_decides rules enclosing btvEnv henv)
      fun _ _ _ => ⟨_, _, rfl⟩
  | .recordSelector _, _, _, _ => .leaf fun _ => rfl
  | .select _ exp, enclosing, btvEnv, henv =>
    (decideExp_decides exp enclosing btvEnv henv).map fun _ _ => ⟨_, rfl⟩
  | .seq exps, enclosing, btvEnv, henv =>
    (decideExps_decides exps enclosing btvEnv henv).map fun _ _ => ⟨_, rfl⟩
  | .ffiImport ffiFun _, enclosing, btvEnv, henv =>
    (decideFFIFun_decides ffiFun enclosing btvEnv henv).map fun _ _ => ⟨_, rfl⟩
  | .sqlSchema tyFnExp _, enclosing, btvEnv, henv =>
    (decideExp_decides tyFnExp enclosing btvEnv henv).map fun _ _ => ⟨_, rfl⟩
  | .join _ exp1 exp2, enclosing, btvEnv, henv =>
    (decideExp_decides exp1 enclosing btvEnv henv).pair
      (decideExp_decides exp2 enclosing btvEnv henv)
      fun _ _ _ => ⟨_, _, rfl⟩
  | .dynamic exp _, enclosing, btvEnv, henv =>
    (decideExp_decides exp enclosing btvEnv henv).map fun _ _ => ⟨_, rfl⟩
  | .dynamicIs exp _, enclosing, btvEnv, henv =>
    (decideExp_decides exp enclosing btvEnv henv).map fun _ _ => ⟨_, rfl⟩
  | .dynamicNull _, _, _, _ => .leaf fun _ => rfl
  | .dynamicTop _, _, _, _ => .leaf fun _ => rfl
  | .dynamicView exp _, enclosing, btvEnv, henv =>
    (decideExp_decides exp enclosing btvEnv henv).map fun _ _ => ⟨_, rfl⟩
  | .dynamicCase exp rules, enclosing, btvEnv, henv =>
    (decideExp_decides exp enclosing btvEnv henv).pair
      (decideDynMatches_decides rules enclosing btvEnv henv)
      fun _ _ _ => ⟨_, _, rfl⟩
  | .reifyTy _, _, _, _ => .leaf fun _ => rfl

theorem decideFFIFun_decides :
    ∀ (ffiFun : FfiFun) (enclosing : Enclosing) (btvEnv : BtvEnv),
      btvEnv.domain = enclosing.tracked →
        Decides (sitesFfiFun enclosing ffiFun) (decideFFIFun btvEnv ffiFun)
          sitesFfiFun
  | .func exp, enclosing, btvEnv, henv =>
    (decideExp_decides exp enclosing btvEnv henv).map fun _ _ => ⟨_, rfl⟩
  | .externDecl _, _, _, _ => .leaf fun _ => rfl

theorem decideExps_decides :
    ∀ (exps : List Exp) (enclosing : Enclosing) (btvEnv : BtvEnv),
      btvEnv.domain = enclosing.tracked →
        Decides (sitesExps enclosing exps) (decideExps btvEnv exps) sitesExps
  | [], _, _, _ => .leaf fun _ => rfl
  | exp :: exps, enclosing, btvEnv, henv =>
    (decideExp_decides exp enclosing btvEnv henv).pair
      (decideExps_decides exps enclosing btvEnv henv)
      fun _ _ _ => ⟨_, _, rfl⟩

theorem decideRows_decides :
    ∀ (rows : List (String × Exp)) (enclosing : Enclosing) (btvEnv : BtvEnv),
      btvEnv.domain = enclosing.tracked →
        Decides (sitesRows enclosing rows) (decideRows btvEnv rows) sitesRows
  | [], _, _, _ => .leaf fun _ => rfl
  | (_, exp) :: rows, enclosing, btvEnv, henv =>
    (decideExp_decides exp enclosing btvEnv henv).pair
      (decideRows_decides rows enclosing btvEnv henv)
      fun _ _ _ => ⟨_, _, rfl⟩

theorem decideMatches_decides :
    ∀ (rules : List (List Pat × Exp)) (enclosing : Enclosing) (btvEnv : BtvEnv),
      btvEnv.domain = enclosing.tracked →
        Decides (sitesMatches enclosing rules) (decideMatches btvEnv rules)
          sitesMatches
  | [], _, _, _ => .leaf fun _ => rfl
  | (_, exp) :: rules, enclosing, btvEnv, henv =>
    (decideExp_decides exp enclosing btvEnv henv).pair
      (decideMatches_decides rules enclosing btvEnv henv)
      fun _ _ _ => ⟨_, _, rfl⟩

theorem decideBinds_decides :
    ∀ (binds : List (Pat × Exp)) (enclosing : Enclosing) (btvEnv : BtvEnv),
      btvEnv.domain = enclosing.tracked →
        Decides (sitesBinds enclosing binds) (decideBinds btvEnv binds) sitesBinds
  | [], _, _, _ => .leaf fun _ => rfl
  | (_, exp) :: binds, enclosing, btvEnv, henv =>
    (decideExp_decides exp enclosing btvEnv henv).pair
      (decideBinds_decides binds enclosing btvEnv henv)
      fun _ _ _ => ⟨_, _, rfl⟩

/-- The environment of the source is not extended under a rule. -/
theorem decideDynMatches_decides :
    ∀ (rules : List (List (KindedTvar String) × Pat × Exp))
      (enclosing : Enclosing) (btvEnv : BtvEnv),
      btvEnv.domain = enclosing.tracked →
        Decides (sitesDynMatches enclosing rules) (decideDynMatches btvEnv rules)
          sitesDynMatches
  | [], _, _, _ => .leaf fun _ => rfl
  | (tyvars, _, exp) :: rules, enclosing, btvEnv, henv =>
    (decideExp_decides exp (enclosing.underRule tyvars) btvEnv henv).pair
      (decideDynMatches_decides rules enclosing btvEnv henv)
      fun _ _ _ => ⟨_, _, rfl⟩

theorem decidePolyRecBinds_decides :
    ∀ (binds : List (String × Ty × Exp)) (enclosing : Enclosing)
      (btvEnv : BtvEnv),
      btvEnv.domain = enclosing.tracked →
        Decides (sitesPolyRecBinds enclosing binds)
          (decidePolyRecBinds btvEnv binds) sitesPolyRecBinds
  | [], _, _, _ => .leaf fun _ => rfl
  | (_, _, exp) :: binds, enclosing, btvEnv, henv =>
    (decideExp_decides exp enclosing btvEnv henv).pair
      (decidePolyRecBinds_decides binds enclosing btvEnv henv)
      fun _ _ _ => ⟨_, _, rfl⟩

theorem decideFvalbinds_decides :
    ∀ (binds : List (Pat × List (List Pat × Exp))) (enclosing : Enclosing)
      (btvEnv : BtvEnv),
      btvEnv.domain = enclosing.tracked →
        Decides (sitesFvalbinds enclosing binds) (decideFvalbinds btvEnv binds)
          sitesFvalbinds
  | [], _, _, _ => .leaf fun _ => rfl
  | (_, rules) :: binds, enclosing, btvEnv, henv =>
    (decideMatches_decides rules enclosing btvEnv henv).pair
      (decideFvalbinds_decides binds enclosing btvEnv henv)
      fun _ _ _ => ⟨_, _, rfl⟩

theorem decideDecl_decides :
    ∀ (decl : Decl) (enclosing : Enclosing) (btvEnv : BtvEnv),
      btvEnv.domain = enclosing.tracked →
        Decides (sitesDecl enclosing decl) (decideDecl btvEnv decl) sitesDecl
  | .val scopedTvars valbinds, _, _, henv =>
    .declaration (unguardedBinds_mono valbinds)
      (fun env => (tyvarsMatch1s_collects env valbinds).list) henv scopedTvars
      (fun env hinner => decideBinds_decides valbinds _ env hinner)
      fun _ _ _ => ⟨_, _, rfl, rfl⟩
  | .valRec scopedTvars valbinds, _, _, henv =>
    .declaration (unguardedBinds_mono valbinds)
      (fun env => (tyvarsMatch1s_collects env valbinds).list) henv scopedTvars
      (fun env hinner => decideBinds_decides valbinds _ env hinner)
      fun _ _ _ => ⟨_, _, rfl, rfl⟩
  | .valPolyRec polybinds, enclosing, btvEnv, henv =>
    (decidePolyRecBinds_decides polybinds enclosing btvEnv henv).map
      fun _ _ => ⟨_, rfl⟩
  | .decFun scopedTvars fvalbinds, _, _, henv =>
    .declaration (unguardedFvalbinds_mono fvalbinds)
      (fun env => (tyvarsFvalbinds_collects env fvalbinds).list) henv scopedTvars
      (fun env hinner => decideFvalbinds_decides fvalbinds _ env hinner)
      fun _ _ _ => ⟨_, _, rfl, rfl⟩
  | .type _, _, _, _ => .leaf fun _ => rfl
  | .datatype _, _, _, _ => .leaf fun _ => rfl
  | .replicateDat _ _, _, _, _ => .leaf fun _ => rfl
  | .abstype _ decls, enclosing, btvEnv, henv =>
    (decideDecls_decides decls enclosing btvEnv henv).map fun _ _ => ⟨_, rfl⟩
  | .exd _, _, _, _ => .leaf fun _ => rfl
  | .localDec decls1 decls2, enclosing, btvEnv, henv =>
    (decideDecls_decides decls1 enclosing btvEnv henv).pair
      (decideDecls_decides decls2 enclosing btvEnv henv)
      fun _ _ _ => ⟨_, _, rfl⟩
  | .open _, _, _, _ => .leaf fun _ => rfl
  | .infixDec _ _, _, _, _ => .leaf fun _ => rfl
  | .infixrDec _ _, _, _, _ => .leaf fun _ => rfl
  | .nonfixDec _, _, _, _ => .leaf fun _ => rfl
  | .empty, _, _, _ => .leaf fun _ => rfl

theorem decideDecls_decides :
    ∀ (decls : List Decl) (enclosing : Enclosing) (btvEnv : BtvEnv),
      btvEnv.domain = enclosing.tracked →
        Decides (sitesDecls enclosing decls) (decideDecls btvEnv decls) sitesDecls
  | [], _, _, _ => .leaf fun _ => rfl
  | decl :: decls, enclosing, btvEnv, henv =>
    (decideDecl_decides decl enclosing btvEnv henv).pair
      (decideDecls_decides decls enclosing btvEnv henv)
      fun _ _ _ => ⟨_, _, rfl⟩

end

end UserTvarScope

end SmlSharp
