/-
The declarations on which the pass is the implicit scoping of the Definition.
-/
import SmlSharp.UserTvarScope.Frame
import SmlSharp.UserTvarScope.Scoped

namespace SmlSharp

namespace UserTvarScope

open WithType (Tvar TvarKind KindedTvar)

/-- Implicit scoping: a declaration scopes the variables that occur unguarded
in it and that no enclosing binder binds. -/
def Site.ScopedImplicitly (site : Site) (scopedTvars : List (KindedTvar String)) :
    Prop :=
  site.Scopes scopedTvars (site.occurring \ site.enclosing.bound)

/-- Every declaration of `decl` is scoped implicitly in `scoped`, where nothing
else differs, and an explicit scope binds no variable again. -/
structure ScopesRight (decl : Decl) (decided : Report Decl) : Prop where
  implicit :
    List.Forall₂ (fun site result => site.ScopedImplicitly result.explicit)
      (sitesDecl .none decl) (sitesDecl .none decided.result)
  frame : unscopeDecl decided.result = unscopeDecl decl
  explicit :
    decided.NoOuterScope →
      ∀ site ∈ sitesDecl .none decl,
        Disjoint (kindedNames site.explicit) site.enclosing.bound

/-- At this declaration the kinds of rule variables add nothing, and the
variables of the enclosing rules do not occur unguarded. -/
structure Site.Plain (site : Site) : Prop where
  kinds : ∀ α ∈ site.occurring, α ∉ site.enclosing.bound → α ∈ site.collected
  rules : ∀ α ∈ site.collected,
    α ∈ site.enclosing.bound → α ∈ site.enclosing.tracked

/-- Either some declaration explicitly scopes a variable of an enclosing
declaration, or none explicitly scopes a variable of an enclosing rule. -/
def ExplicitPlain (decl : Decl) : Prop :=
  (∃ site ∈ sitesDecl .none decl,
    ∃ α ∈ kindedNames site.explicit, α ∈ site.enclosing.tracked) ∨
  ∀ site ∈ sitesDecl .none decl,
    ∀ α ∈ kindedNames site.explicit,
      α ∈ site.enclosing.bound → α ∈ site.enclosing.tracked

theorem Site.plain_iff (site : Site) : site.Plain ↔
      site.collected \ site.enclosing.tracked =
        site.occurring \ site.enclosing.bound := by
  constructor
  · rintro ⟨hkinds, hrules⟩
    ext α
    constructor
    · rintro ⟨hmem, hout⟩
      exact ⟨site.collected_subset hmem, fun hbound => hout (hrules α hmem hbound)⟩
    · rintro ⟨hmem, hout⟩
      exact ⟨hkinds α hmem hout,
        fun htracked => hout (site.enclosing.tracked_subset htracked)⟩
  · intro heq
    constructor
    · intro α hmem hout
      have hcollected : α ∈ site.collected \ site.enclosing.tracked := by
        rw [heq]
        exact ⟨hmem, hout⟩
      exact hcollected.1
    · intro α hmem hbound
      by_contra hout
      have hoccurring : α ∈ site.occurring \ site.enclosing.bound := by
        rw [← heq]
        exact ⟨hmem, hout⟩
      exact hoccurring.2 hbound

theorem Site.scopedImplicitly_iff {site : Site}
    {scopedTvars : List (KindedTvar String)} (hscopes : site.Scopes scopedTvars
      (site.collected \ site.enclosing.tracked)) :
    site.ScopedImplicitly scopedTvars ↔ site.Plain := by
  rw [Site.plain_iff]
  constructor
  · rintro ⟨tvs, heq, -, hnames⟩
    obtain ⟨tvs', heq', -, hnames'⟩ := hscopes
    have hmap := List.append_cancel_left (heq.symm.trans heq')
    rw [← hnames, ← hnames', ← kindedNames_map tvs, hmap, kindedNames_map]
  · intro heq
    unfold Site.ScopedImplicitly
    rwa [← heq]

/-- Where each pair is related by `R` just when the first satisfies `P`. -/
theorem forall₂_iff_of_forall₂ {α β : Type} {Q R : α → β → Prop} {P : α → Prop}
    {items : List α} {others : List β} (h : List.Forall₂ Q items others)
    (hiff : ∀ item other, Q item other → (R item other ↔ P item)) :
    List.Forall₂ R items others ↔ ∀ item ∈ items, P item := by
  induction h with
  | nil => simp
  | cons hhead _ ih =>
    rw [List.forall₂_cons, ih, hiff _ _ hhead]
    exact List.forall_mem_cons.symm

theorem explicitPlain_iff (decl : Decl) : ExplicitPlain decl ↔
      ((∀ site ∈ sitesDecl .none decl, site.Fresh) →
        ∀ site ∈ sitesDecl .none decl,
          Disjoint (kindedNames site.explicit) site.enclosing.bound) := by
  constructor
  · rintro (⟨site, hsite, α, hmem, htracked⟩ | hplain) hfresh
    · exact absurd htracked (Set.disjoint_left.mp (hfresh site hsite) hmem)
    · intro site hsite
      refine Set.disjoint_left.mpr fun α hmem hbound => ?_
      exact Set.disjoint_left.mp (hfresh site hsite) hmem
        (hplain site hsite α hmem hbound)
  · intro h
    by_cases hfresh : ∀ site ∈ sitesDecl .none decl, site.Fresh
    · right
      intro site hsite α hmem hbound
      exact absurd hbound (Set.disjoint_left.mp (h hfresh site hsite) hmem)
    · left
      push Not at hfresh
      obtain ⟨site, hsite, hnot⟩ := hfresh
      obtain ⟨α, hmem, htracked⟩ := Set.not_disjoint_iff.mp hnot
      exact ⟨site, hsite, α, hmem, htracked⟩

theorem decide_implicit_iff (decl : Decl) :
    List.Forall₂ (fun site result => site.ScopedImplicitly result.explicit)
        (sitesDecl .none decl) (sitesDecl .none (decideCoreDec decl).result) ↔
      ∀ site ∈ sitesDecl .none decl, site.Plain :=
  forall₂_iff_of_forall₂
    ((decideDecl_decides decl .none emptyEnv emptyEnv_domain).1 .none)
    fun _ _ hscopes => Site.scopedImplicitly_iff hscopes

/-- `val f = fn x => _dynamiccase x of {'a} (y : 'a) =>
let val z = y : 'a in z end`. -/
def ruleVariableDecl : Decl :=
  .val []
    [(.id ["f"], .fnM [([.id ["x"]],
      .dynamicCase (.var ["x"])
        [([(⟨"a", false⟩, .univ [])], .typed (.id ["y"]) (.id ⟨"a", false⟩),
          .letIn
            [.val [] [(.id ["z"], .typed (.var ["y"]) (.id ⟨"a", false⟩))]]
            (.var ["z"]))])])]

end UserTvarScope

end SmlSharp
