/-
When the groups of recursive declarations are split as their functions refer to one
another.
-/
import SmlSharp.VALRECOptimizer.Keeps

namespace SmlSharp

namespace VALRECOptimizer

variable {τ δ : Type}

/-- A group of functions or of recursive values. -/
inductive Group (τ : Type) where
  | funs (funbinds : List (FunBind Empty τ))
  | recs (recbinds : List (RecBind Empty τ))

/-- A function of a group, with the variables that its body mentions and binds and those
that are found in it. -/
structure Member where
  id : Nat
  Mentions : Prop → Nat → Prop
  Binds : Nat → Prop
  freeIds : Finset Nat
  found : ∀ x, ¬ Binds x → (x ∈ freeIds ↔ Mentions False x)
  mono : ∀ x, Mentions False x → Mentions True x

def FunBind.member (funbind : FunBind Empty τ) : Member where
  id := funbind.id
  Mentions casts x := rulesMention casts x funbind.rules
  Binds x := rulesBind x funbind.rules
  freeIds := getFreeIdsInRule funbind.rules
  found _ h := mem_freeIds_rule funbind.rules h
  mono _ := rulesMention_mono funbind.rules

def RecBind.member (recbind : RecBind Empty τ) : Member where
  id := recbind.id
  Mentions casts x := recbind.body.Mentions casts x
  Binds x := recbind.body.Binds x
  freeIds := getFreeIdsInExp recbind.body
  found _ h := mem_freeIds_exp recbind.body h
  mono _ := recbind.body.mentions_mono

namespace Group

def decl : Group τ → Decl Empty τ
  | .funs funbinds => .decfun funbinds
  | .recs recbinds => .valrec recbinds

def members : Group τ → List Member
  | .funs funbinds => funbinds.map FunBind.member
  | .recs recbinds => recbinds.map RecBind.member

/-- The variables of the group are not bound again in its bodies. -/
def Apart (group : Group τ) : Prop :=
  ∀ f ∈ group.members, ∀ f' ∈ group.members, ¬ f.Binds f'.id

/-- The body of the one function mentions the other one. -/
def Refers (casts : Prop) (group : Group τ) (i j : Nat) : Prop :=
  ∃ f ∈ group.members[i]?, ∃ f' ∈ group.members[j]?, f.Mentions casts f'.id

end Group

structure SameFun (funbind : FunBind Empty τ) (optimized : FunBind Unit τ) : Prop where
  id : optimized.id = funbind.id
  mentions : ∀ x, rulesMention True x optimized.rules ↔ rulesMention True x funbind.rules

structure SameRec (recbind : RecBind Empty τ) (optimized : RecBind Unit τ) : Prop where
  id : optimized.id = recbind.id
  tyList : optimized.tyList = recbind.tyList
  mentions : ∀ x, optimized.body.Mentions True x ↔ recbind.body.Mentions True x

/-- The declaration declares the functions of the group at the positions, and is not
recursive only where the function does not refer to itself. -/
inductive Declares : Group τ → List Nat → Decl Unit τ → Prop
  | decfun {funbinds : List (FunBind Empty τ)} {c : List Nat} {optimized : List (FunBind Unit τ)} :
      List.Forall₂ (fun i f => ∃ funbind ∈ funbinds[i]?, SameFun funbind f) c optimized →
      Declares (.funs funbinds) c (.decfun optimized)
  | nonrecfun {funbinds : List (FunBind Empty τ)} {i : Nat} {funbind : FunBind Empty τ}
      {optimized : FunBind Unit τ} : funbinds[i]? = some funbind → SameFun funbind optimized →
      ¬ (Group.funs funbinds).Refers True i i →
      Declares (.funs funbinds) [i] (.nonrecfun () optimized)
  | valrec {recbinds : List (RecBind Empty τ)} {c : List Nat} {optimized : List (RecBind Unit τ)} :
      List.Forall₂ (fun i r => ∃ recbind ∈ recbinds[i]?, SameRec recbind r) c optimized →
      Declares (.recs recbinds) c (.valrec optimized)
  | val {recbinds : List (RecBind Empty τ)} {i : Nat} {recbind : RecBind Empty τ}
      {optimized : RecBind Unit τ} : recbinds[i]? = some recbind → SameRec recbind optimized →
      ¬ (Group.recs recbinds).Refers True i i →
      Declares (.recs recbinds) [i]
        (.val [.valbind (typedPat recbind.tyList (.varTrans recbind.id)) optimized.body])

/-- Every function is declared once, together with those that it reaches and is reached
from, behind the functions to which it refers; and all references are seen. -/
structure Group.Splits (group : Group τ) (outs : List (Decl Unit τ)) : Prop where
  declared : ∃ components,
    IsComponents (Function.swap (group.Refers True)) (List.range group.members.length)
      components ∧ List.Forall₂ (Declares group) components outs
  seen : ∀ f ∈ group.members, ∀ f' ∈ group.members, f.Mentions True f'.id → f'.id ∈ f.freeIds

/-! ### The functions and their nodes -/

section Nodes

variable {group : Group τ} {infos : List (NodeInfo δ)}

theorem forall₂_getElem? {α β : Type} {R : α → β → Prop} {xs : List α} {ys : List β}
    (h : List.Forall₂ R xs ys) {i : Nat} {y : β} (hy : ys[i]? = some y) :
    ∃ x ∈ xs[i]?, R x y := by
  induction h generalizing i with
  | nil => simp at hy
  | cons hR _ ih =>
    cases i with
    | zero =>
      cases hy
      exact ⟨_, rfl, hR⟩
    | succ i => exact ih hy

/-- The nodes stand for the functions of the group. -/
def Nodes (members : List Member) (infos : List (NodeInfo δ)) : Prop :=
  List.Forall₂ (fun f info => info.functionId = f.id ∧ info.dependentIds = f.freeIds) members
    infos

theorem Nodes.depends_iff {members : List Member} (h : Nodes members infos) {i j : Nat} :
    Depends infos i j ↔ ∃ f ∈ members[i]?, ∃ f' ∈ members[j]?, f'.id ∈ f.freeIds := by
  constructor
  · rintro ⟨info, hi, info', hj, hid⟩
    obtain ⟨f, hf, -, hfree⟩ := forall₂_getElem? h hi
    obtain ⟨f', hf', hid', -⟩ := forall₂_getElem? h hj
    rw [hfree, hid'] at hid
    exact ⟨f, hf, f', hf', hid⟩
  · rintro ⟨f, hf, f', hf', hid⟩
    obtain ⟨info, hi, -, hfree⟩ := forall₂_getElem? h.flip hf
    obtain ⟨info', hj, hid', -⟩ := forall₂_getElem? h.flip hf'
    rw [← hfree, ← hid'] at hid
    exact ⟨info, hi, info', hj, hid⟩

/-- Outside of local declarations with type casts the references are seen. -/
theorem Nodes.depends_iff_refers (h : Nodes group.members infos) (hapart : group.Apart)
    {i j : Nat} : Depends infos i j ↔ group.Refers False i j := by
  rw [h.depends_iff]
  constructor
  · rintro ⟨f, hf, f', hf', hid⟩
    have hbinds := hapart f (List.mem_of_getElem? hf) f' (List.mem_of_getElem? hf')
    exact ⟨f, hf, f', hf', (f.found f'.id hbinds).mp hid⟩
  · rintro ⟨f, hf, f', hf', hmentions⟩
    have hbinds := hapart f (List.mem_of_getElem? hf) f' (List.mem_of_getElem? hf')
    exact ⟨f, hf, f', hf', (f.found f'.id hbinds).mpr hmentions⟩

theorem Group.refers_mono {i j : Nat} (h : group.Refers False i j) : group.Refers True i j := by
  obtain ⟨f, hf, f', hf', hmentions⟩ := h
  exact ⟨f, hf, f', hf', f.mono f'.id hmentions⟩

theorem nodes_of_funNodes {funbinds : List (FunBind Empty τ)}
    {infos : List (NodeInfo (FunBind Unit τ))} (h : List.Forall₂ FunNode funbinds infos) :
    Nodes (Group.funs funbinds).members infos :=
  List.forall₂_map_left_iff.mpr (h.imp fun _ _ hnode => ⟨hnode.functionId, hnode.dependentIds⟩)

theorem nodes_of_recNodes {recbinds : List (RecBind Empty τ)}
    {infos : List (NodeInfo (RecBind Unit τ))} (h : List.Forall₂ RecNode recbinds infos) :
    Nodes (Group.recs recbinds).members infos :=
  List.forall₂_map_left_iff.mpr (h.imp fun _ _ hnode => ⟨hnode.functionId, hnode.dependentIds⟩)

end Nodes

/-! ### Splitting -/

theorem emits_self {infos : List (NodeInfo δ)} {i : Nat} {info : NodeInfo δ}
    (hinfo : infos[i]? = some info) (hself : info.functionId ∉ info.dependentIds) :
    ¬ Depends infos i i := by
  rintro ⟨info₁, h₁, info₂, h₂, hid⟩
  cases Option.some.inj (hinfo.symm.trans h₁)
  cases Option.some.inj (hinfo.symm.trans h₂)
  exact hself hid

section Declares

variable {c : List Nat} {out : Decl Unit τ}

theorem Emits.declares_funs {funbinds : List (FunBind Empty τ)}
    {infos : List (NodeInfo (FunBind Unit τ))} (hnodes : List.Forall₂ FunNode funbinds infos)
    (hdepends : ∀ i j, Depends infos i j ↔ (Group.funs funbinds).Refers True i j)
    (h : Emits .decfun (.nonrecfun ()) infos c out) : Declares (.funs funbinds) c out := by
  have hsame : ∀ {i : Nat} {info : NodeInfo (FunBind Unit τ)}, infos[i]? = some info →
      ∃ funbind ∈ funbinds[i]?, SameFun funbind info.functionDecl := by
    intro i info hinfo
    obtain ⟨funbind, hfunbind, hnode⟩ := forall₂_getElem? hnodes hinfo
    exact ⟨funbind, hfunbind, hnode.id, hnode.mentions⟩
  cases h with
  | recursive hmembers =>
    exact .decfun (List.forall₂_map_right_iff.mpr (hmembers.imp fun _ _ => hsame))
  | single hinfo hself =>
    obtain ⟨funbind, hfunbind, hfun⟩ := hsame hinfo
    exact .nonrecfun hfunbind hfun fun hrefers =>
      emits_self hinfo hself ((hdepends _ _).mpr hrefers)

theorem Emits.declares_recs {recbinds : List (RecBind Empty τ)}
    {infos : List (NodeInfo (RecBind Unit τ))} (hnodes : List.Forall₂ RecNode recbinds infos)
    (hdepends : ∀ i j, Depends infos i j ↔ (Group.recs recbinds).Refers True i j)
    (h : Emits .valrec nonrecVal infos c out) : Declares (.recs recbinds) c out := by
  have hsame : ∀ {i : Nat} {info : NodeInfo (RecBind Unit τ)}, infos[i]? = some info →
      ∃ recbind ∈ recbinds[i]?, SameRec recbind info.functionDecl := by
    intro i info hinfo
    obtain ⟨recbind, hrecbind, hnode⟩ := forall₂_getElem? hnodes hinfo
    exact ⟨recbind, hrecbind, hnode.id, hnode.tyList, hnode.mentions⟩
  cases h with
  | recursive hmembers =>
    exact .valrec (List.forall₂_map_right_iff.mpr (hmembers.imp fun _ _ => hsame))
  | single hinfo hself =>
    obtain ⟨recbind, hrecbind, hrec⟩ := hsame hinfo
    rw [nonrecVal, hrec.id, hrec.tyList]
    exact .val hrecbind hrec fun hrefers =>
      emits_self hinfo hself ((hdepends _ _).mpr hrefers)

end Declares

/-- The nodes of a group, and what is declared when the references are seen. -/
theorem optimizeDecl_group (group : Group τ) (hapart : group.Apart)
    (hseen : ∀ i j, group.Refers True i j → group.Refers False i j) :
    ∃ outs, optimizeDecl group.decl = .ok outs ∧ ∃ components,
      IsComponents (Function.swap (group.Refers True)) (List.range group.members.length)
        components ∧ List.Forall₂ (Declares group) components outs := by
  have hiff : ∀ i j, group.Refers False i j ↔ group.Refers True i j := fun i j =>
    ⟨Group.refers_mono, hseen i j⟩
  have hswap : ∀ {δ : Type} {infos : List (NodeInfo δ)}, Nodes group.members infos →
      Function.swap (Depends infos) = Function.swap (group.Refers True) := by
    intro δ infos hnodes
    funext i j
    exact propext ((hnodes.depends_iff_refers hapart).trans (hiff j i))
  cases group with
  | funs funbinds =>
    obtain ⟨infos, hinfos, hnodes⟩ := funNodes_ok funbinds
    have hall := nodes_of_funNodes hnodes
    obtain ⟨outs, components, houts, hcomponents, hemits⟩ :=
      @splitGroup_emits _ _ Decl.decfun (Decl.nonrecfun ()) infos
    rw [hswap hall, ← hall.length_eq] at hcomponents
    refine ⟨outs, ?_, components, hcomponents, hemits.imp fun c out => ?_⟩
    · rw [Group.decl, optimizeDecl, hinfos]
      exact houts
    · exact Emits.declares_funs hnodes fun i j =>
        (hall.depends_iff_refers hapart).trans (hiff i j)
  | recs recbinds =>
    obtain ⟨infos, hinfos, hnodes⟩ := recNodes_ok recbinds
    have hall := nodes_of_recNodes hnodes
    obtain ⟨outs, components, houts, hcomponents, hemits⟩ :=
      @splitGroup_emits _ _ Decl.valrec nonrecVal infos
    rw [hswap hall, ← hall.length_eq] at hcomponents
    refine ⟨outs, ?_, components, hcomponents, hemits.imp fun c out => ?_⟩
    · rw [Group.decl, optimizeDecl, hinfos]
      exact houts
    · exact Emits.declares_recs hnodes fun i j =>
        (hall.depends_iff_refers hapart).trans (hiff i j)

/-- A group is split as its functions refer to one another if and only if they do so
outside of local declarations with type casts, too. -/
theorem optimizeDecl_splits_iff (group : Group τ) (hapart : group.Apart) :
    (∃ outs, optimizeDecl group.decl = .ok outs ∧ group.Splits outs) ↔
      ∀ i j, group.Refers True i j → group.Refers False i j := by
  constructor
  · rintro ⟨outs, -, hsplits⟩ i j ⟨f, hf, f', hf', hmentions⟩
    have hmem := List.mem_of_getElem? hf
    have hmem' := List.mem_of_getElem? hf'
    have hid := hsplits.seen f hmem f' hmem' hmentions
    exact ⟨f, hf, f', hf', (f.found f'.id (hapart f hmem f' hmem')).mp hid⟩
  · intro hseen
    obtain ⟨outs, houts, hdeclared⟩ := optimizeDecl_group group hapart hseen
    refine ⟨outs, houts, hdeclared, ?_⟩
    intro f hmem f' hmem' hmentions
    obtain ⟨i, hf⟩ := List.getElem?_of_mem hmem
    obtain ⟨j, hf'⟩ := List.getElem?_of_mem hmem'
    obtain ⟨g, hg, g', hg', hfound⟩ := hseen i j ⟨f, hf, f', hf', hmentions⟩
    cases Option.some.inj (hf.symm.trans hg)
    cases Option.some.inj (hf'.symm.trans hg')
    exact (f.found f'.id (hapart f hmem f' hmem')).mpr hfound

/-- `fun f x = g x and g y = y`. -/
def callGroup : Group Unit :=
  .funs [.funbind 0 [.rule [.varTrans 2] (.appm (.var 1) [.var 2])],
    .funbind 1 [.rule [.varTrans 3] (.var 3)]]

/-- `f` calls `g` and `g` does not call `f`, so the group is split into two. -/
theorem optimizeDecl_splits_iff_call :
    (∃ outs, optimizeDecl callGroup.decl = .ok outs ∧ callGroup.Splits outs) ↔
      ∀ i j, callGroup.Refers True i j → callGroup.Refers False i j :=
  optimizeDecl_splits_iff callGroup (by
    simp [Group.Apart, Group.members, callGroup, FunBind.member, FunBind.id, FunBind.rules,
      rulesBind, Exp.Binds, expsBind, getFreeIdsInPatList, getFreeIdsInPat])

/-- The rules of `fun f x = let abstype t = A with val y = f x end in () end`. -/
def abstypeRules : List (Rule Empty Unit) :=
  [.rule [.varTrans 1]
    (.letExp [.tycastDecl [.val [.valbind (.varTrans 2) (.appm (.var 0) [.var 1])]]]
      (.atom .constant))]

def abstypeGroup : Group Unit := .funs [.funbind 0 abstypeRules]

/-- The function is not found in its own body. -/
theorem abstype_not_split : ¬ ∀ group : Group Unit, group.Apart →
    ∃ outs, optimizeDecl group.decl = .ok outs ∧ group.Splits outs := by
  intro h
  have hapart : abstypeGroup.Apart := by
    simp [Group.Apart, Group.members, abstypeGroup, abstypeRules, FunBind.member, FunBind.id,
      FunBind.rules, rulesBind, Exp.Binds, declsBind, Decl.Binds, valbindsBind, expsBind,
      getFreeIdsInPatList, getFreeIdsInPat]
  obtain ⟨outs, -, hsplits⟩ := h abstypeGroup hapart
  have hmem : FunBind.member (.funbind 0 abstypeRules) ∈ abstypeGroup.members :=
    List.mem_cons_self
  have hmentions : rulesMention True 0 abstypeRules :=
    Or.inl (Or.inl (Or.inl ⟨trivial, Or.inl (Or.inl (Or.inl rfl))⟩))
  exact absurd (hsplits.seen _ hmem _ hmem hmentions) (by decide)

end VALRECOptimizer

end SmlSharp
