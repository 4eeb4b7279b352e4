/-
The optimizer keeps what expressions and declarations mention.
-/
import SmlSharp.VALRECOptimizer.Groups

namespace SmlSharp

namespace VALRECOptimizer

variable {τ : Type}

/-! ### Unchanged declarations -/

section Copy

variable {x : Nat}

mutual

/-- A copy mentions the same variables. -/
theorem copyExp_mentions (e : Exp Empty τ) :
    (copyExp e).Mentions True x ↔ e.Mentions True x :=
  match e with
  | .atom _ => Iff.rfl
  | .var _ => Iff.rfl
  | .typed exp => copyExp_mentions exp
  | .interfaceTyped exp => copyExp_mentions exp
  | .appm funExp argExpList => or_congr (copyExp_mentions funExp) (copyExps_mention argExpList)
  | .appmNounify funExp argExpList =>
    or_congr (copyExp_mentions funExp) (copyExps_mention argExpList)
  | .letExp localDeclList mainExp =>
    or_congr (copyDecls_mention localDeclList) (copyExp_mentions mainExp)
  | .tycast exp => copyExp_mentions exp
  | .record elementList => copyExps_mention elementList
  | .raiseExp exp => copyExp_mentions exp
  | .handle handler matchList =>
    or_congr (copyExp_mentions handler) (copyRules_mention matchList)
  | .fnm matchList => copyRules_mention matchList
  | .fnm1 _ exp => copyExp_mentions exp
  | .fnm1Poly _ exp => copyExp_mentions exp
  | .casem selectorList matchList =>
    or_congr (copyExps_mention selectorList) (copyRules_mention matchList)
  | .dynamicCase selector matchList =>
    or_congr (copyExp_mentions selector) (copyRules_mention matchList)
  | .recordUpdate exp elementList =>
    or_congr (copyExp_mentions exp) (copyExps_mention elementList)
  | .recordUpdate2 exp1 exp2 => or_congr (copyExp_mentions exp1) (copyExp_mentions exp2)
  | .select exp => copyExp_mentions exp
  | .seq expList => copyExps_mention expList
  | .ffiImport ffiFun => copyExp_mentions ffiFun
  | .sqlSchema tyFnExp => copyExp_mentions tyFnExp
  | .join exp1 exp2 => or_congr (copyExp_mentions exp1) (copyExp_mentions exp2)
  | .dynamic exp => copyExp_mentions exp
  | .dynamicIs exp => copyExp_mentions exp
  | .dynamicView exp => copyExp_mentions exp

theorem copyExps_mention (expList : List (Exp Empty τ)) :
    expsMention True x (copyExps expList) ↔ expsMention True x expList :=
  match expList with
  | [] => Iff.rfl
  | exp :: expList => or_congr (copyExp_mentions exp) (copyExps_mention expList)

theorem copyRules_mention (rules : List (Rule Empty τ)) :
    rulesMention True x (copyRules rules) ↔ rulesMention True x rules :=
  match rules with
  | [] => Iff.rfl
  | .rule _ body :: rules => or_congr (copyExp_mentions body) (copyRules_mention rules)

theorem copyFunbinds_mention (funbinds : List (FunBind Empty τ)) :
    funbindsMention True x (copyFunbinds funbinds) ↔ funbindsMention True x funbinds :=
  match funbinds with
  | [] => Iff.rfl
  | .funbind _ rules :: funbinds =>
    or_congr (copyRules_mention rules) (copyFunbinds_mention funbinds)

theorem copyRecbinds_mention (recbinds : List (RecBind Empty τ)) :
    recbindsMention True x (copyRecbinds recbinds) ↔ recbindsMention True x recbinds :=
  match recbinds with
  | [] => Iff.rfl
  | .recbind _ _ body :: recbinds =>
    or_congr (copyExp_mentions body) (copyRecbinds_mention recbinds)

theorem copyValbinds_mention (valbinds : List (ValBind Empty τ)) :
    valbindsMention True x (copyValbinds valbinds) ↔ valbindsMention True x valbinds :=
  match valbinds with
  | [] => Iff.rfl
  | .valbind _ exp :: valbinds => or_congr (copyExp_mentions exp) (copyValbinds_mention valbinds)

theorem copyDecl_mentions (decl : Decl Empty τ) :
    (copyDecl decl).Mentions True x ↔ decl.Mentions True x :=
  match decl with
  | .val declList => copyValbinds_mention declList
  | .valOpaqueSig _ exp => copyExp_mentions exp
  | .valTransSig _ exp => copyExp_mentions exp
  | .decfun funbinds => copyFunbinds_mention funbinds
  | .valrec recbinds => copyRecbinds_mention recbinds
  | .valpolyrec polyrecbinds => copyRecbinds_mention polyrecbinds
  | .exntagD _ => Iff.rfl
  | .tycastDecl declList => and_congr_right fun _ => copyDecls_mention declList
  | .atom _ => Iff.rfl

theorem copyDecls_mention (declList : List (Decl Empty τ)) :
    declsMention True x (copyDecls declList) ↔ declsMention True x declList :=
  match declList with
  | [] => Iff.rfl
  | decl :: declList => or_congr (copyDecl_mentions decl) (copyDecls_mention declList)

end

end Copy

/-! ### Kept mentions -/

/-- There is a result, which mentions what the source does. -/
def Keeps {α : Type} (result : Except GraphExn α) (mentions' : α → Nat → Prop)
    (mentions : Nat → Prop) : Prop :=
  ∃ a, result = .ok a ∧ ∀ x, mentions' a x ↔ mentions x

section Keeps

variable {α β γ : Type} {r : Except GraphExn α} {s : Except GraphExn β}
  {mentions₁' : α → Nat → Prop} {mentions₂' : β → Nat → Prop} {mentions' : γ → Nat → Prop}
  {mentions₁ mentions₂ : Nat → Prop}

theorem Keeps.pure {mentions : Nat → Prop} {a : α} (h : ∀ x, mentions₁' a x ↔ mentions x) :
    Keeps (Pure.pure a) mentions₁' mentions := ⟨a, rfl, h⟩

/-- A constructor with one optimized part. -/
theorem Keeps.map (h : Keeps r mentions₁' mentions₁) (f : α → γ)
    (hf : ∀ a x, mentions' (f a) x ↔ mentions₁' a x) :
    Keeps (r >>= fun a => Pure.pure (f a)) mentions' mentions₁ := by
  obtain ⟨a, rfl, ha⟩ := h
  exact ⟨f a, rfl, fun x => (hf a x).trans (ha x)⟩

/-- A constructor with two. -/
theorem Keeps.map₂ (h₁ : Keeps r mentions₁' mentions₁) (h₂ : Keeps s mentions₂' mentions₂)
    (f : α → β → γ) (hf : ∀ a b x, mentions' (f a b) x ↔ mentions₁' a x ∨ mentions₂' b x) :
    Keeps (r >>= fun a => s >>= fun b => Pure.pure (f a b)) mentions'
      fun x => mentions₁ x ∨ mentions₂ x := by
  obtain ⟨a, rfl, ha⟩ := h₁
  obtain ⟨b, rfl, hb⟩ := h₂
  exact ⟨f a b, rfl, fun x => (hf a b x).trans (or_congr (ha x) (hb x))⟩

end Keeps

abbrev KeepsExp (result : Except GraphExn (Exp Unit τ)) : (Nat → Prop) → Prop :=
  Keeps result fun e x => e.Mentions True x

abbrev KeepsExps (result : Except GraphExn (List (Exp Unit τ))) : (Nat → Prop) → Prop :=
  Keeps result fun expList x => expsMention True x expList

abbrev KeepsRules (result : Except GraphExn (List (Rule Unit τ))) : (Nat → Prop) → Prop :=
  Keeps result fun rules x => rulesMention True x rules

abbrev KeepsDecls (result : Except GraphExn (List (Decl Unit τ))) : (Nat → Prop) → Prop :=
  Keeps result fun declList x => declsMention True x declList

theorem declsMention_singleton {decl : Decl Unit τ} {x : Nat} :
    declsMention True x [decl] ↔ decl.Mentions True x := or_iff_left id

theorem declsMention_append {outs outs' : List (Decl Unit τ)} {x : Nat} :
    declsMention True x (outs ++ outs') ↔ declsMention True x outs ∨ declsMention True x outs' := by
  induction outs with
  | nil => exact (or_iff_right id).symm
  | cons out outs ih =>
    rw [List.cons_append, declsMention, declsMention, ih, or_assoc]

/-! ### Groups -/

section Groups

variable {δ : Type} {recursive : List δ → Decl Unit τ} {single : δ → Decl Unit τ}
  {mention : δ → Nat → Prop} {infos : List (NodeInfo δ)} {x : Nat}

/-- The members of a component are the nodes at its positions. -/
theorem exists_mem_of_positions {c : List Nat} {members : List (NodeInfo δ)}
    (h : List.Forall₂ (fun i info => infos[i]? = some info) c members) (P : NodeInfo δ → Prop) :
    (∃ info ∈ members, P info) ↔ ∃ i ∈ c, ∃ info ∈ infos[i]?, P info := by
  induction h with
  | nil => simp
  | cons hinfo _ ih => simp [hinfo, ih]

/-- A declaration that is emitted mentions what the nodes of its component do.
-/
theorem Emits.mentions_iff (hrec : ∀ decls x,
      (recursive decls).Mentions True x ↔ ∃ decl ∈ decls, mention decl x)
    (hsingle : ∀ decl x, (single decl).Mentions True x ↔ mention decl x) {c : List Nat}
    {out : Decl Unit τ} (h : Emits recursive single infos c out) :
    out.Mentions True x ↔ ∃ i ∈ c, ∃ info ∈ infos[i]?, mention info.functionDecl x := by
  cases h with
  | recursive hmembers =>
    rw [hrec, ← exists_mem_of_positions hmembers fun info => mention info.functionDecl x]
    simp
  | single hinfo _ =>
    rw [hsingle]
    simp [hinfo]

/-- The declarations together mention what the nodes of all components do. -/
theorem declsMention_iff (hrec : ∀ decls x,
      (recursive decls).Mentions True x ↔ ∃ decl ∈ decls, mention decl x)
    (hsingle : ∀ decl x, (single decl).Mentions True x ↔ mention decl x)
    {components : List (List Nat)} {outs : List (Decl Unit τ)}
    (h : List.Forall₂ (Emits recursive single infos) components outs) :
    declsMention True x outs ↔
      ∃ i ∈ components.flatten, ∃ info ∈ infos[i]?, mention info.functionDecl x := by
  induction h with
  | nil => exact iff_of_false id (by simp)
  | cons hout _ ih =>
    rw [declsMention, hout.mentions_iff hrec hsingle, ih, List.flatten_cons]
    simp only [List.mem_append, or_and_right, exists_or]

/-- Every node is in some component, so that the split loses no mention. -/
theorem splitGroup_keeps (hrec : ∀ decls x,
      (recursive decls).Mentions True x ↔ ∃ decl ∈ decls, mention decl x)
    (hsingle : ∀ decl x, (single decl).Mentions True x ↔ mention decl x)
    (infos : List (NodeInfo δ)) : KeepsDecls (splitGroup recursive single infos)
      fun x => ∃ info ∈ infos, mention info.functionDecl x := by
  obtain ⟨outs, components, houts, hcomponents, hemits⟩ :=
    @splitGroup_emits _ _ recursive single infos
  refine ⟨outs, houts, fun x => ?_⟩
  dsimp only
  rw [declsMention_iff hrec hsingle hemits]
  constructor
  · rintro ⟨i, -, info, hinfo, hmention⟩
    exact ⟨info, List.mem_of_getElem? hinfo, hmention⟩
  · rintro ⟨info, hinfo, hmention⟩
    obtain ⟨i, hi, rfl⟩ := List.mem_iff_getElem.mp hinfo
    exact ⟨i, (hcomponents.mem_flatten i).mpr (List.mem_range.mpr hi), infos[i],
      List.getElem?_eq_getElem hi, hmention⟩

end Groups

/-- The node of a function, whose rules are optimized. -/
structure FunNode (funbind : FunBind Empty τ) (info : NodeInfo (FunBind Unit τ)) : Prop where
  functionId : info.functionId = funbind.id
  dependentIds : info.dependentIds = getFreeIdsInRule funbind.rules
  id : info.functionDecl.id = funbind.id
  mentions : ∀ x,
    rulesMention True x info.functionDecl.rules ↔ rulesMention True x funbind.rules

structure RecNode (recbind : RecBind Empty τ) (info : NodeInfo (RecBind Unit τ)) : Prop where
  functionId : info.functionId = recbind.id
  dependentIds : info.dependentIds = getFreeIdsInExp recbind.body
  id : info.functionDecl.id = recbind.id
  tyList : info.functionDecl.tyList = recbind.tyList
  mentions : ∀ x,
    info.functionDecl.body.Mentions True x ↔ recbind.body.Mentions True x

theorem decfun_mentions (funbinds : List (FunBind Unit τ)) (x : Nat) :
    (Decl.decfun funbinds).Mentions True x ↔
      ∃ funbind ∈ funbinds, rulesMention True x funbind.rules := by
  induction funbinds with
  | nil => exact iff_of_false id (by simp)
  | cons funbind funbinds ih =>
    cases funbind with
    | funbind funVarInfo rules =>
      simp only [List.mem_cons, exists_eq_or_imp]
      exact or_congr Iff.rfl ih

theorem valrec_mentions (recbinds : List (RecBind Unit τ)) (x : Nat) :
    (Decl.valrec recbinds).Mentions True x ↔
      ∃ recbind ∈ recbinds, recbind.body.Mentions True x := by
  induction recbinds with
  | nil => exact iff_of_false id (by simp)
  | cons recbind recbinds ih =>
    cases recbind with
    | recbind varInfo tyList body =>
      simp only [List.mem_cons, exists_eq_or_imp]
      exact or_congr Iff.rfl ih

theorem nonrecfun_mentions (funbind : FunBind Unit τ) (x : Nat) :
    (Decl.nonrecfun () funbind).Mentions True x ↔ rulesMention True x funbind.rules := by
  cases funbind with
  | funbind funVarInfo rules => exact Iff.rfl

theorem nonrecVal_mentions (recbind : RecBind Unit τ) (x : Nat) :
    (nonrecVal recbind).Mentions True x ↔ recbind.body.Mentions True x := or_iff_left id

theorem exists_funNode {funbinds : List (FunBind Empty τ)}
    {infos : List (NodeInfo (FunBind Unit τ))} (h : List.Forall₂ FunNode funbinds infos) (x : Nat) :
    (∃ info ∈ infos, rulesMention True x info.functionDecl.rules) ↔
      funbindsMention True x funbinds := by
  induction h with
  | nil => exact iff_of_false (by simp) id
  | @cons funbind info funbinds infos hnode _ ih =>
    cases funbind with
    | funbind funVarInfo rules =>
      simp only [List.mem_cons, exists_eq_or_imp]
      exact or_congr (hnode.mentions x) ih

theorem exists_recNode {recbinds : List (RecBind Empty τ)}
    {infos : List (NodeInfo (RecBind Unit τ))} (h : List.Forall₂ RecNode recbinds infos) (x : Nat) :
    (∃ info ∈ infos, info.functionDecl.body.Mentions True x) ↔
      recbindsMention True x recbinds := by
  induction h with
  | nil => exact iff_of_false (by simp) id
  | @cons recbind info recbinds infos hnode _ ih =>
    cases recbind with
    | recbind varInfo tyList body =>
      simp only [List.mem_cons, exists_eq_or_imp]
      exact or_congr (hnode.mentions x) ih

/-! ### The optimizer -/

mutual

/-- The optimizer keeps the mentions of an expression. The induction goes over
all syntactic classes at once. -/
theorem optimizeExp_keeps (e : Exp Empty τ) :
    KeepsExp (optimizeExp e) fun x => e.Mentions True x := by
  match e with
  | .atom _ => exact Keeps.pure fun _ => Iff.rfl
  | .var _ => exact Keeps.pure fun _ => Iff.rfl
  | .typed exp => exact (optimizeExp_keeps exp).map Exp.typed fun _ _ => Iff.rfl
  | .interfaceTyped exp => exact (optimizeExp_keeps exp).map Exp.interfaceTyped fun _ _ => Iff.rfl
  | .appm funExp argExpList =>
    exact (optimizeExp_keeps funExp).map₂ (optimizeExps_keeps argExpList) Exp.appm
      fun _ _ _ => Iff.rfl
  | .appmNounify funExp argExpList =>
    exact (optimizeExp_keeps funExp).map₂ (optimizeExps_keeps argExpList) Exp.appmNounify
      fun _ _ _ => Iff.rfl
  | .letExp localDeclList mainExp =>
    exact (optimizeDeclList_keeps localDeclList).map₂ (optimizeExp_keeps mainExp) Exp.letExp
      fun _ _ _ => Iff.rfl
  | .tycast exp => exact (optimizeExp_keeps exp).map Exp.tycast fun _ _ => Iff.rfl
  | .record elementList => exact (optimizeExps_keeps elementList).map Exp.record fun _ _ => Iff.rfl
  | .raiseExp exp => exact (optimizeExp_keeps exp).map Exp.raiseExp fun _ _ => Iff.rfl
  | .handle handler matchList =>
    exact (optimizeExp_keeps handler).map₂ (optimizeRule_keeps matchList) Exp.handle
      fun _ _ _ => Iff.rfl
  | .fnm matchList => exact (optimizeRule_keeps matchList).map Exp.fnm fun _ _ => Iff.rfl
  | .fnm1 vars exp => exact (optimizeExp_keeps exp).map (Exp.fnm1 vars) fun _ _ => Iff.rfl
  | .fnm1Poly vars exp => exact (optimizeExp_keeps exp).map (Exp.fnm1Poly vars) fun _ _ => Iff.rfl
  | .casem selectorList matchList =>
    exact (optimizeExps_keeps selectorList).map₂ (optimizeRule_keeps matchList) Exp.casem
      fun _ _ _ => Iff.rfl
  | .dynamicCase selector matchList =>
    exact (optimizeExp_keeps selector).map₂ (optimizeRule_keeps matchList) Exp.dynamicCase
      fun _ _ _ => Iff.rfl
  | .recordUpdate exp elementList =>
    exact (optimizeExp_keeps exp).map₂ (optimizeExps_keeps elementList) Exp.recordUpdate
      fun _ _ _ => Iff.rfl
  | .recordUpdate2 exp1 exp2 =>
    exact (optimizeExp_keeps exp1).map₂ (optimizeExp_keeps exp2) Exp.recordUpdate2
      fun _ _ _ => Iff.rfl
  | .select exp => exact (optimizeExp_keeps exp).map Exp.select fun _ _ => Iff.rfl
  | .seq expList => exact (optimizeExps_keeps expList).map Exp.seq fun _ _ => Iff.rfl
  | .ffiImport ffiFun => exact (optimizeExp_keeps ffiFun).map Exp.ffiImport fun _ _ => Iff.rfl
  | .sqlSchema tyFnExp => exact (optimizeExp_keeps tyFnExp).map Exp.sqlSchema fun _ _ => Iff.rfl
  | .join exp1 exp2 =>
    exact (optimizeExp_keeps exp1).map₂ (optimizeExp_keeps exp2) Exp.join fun _ _ _ => Iff.rfl
  | .dynamic exp => exact (optimizeExp_keeps exp).map Exp.dynamic fun _ _ => Iff.rfl
  | .dynamicIs exp => exact (optimizeExp_keeps exp).map Exp.dynamicIs fun _ _ => Iff.rfl
  | .dynamicView exp => exact (optimizeExp_keeps exp).map Exp.dynamicView fun _ _ => Iff.rfl

theorem optimizeExps_keeps (expList : List (Exp Empty τ)) :
    KeepsExps (optimizeExps expList) fun x => expsMention True x expList := by
  match expList with
  | [] => exact Keeps.pure fun _ => Iff.rfl
  | exp :: expList =>
    exact (optimizeExp_keeps exp).map₂ (optimizeExps_keeps expList) List.cons
      fun _ _ _ => Iff.rfl

theorem optimizeRule_keeps (rules : List (Rule Empty τ)) :
    KeepsRules (optimizeRule rules) fun x => rulesMention True x rules := by
  match rules with
  | [] => exact Keeps.pure fun _ => Iff.rfl
  | .rule args body :: rules =>
    exact (optimizeExp_keeps body).map₂ (optimizeRule_keeps rules)
      (fun body rules => Rule.rule args body :: rules) fun _ _ _ => Iff.rfl

/-- The bodies of a group are optimized into one node each. -/
theorem funNodes_ok (funbinds : List (FunBind Empty τ)) :
    ∃ infos, funNodes funbinds = .ok infos ∧ List.Forall₂ FunNode funbinds infos := by
  match funbinds with
  | [] => exact ⟨[], rfl, .nil⟩
  | .funbind funVarInfo rules :: funbinds =>
    obtain ⟨optimized, hrules, hmentions⟩ := optimizeRule_keeps rules
    obtain ⟨infos, hinfos, hnodes⟩ := funNodes_ok funbinds
    refine ⟨⟨funVarInfo, getFreeIdsInRule rules, .funbind funVarInfo optimized⟩ :: infos, ?_,
      .cons ⟨rfl, rfl, rfl, hmentions⟩ hnodes⟩
    rw [funNodes, hrules, hinfos]
    rfl

theorem recNodes_ok (recbinds : List (RecBind Empty τ)) :
    ∃ infos, recNodes recbinds = .ok infos ∧ List.Forall₂ RecNode recbinds infos := by
  match recbinds with
  | [] => exact ⟨[], rfl, .nil⟩
  | .recbind varInfo tyList body :: recbinds =>
    obtain ⟨optimized, hbody, hmentions⟩ := optimizeExp_keeps body
    obtain ⟨infos, hinfos, hnodes⟩ := recNodes_ok recbinds
    refine ⟨⟨varInfo, getFreeIdsInExp body, .recbind varInfo tyList optimized⟩ :: infos, ?_,
      .cons ⟨rfl, rfl, rfl, rfl, hmentions⟩ hnodes⟩
    rw [recNodes, hbody, hinfos]
    rfl

theorem optimizePolyrecbinds_keeps (recbinds : List (RecBind Empty τ)) :
    Keeps (optimizePolyrecbinds recbinds) (fun recbinds x => recbindsMention True x recbinds)
      fun x => recbindsMention True x recbinds := by
  match recbinds with
  | [] => exact Keeps.pure fun _ => Iff.rfl
  | .recbind varInfo tyList body :: recbinds =>
    exact (optimizeExp_keeps body).map₂ (optimizePolyrecbinds_keeps recbinds)
      (fun body recbinds => RecBind.recbind varInfo tyList body :: recbinds) fun _ _ _ => Iff.rfl

theorem optimizeValbinds_keeps (valbinds : List (ValBind Empty τ)) :
    Keeps (optimizeValbinds valbinds) (fun valbinds x => valbindsMention True x valbinds)
      fun x => valbindsMention True x valbinds := by
  match valbinds with
  | [] => exact Keeps.pure fun _ => Iff.rfl
  | .valbind pat exp :: valbinds =>
    exact (optimizeExp_keeps exp).map₂ (optimizeValbinds_keeps valbinds)
      (fun exp valbinds => ValBind.valbind pat exp :: valbinds) fun _ _ _ => Iff.rfl

/-- Splitting the groups keeps the mentions of a declaration. -/
theorem optimizeDecl_keeps (decl : Decl Empty τ) :
    KeepsDecls (optimizeDecl decl) fun x => decl.Mentions True x := by
  match decl with
  | .val declList =>
    exact (optimizeValbinds_keeps declList).map (fun declList => [Decl.val declList])
      fun _ _ => declsMention_singleton
  | .valOpaqueSig var exp =>
    exact (optimizeExp_keeps exp).map (fun exp => [Decl.valOpaqueSig var exp])
      fun _ _ => declsMention_singleton
  | .valTransSig var exp =>
    exact (optimizeExp_keeps exp).map (fun exp => [Decl.valTransSig var exp])
      fun _ _ => declsMention_singleton
  | .decfun funbinds =>
    obtain ⟨infos, hinfos, hnodes⟩ := funNodes_ok funbinds
    obtain ⟨outs, houts, hmentions⟩ :=
      splitGroup_keeps decfun_mentions nonrecfun_mentions infos
    refine ⟨outs, ?_, fun x => (hmentions x).trans (exists_funNode hnodes x)⟩
    rw [optimizeDecl, hinfos]
    exact houts
  | .valrec recbinds =>
    obtain ⟨infos, hinfos, hnodes⟩ := recNodes_ok recbinds
    obtain ⟨outs, houts, hmentions⟩ :=
      splitGroup_keeps valrec_mentions nonrecVal_mentions infos
    refine ⟨outs, ?_, fun x => (hmentions x).trans (exists_recNode hnodes x)⟩
    rw [optimizeDecl, hinfos]
    exact houts
  | .valpolyrec recbinds =>
    exact (optimizePolyrecbinds_keeps recbinds).map (fun recbinds => [Decl.valpolyrec recbinds])
      fun _ _ => declsMention_singleton
  | .exntagD _ => exact Keeps.pure fun _ => declsMention_singleton
  | .tycastDecl declList =>
    exact Keeps.pure fun _ =>
      declsMention_singleton.trans (and_congr_right fun _ => copyDecls_mention declList)
  | .atom _ => exact Keeps.pure fun _ => declsMention_singleton

theorem optimizeDeclList_keeps (declList : List (Decl Empty τ)) :
    KeepsDecls (optimizeDeclList declList) fun x => declsMention True x declList := by
  match declList with
  | [] => exact Keeps.pure fun _ => Iff.rfl
  | decl :: declList =>
    exact (optimizeDecl_keeps decl).map₂ (optimizeDeclList_keeps declList) (· ++ ·)
      fun _ _ _ => declsMention_append

end

end VALRECOptimizer

end SmlSharp
