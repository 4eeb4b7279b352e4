/-
The nodes of an expression, and what the lists of subexpressions become in the
compilation.
-/
import SmlSharp.FFICompilation.Compile

namespace SmlSharp.FFICompilation

open RecordLabel (Label)

def bodies {α : Type} (rules : List (α × Tpexp)) : List Tpexp := rules.map Prod.snd

def switchBodies : SwitchRules → List Tpexp
  | .constCase rules => bodies rules
  | .conCase rules => bodies rules
  | .exnCase rules => bodies rules

def funBindBodies (binds : List (FunBind × List (List Tppat × Tpexp))) : List Tpexp :=
  binds.flatMap fun bind => bodies bind.2

/-- The expressions right below a declaration. -/
def declExps : Tpdecl → List Tpexp
  | .tpVal _ exp => [exp]
  | .tpFunDecl binds => funBindBodies binds
  | .tpPolyFunDecl _ _ recbinds => funBindBodies recbinds
  | .tpValRec binds => bodies binds
  | .tpValPolyRec _ _ recbinds => bodies recbinds
  | .tpExportVar _ exp => [exp]
  | .tpExd .. => []
  | .tpExnTagd .. => []
  | .tpExportExn .. => []
  | .tpExternVar _ => []
  | .tpExternExn .. => []
  | .tpBuiltinExn .. => []

def declsExps (decls : List Tpdecl) : List Tpexp := decls.flatMap declExps

/-- The expressions right below an expression. -/
def children : Tpexp → List Tpexp
  | .tpError => []
  | .tpConstant .. => []
  | .tpVar _ => []
  | .tpExVar _ => []
  | .tpRecFunVar .. => []
  | .tpFnM _ _ bodyExp => [bodyExp]
  | .tpAppM funExp _ argExpList => funExp :: argExpList
  | .tpDataConstruct _ _ argExpOpt => argExpOpt.toList
  | .tpExnConstruct _ argExpOpt => argExpOpt.toList
  | .tpExnTag .. => []
  | .tpExExnTag .. => []
  | .tpCaseM expList _ ruleList _ _ => expList ++ bodies ruleList
  | .tpSwitch exp _ ruleList defaultExp _ => exp :: (switchBodies ruleList ++ [defaultExp])
  | .tpCatch _ tryExp _ catchExp _ => [tryExp, catchExp]
  | .tpThrow _ argExpList _ => argExpList
  | .tpDynamicCase groupListTerm _ dynamicTerm _ _ _ => [groupListTerm, dynamicTerm]
  | .tpDynamicExistTApp existInstMap exp _ _ => [existInstMap, exp]
  | .tpPrimApply _ _ argExp => [argExp]
  | .tpOprimApply _ _ argExp => [argExp]
  | .tpRecord fields _ => bodies fields
  | .tpSelect _ exp _ _ => [exp]
  | .tpModify _ recordExp _ elementExp _ => [recordExp, elementExp]
  | .tpMonoLet binds bodyExp => bodies binds ++ [bodyExp]
  | .tpLet decls body => declsExps decls ++ [body]
  | .tpRaise exp _ => [exp]
  | .tpHandle exp _ handler _ => [exp, handler]
  | .tpPoly _ _ _ exp => [exp]
  | .tpTApp exp _ _ => [exp]
  | .tpFFIImport (.tpFFIFun ptrExp _) _ _ => [ptrExp]
  | .tpFFIImport (.tpFFIExtern _) _ _ => []
  | .tpForeignSymbol .. => []
  | .tpForeignApply funExp argExpList _ _ => funExp :: argExpList
  | .tpCallbackFn _ _ bodyExp _ => [bodyExp]
  | .tpCast exp _ _ => [exp]
  | .tpSizeOf _ => []
  | .tpReifyTy _ => []
  | .tpJoin _ arg1 arg2 _ _ _ => [arg1, arg2]
  | .tpDynamic exp _ _ _ => [exp]
  | .tpDynamicIs exp _ _ _ => [exp]
  | .tpDynamicView exp _ _ _ => [exp]
  | .tpDynamicNull .. => []
  | .tpDynamicTop .. => []

/-- The property holds of the expression and of all expressions in it. -/
inductive Everywhere (property : Tpexp → Prop) : Tpexp → Prop
  | node {exp : Tpexp} (here : property exp)
      (below : ∀ child ∈ children exp, Everywhere property child) : Everywhere property exp

theorem everywhere_iff {property : Tpexp → Prop} {exp : Tpexp} :
    Everywhere property exp ↔
      property exp ∧ ∀ child ∈ children exp, Everywhere property child := by
  constructor
  · intro h
    cases h with
    | node here below => exact ⟨here, below⟩
  · rintro ⟨here, below⟩
    exact .node here below

theorem Everywhere.mono {property property' : Tpexp → Prop}
    (himp : ∀ exp, property exp → property' exp) {exp : Tpexp}
    (h : Everywhere property exp) : Everywhere property' exp := by
  induction h with
  | node here _ ih => exact .node (himp _ here) ih

/-- The forms that no later phase knows. -/
def isSurface : Tpexp → Bool
  | .tpFFIImport .. => true
  | .tpJoin .. => true
  | .tpDynamic .. => true
  | .tpDynamicIs .. => true
  | .tpDynamicView .. => true
  | .tpDynamicNull .. => true
  | .tpDynamicTop .. => true
  | .tpDynamicCase .. => true
  | _ => false

/-- No node of the expression has one of these forms. -/
def Eliminated (exp : Tpexp) : Prop := Everywhere (fun exp => isSurface exp = false) exp

/-- The operand of a coercion, of a check or of a view of a dynamic value. -/
def dynamicOperand : Tpexp → Option Tpexp
  | .tpDynamic exp _ _ _ => some exp
  | .tpDynamicIs exp _ _ _ => some exp
  | .tpDynamicView exp _ _ _ => some exp
  | _ => none

/-- The operands of the dynamic expressions have none of the forms in them. -/
def PlainOperands (exp : Tpexp) : Prop :=
  Everywhere (fun exp => ∀ operand, dynamicOperand exp = some operand → Eliminated operand) exp

theorem eliminated_iff {exp : Tpexp} :
    Eliminated exp ↔ isSurface exp = false ∧ ∀ child ∈ children exp, Eliminated child :=
  everywhere_iff

theorem plainOperands_iff {exp : Tpexp} : PlainOperands exp ↔
      (∀ operand, dynamicOperand exp = some operand → Eliminated operand) ∧
        ∀ child ∈ children exp, PlainOperands child :=
  everywhere_iff

theorem Eliminated.plainOperands {exp : Tpexp} (h : Eliminated exp) : PlainOperands exp := by
  refine h.mono ?_
  intro exp hexp operand hoperand
  cases exp <;> simp [isSurface, dynamicOperand] at hexp hoperand

/-! ### The size of the nodes -/

theorem sizeOf_lt_bodies {α : Type} [SizeOf α] {rules : List (α × Tpexp)} {child : Tpexp}
    (hmem : child ∈ bodies rules) : sizeOf child < sizeOf rules := by
  obtain ⟨⟨head, body⟩, hrule, rfl⟩ := List.mem_map.1 hmem
  have hlt := List.sizeOf_lt_of_mem hrule
  rw [Prod.mk.sizeOf_spec] at hlt
  simp only
  omega

theorem sizeOf_lt_switchBodies {rules : SwitchRules} {child : Tpexp}
    (hmem : child ∈ switchBodies rules) : sizeOf child < sizeOf rules := by
  cases rules with
  | constCase rules =>
    have hlt := sizeOf_lt_bodies hmem
    rw [SwitchRules.constCase.sizeOf_spec]
    omega
  | conCase rules =>
    have hlt := sizeOf_lt_bodies hmem
    rw [SwitchRules.conCase.sizeOf_spec]
    omega
  | exnCase rules =>
    have hlt := sizeOf_lt_bodies hmem
    rw [SwitchRules.exnCase.sizeOf_spec]
    omega

theorem sizeOf_lt_funBindBodies {binds : List (FunBind × List (List Tppat × Tpexp))}
    {child : Tpexp} (hmem : child ∈ funBindBodies binds) : sizeOf child < sizeOf binds := by
  obtain ⟨⟨bind, rules⟩, hbind, hchild⟩ := List.mem_flatMap.1 hmem
  have hlt := List.sizeOf_lt_of_mem hbind
  have hlt' := sizeOf_lt_bodies hchild
  rw [Prod.mk.sizeOf_spec] at hlt
  simp only at hlt'
  omega

theorem sizeOf_lt_declExps {decl : Tpdecl} {child : Tpexp} (hmem : child ∈ declExps decl) :
    sizeOf child < sizeOf decl := by
  cases decl with
  | tpFunDecl binds =>
    have hlt := sizeOf_lt_funBindBodies hmem
    rw [Tpdecl.tpFunDecl.sizeOf_spec]
    omega
  | tpPolyFunDecl btvEnv constraints recbinds =>
    have hlt := sizeOf_lt_funBindBodies hmem
    rw [Tpdecl.tpPolyFunDecl.sizeOf_spec]
    omega
  | tpValRec binds =>
    have hlt := sizeOf_lt_bodies hmem
    rw [Tpdecl.tpValRec.sizeOf_spec]
    omega
  | tpValPolyRec btvEnv constraints recbinds =>
    have hlt := sizeOf_lt_bodies hmem
    rw [Tpdecl.tpValPolyRec.sizeOf_spec]
    omega
  | _ =>
    simp only [declExps, List.mem_singleton, List.not_mem_nil] at hmem
    try subst hmem
    try simp

theorem sizeOf_lt_declsExps {decls : List Tpdecl} {child : Tpexp}
    (hmem : child ∈ declsExps decls) : sizeOf child < sizeOf decls := by
  obtain ⟨decl, hdecl, hchild⟩ := List.mem_flatMap.1 hmem
  exact (sizeOf_lt_declExps hchild).trans (List.sizeOf_lt_of_mem hdecl)

theorem sizeOf_lt_option {argExpOpt : Option Tpexp} {child : Tpexp}
    (hmem : child ∈ argExpOpt.toList) : sizeOf child < sizeOf argExpOpt := by
  cases argExpOpt with
  | none => cases hmem
  | some exp =>
    rw [List.mem_singleton.1 hmem]
    simp

theorem sizeOf_lt_children {exp child : Tpexp} (hmem : child ∈ children exp) :
    sizeOf child < sizeOf exp := by
  cases exp with
  | tpAppM funExp funTy argExpList =>
    rw [Tpexp.tpAppM.sizeOf_spec]
    rcases List.mem_cons.1 hmem with rfl | hmem
    · omega
    · have hlt := List.sizeOf_lt_of_mem hmem
      omega
  | tpDataConstruct con instTyList argExpOpt =>
    have hlt := sizeOf_lt_option hmem
    rw [Tpexp.tpDataConstruct.sizeOf_spec]
    omega
  | tpExnConstruct exn argExpOpt =>
    have hlt := sizeOf_lt_option hmem
    rw [Tpexp.tpExnConstruct.sizeOf_spec]
    omega
  | tpCaseM expList expTyList ruleList ruleBodyTy caseKind =>
    rw [Tpexp.tpCaseM.sizeOf_spec]
    rcases List.mem_append.1 hmem with hmem | hmem
    · have hlt := List.sizeOf_lt_of_mem hmem
      omega
    · have hlt := sizeOf_lt_bodies hmem
      omega
  | tpSwitch exp expTy ruleList defaultExp ruleBodyTy =>
    rw [Tpexp.tpSwitch.sizeOf_spec]
    rcases List.mem_cons.1 hmem with rfl | hmem
    · omega
    · rcases List.mem_append.1 hmem with hmem | hmem
      · have hlt := sizeOf_lt_switchBodies hmem
        omega
      · rw [List.mem_singleton.1 hmem]
        omega
  | tpThrow catchLabel argExpList resultTy =>
    have hlt : sizeOf child < sizeOf argExpList := List.sizeOf_lt_of_mem hmem
    rw [Tpexp.tpThrow.sizeOf_spec]
    omega
  | tpRecord fields recordTy =>
    have hlt := sizeOf_lt_bodies hmem
    rw [Tpexp.tpRecord.sizeOf_spec]
    omega
  | tpMonoLet binds bodyExp =>
    rw [Tpexp.tpMonoLet.sizeOf_spec]
    rcases List.mem_append.1 hmem with hmem | hmem
    · have hlt := sizeOf_lt_bodies hmem
      omega
    · rw [List.mem_singleton.1 hmem]
      omega
  | tpLet decls body =>
    rw [Tpexp.tpLet.sizeOf_spec]
    rcases List.mem_append.1 hmem with hmem | hmem
    · have hlt := sizeOf_lt_declsExps hmem
      omega
    · rw [List.mem_singleton.1 hmem]
      omega
  | tpForeignApply funExp argExpList attributes resultTy =>
    rw [Tpexp.tpForeignApply.sizeOf_spec]
    rcases List.mem_cons.1 hmem with rfl | hmem
    · omega
    · have hlt := List.sizeOf_lt_of_mem hmem
      omega
  | tpFFIImport funExp ffiTy stubTy =>
    cases funExp with
    | tpFFIFun ptrExp ptrTy =>
      rw [List.mem_singleton.1 hmem]
      simp
      omega
    | tpFFIExtern name => cases hmem
  | _ =>
    simp only [children, List.mem_cons, List.not_mem_nil, or_false] at hmem <;>
      rcases hmem with rfl | rfl <;> simp <;> omega

/-! ### The compiled nodes -/

section

variable (prims : UserLevelPrimitive)

def Compiles (exp exp' : Tpexp) : Prop :=
  ∃ next next', compileExp prims exp next = .ok (exp', next')

variable {prims}

theorem compileExps_ok {exps exps' : List Tpexp} {next next' : Nat}
    (h : compileExps prims exps next = .ok (exps', next')) :
    List.Forall₂ (Compiles prims) exps exps' := by
  induction exps generalizing exps' next with
  | nil =>
    cases h
    exact .nil
  | cons exp exps ih =>
    obtain ⟨exp', next1, hexp, h⟩ := stateT_bind_ok.1 h
    obtain ⟨exps1, next2, hexps, h⟩ := stateT_bind_ok.1 h
    cases h
    exact .cons ⟨_, _, hexp⟩ (ih hexps)

theorem compileOption_ok {argExpOpt argExpOpt' : Option Tpexp} {next next' : Nat}
    (h : compileOption prims argExpOpt next = .ok (argExpOpt', next')) :
    List.Forall₂ (Compiles prims) argExpOpt.toList argExpOpt'.toList := by
  cases argExpOpt with
  | none =>
    cases h
    exact .nil
  | some exp =>
    obtain ⟨exp', next1, hexp, h⟩ := stateT_bind_ok.1 h
    cases h
    exact .cons ⟨_, _, hexp⟩ .nil

/-- The equations of the functions that compile the body of each rule, field or binding of a list. -/
structure CompilesBodies {α : Type} (prims : UserLevelPrimitive)
    (compile : List (α × Tpexp) → Gen (List (α × Tpexp))) : Prop where
  nil : compile [] = return []
  cons : ∀ head body rules, compile ((head, body) :: rules) = do
    return (head, ← compileExp prims body) :: (← compile rules)

theorem compileBodies_ok {α : Type} {compile : List (α × Tpexp) → Gen (List (α × Tpexp))}
    {rules rules' : List (α × Tpexp)} {next next' : Nat}
    (h : compile rules next = .ok (rules', next')) (hcompile : CompilesBodies prims compile) :
    List.Forall₂ (Compiles prims) (bodies rules) (bodies rules') := by
  induction rules generalizing rules' next with
  | nil =>
    rw [hcompile.nil] at h
    cases h
    exact .nil
  | cons rule rules ih =>
    rw [hcompile.cons] at h
    obtain ⟨body', next1, hbody, h⟩ := stateT_bind_ok.1 h
    obtain ⟨rules1, next2, hrules, h⟩ := stateT_bind_ok.1 h
    cases h
    exact .cons ⟨_, _, hbody⟩ (ih hrules)

theorem compileSwitchRules_ok {rules rules' : SwitchRules} {next next' : Nat}
    (h : compileSwitchRules prims rules next = .ok (rules', next')) :
    List.Forall₂ (Compiles prims) (switchBodies rules) (switchBodies rules') := by
  cases rules with
  | constCase rules =>
    obtain ⟨rules1, next1, hrules, h⟩ := stateT_bind_ok.1 h
    cases h
    exact compileBodies_ok hrules ⟨rfl, fun _ _ _ => rfl⟩
  | conCase rules =>
    obtain ⟨rules1, next1, hrules, h⟩ := stateT_bind_ok.1 h
    cases h
    exact compileBodies_ok hrules ⟨rfl, fun _ _ _ => rfl⟩
  | exnCase rules =>
    obtain ⟨rules1, next1, hrules, h⟩ := stateT_bind_ok.1 h
    cases h
    exact compileBodies_ok hrules ⟨rfl, fun _ _ _ => rfl⟩

theorem compileFunBinds_ok {binds binds' : List (FunBind × List (List Tppat × Tpexp))}
    {next next' : Nat} (h : compileFunBinds prims binds next = .ok (binds', next')) :
    List.Forall₂ (Compiles prims) (funBindBodies binds) (funBindBodies binds') := by
  induction binds generalizing binds' next with
  | nil =>
    cases h
    exact .nil
  | cons bind binds ih =>
    obtain ⟨rules1, next1, hrules, h⟩ := stateT_bind_ok.1 h
    obtain ⟨binds1, next2, hbinds, h⟩ := stateT_bind_ok.1 h
    cases h
    exact List.rel_append (compileBodies_ok hrules ⟨rfl, fun _ _ _ => rfl⟩) (ih hbinds)

theorem compileDecl_ok {decl decl' : Tpdecl} {next next' : Nat}
    (h : compileDecl prims decl next = .ok (decl', next')) :
    List.Forall₂ (Compiles prims) (declExps decl) (declExps decl') := by
  cases decl with
  | tpVal var exp =>
    obtain ⟨exp', next1, hexp, h⟩ := stateT_bind_ok.1 h
    cases h
    exact .cons ⟨_, _, hexp⟩ .nil
  | tpFunDecl binds =>
    obtain ⟨binds', next1, hbinds, h⟩ := stateT_bind_ok.1 h
    cases h
    exact compileFunBinds_ok hbinds
  | tpPolyFunDecl btvEnv constraints recbinds =>
    obtain ⟨binds', next1, hbinds, h⟩ := stateT_bind_ok.1 h
    cases h
    exact compileFunBinds_ok hbinds
  | tpValRec binds =>
    obtain ⟨binds', next1, hbinds, h⟩ := stateT_bind_ok.1 h
    cases h
    exact compileBodies_ok hbinds ⟨rfl, fun _ _ _ => rfl⟩
  | tpValPolyRec btvEnv constraints recbinds =>
    obtain ⟨binds', next1, hbinds, h⟩ := stateT_bind_ok.1 h
    cases h
    exact compileBodies_ok hbinds ⟨rfl, fun _ _ _ => rfl⟩
  | tpExportVar var exp =>
    obtain ⟨exp', next1, hexp, h⟩ := stateT_bind_ok.1 h
    cases h
    exact .cons ⟨_, _, hexp⟩ .nil
  | _ =>
    cases h
    exact .nil

theorem compileDecls_ok {decls decls' : List Tpdecl} {next next' : Nat}
    (h : compileDecls prims decls next = .ok (decls', next')) :
    List.Forall₂ (Compiles prims) (declsExps decls) (declsExps decls') := by
  induction decls generalizing decls' next with
  | nil =>
    cases h
    exact .nil
  | cons decl decls ih =>
    obtain ⟨decl1, next1, hdecl, h⟩ := stateT_bind_ok.1 h
    obtain ⟨decls1, next2, hdecls, h⟩ := stateT_bind_ok.1 h
    cases h
    exact List.rel_append (compileDecl_ok hdecl) (ih hdecls)

end

end SmlSharp.FFICompilation
