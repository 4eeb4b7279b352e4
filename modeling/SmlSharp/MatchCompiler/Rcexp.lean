/-
The code of a case expression: what a decision tree becomes, with the branches
that several leaves share as functions or as handlers of a label.
-/
import Mathlib.Data.Finset.Basic
import SmlSharp.MatchCompiler.Diagnostics
import SmlSharp.MatchCompiler.Leaves

namespace SmlSharp

namespace MatchCompiler

variable {τ β ε E : Type}

structure Options where
  doLocalizeCaseBranch : Bool
  doInlineCaseBranch : Bool
  doUncurryingOptimizeInMatchCompile : Bool

/-- What the code does when no rule matches. -/
inductive Kind (τ : Type) where
  | bindFail
  | matchFail
  | handle (v : VarInfo τ)

inductive FunTy (τ : Type) where
  | ty (ty : τ)
  | funM (args : List τ) (ret : FunTy τ)

/-- The code of a case expression, with compiled bodies.  The function and the
label of a branch are named by the number of the branch; a function without
arguments takes the unit value. -/
inductive Code (τ E : Type) where
  | failure (kind : Kind τ)
  | matchCompBug
  | dummy
  | unit
  | body (exp : E)
  | var (x : VarInfo τ)
  | funVar (branch : Nat) (ty : FunTy τ)
  | fn (args : List (VarInfo τ)) (body : Code τ E)
  | app (func : Code τ E) (ty : FunTy τ) (args : List (Code τ E))
  | throw (label : Nat) (args : List (Code τ E))
  | handle (label : Nat) (args : List (VarInfo τ)) (catchExp : E)
      (tryExp : Code τ E)
  | letFuns (decs : List (Nat × FunTy τ × Code τ E)) (body : Code τ E)
  | constCase (path : VarInfo τ) (rules : List (Const × Code τ E))
      (default : Code τ E)
  | conCase (path : VarInfo τ)
      (rules : List (DataKey τ × Option (VarInfo τ) × Code τ E))
      (default : Code τ E)
  | exnCase (path : VarInfo τ)
      (rules : List (ExnConKey τ × Option (VarInfo τ) × Code τ E))
      (default : Code τ E)
  | letSelect (x path : VarInfo τ) (label : String) (body : Code τ E)

structure BranchData (τ β : Type) where
  body : β
  isSmall : Bool
  funArgs : List (VarInfo τ)

/-- What stops the compilation: a failure of the match compiler, the value of
an empty option, or the compilation of the body of a rule. -/
inductive CaseError (ε : Type) where
  | failure (failure : Failure)
  | option
  | body (error : ε)

def bug {α : Type} (message : String) : Except (CaseError ε) α :=
  .error (.failure (.bug message))

def Env.find (env : Env τ) (x : VarInfo τ) : Option (VarInfo τ) :=
  (env.find? fun entry => entry.1.id = x.id).map Prod.snd

/-- The inner environment before the outer one. -/
def unionVarInfoEnv (outer inner : Env τ) : Env τ :=
  inner ++ outer.filter fun entry => (inner.find entry.1).isNone

def findArg (message : String) (env : Env τ) (arg : VarInfo τ) :
    Except (CaseError ε) (Code τ E) :=
  match env.find arg with
  | some v => .ok (.var v)
  | none => bug message

/-- Apply a function to its arguments, one after the other. -/
def applyNested (env : Env τ) : List (VarInfo τ) → FunTy τ → Code τ E →
    Except (CaseError ε) (Code τ E)
  | [], _, func => .ok func
  | arg :: args, .funM [ty1] ty2, func => do
      let v ← findArg "match comp, treeToExp, leaf node for fun" env arg
      applyNested env args ty2 (.app func (.funM [ty1] ty2) [v])
  | _ :: _, _, _ => bug "match comp, treeToExp, leaf node for fun"

/-- A function of one argument for each variable, and its type. -/
def nestedFun (argList : List (VarInfo τ)) (body : Code τ E) (bodyTy : τ) :
    Code τ E × FunTy τ :=
  argList.foldr (fun arg fn => (.fn [arg] fn.1, .funM [arg.ty] fn.2))
    (body, .ty bodyTy)

def makeNestedFun (unitTy : τ) (argList : List (VarInfo τ)) (body : Code τ E)
    (bodyTy : τ) : Code τ E × FunTy τ :=
  match argList with
  | [] => (.fn [] body, .funM [unitTy] (.ty bodyTy))
  | arg :: args => nestedFun (arg :: args) body bodyTy

def makeUncurriedFun (unitTy : τ) (argList : List (VarInfo τ))
    (body : Code τ E) (bodyTy : τ) : Code τ E × FunTy τ :=
  match argList with
  | [] => (.fn [] body, .funM [unitTy] (.ty bodyTy))
  | arg :: args =>
    (.fn (arg :: args) body, .funM ((arg :: args).map VarInfo.ty) (.ty bodyTy))

/-- What the code of a case expression is made with. -/
structure Context (τ β ε E : Type) where
  types : Types τ
  options : Options
  compileExp : Env τ → β → Except ε E
  varEnv : Env τ
  bodyTy : τ
  kind : Kind τ
  branchEnv : List (Nat × BranchData τ β)
  useCount : Nat → Nat
  funTys : List (Nat × FunTy τ)

namespace Context

variable (ctx : Context τ β ε E)

def compileBody (env : Env τ) (data : BranchData τ β) :
    Except (CaseError ε) E :=
  (ctx.compileExp env data.body).mapError .body

def canInlineBranch (branch : Nat) (data : BranchData τ β) : Bool :=
  ctx.options.doInlineCaseBranch &&
    (data.isSmall || ctx.useCount branch == 1)

/-- The type of the function of a branch, where it was declared. -/
def funTy (branch : Nat) : Except (CaseError ε) (FunTy τ) :=
  match ctx.funTys.lookup branch with
  | some ty => .ok ty
  | none => .error .option

/-- Call the function of a branch with its arguments. -/
def callBranch (branch : Nat) (data : BranchData τ β) (env : Env τ) :
    Except (CaseError ε) (Code τ E) :=
  match data.funArgs with
  | [] => do
      let ty ← ctx.funTy branch
      .ok (.app (.funVar branch ty) ty [.unit])
  | arg :: args =>
    if ctx.options.doUncurryingOptimizeInMatchCompile then do
      let vars ← (arg :: args).mapM
        (findArg "match comp, treeToExp, leaf node for fun" env)
      let ty ← ctx.funTy branch
      .ok (.app (.funVar branch ty) ty vars)
    else do
      let ty ← ctx.funTy branch
      applyNested env (arg :: args) ty (.funVar branch ty)

def leafExp (branch : Nat) (env : Env τ) : Except (CaseError ε) (Code τ E) :=
  match ctx.branchEnv.lookup branch with
  | none => bug "MatchCompiler toExp: undefined branchId"
  | some data =>
    if ctx.options.doLocalizeCaseBranch then
      if ctx.useCount branch = 1 then do
        let exp ← ctx.compileBody (unionVarInfoEnv ctx.varEnv env) data
        .ok (.body exp)
      else do
        let args ← data.funArgs.mapM (findArg "TPTHROW" env)
        .ok (.throw branch args)
    else if ctx.canInlineBranch branch data then do
      let exp ← ctx.compileBody (unionVarInfoEnv ctx.varEnv env) data
      .ok (.body exp)
    else ctx.callBranch branch data env

def tyConOf (message : String) (ty : τ) :
    Except (CaseError ε) (List String) :=
  match ctx.types.view ty with
  | .construct conSet => .ok conSet
  | _ => bug message

def tagNums : List String → Except (CaseError ε) Nat
  | [] => bug "NON span field in userdefined type"
  | con :: conSet => .ok (con :: conSet).length

def pathOf (tree : Tree τ) : Except (CaseError ε) (VarInfo τ) :=
  match getPath tree with
  | some path => .ok path
  | none => bug "match comp, getPath bug"

/-- The variable of the argument of a constructor. -/
def argVar (hasArg : Bool) (tree : Tree τ) :
    Except (CaseError ε) (Option (VarInfo τ)) :=
  if hasArg then do
    let arg ← pathOf tree
    .ok (some arg)
  else .ok none

mutual

/-- The code of a tree, with the variables that it reads. -/
def toExp : Tree τ → Except (CaseError ε) (Finset Nat × Code τ E)
  | .emptyNode => .ok (∅, .failure ctx.kind)
  | .leafNode branch env => do
      let exp ← ctx.leafExp branch env
      .ok ((env.map fun entry => entry.2.id).toFinset, exp)
  | .eqNode path branches default => do
      let (vars, rules) ← toExpConst branches
      let (defVars, defBranch) ← toExp default
      .ok (insert path.id (vars ∪ defVars), .constCase path rules defBranch)
  | .dataConNode path branches default => do
      let conSet ← ctx.tyConOf "non tyCon in TagNode (1)" path.ty
      let (vars, rules) ← toExpData branches
      let n ← tagNums conSet
      let (defVars, defBranch) ←
        if n ≠ branches.length then toExp default
        else match default with
          | .emptyNode => .ok (∅, .matchCompBug)
          | _ => toExp default
      .ok (insert path.id (vars ∪ defVars), .conCase path rules defBranch)
  | .exnConNode path branches default => do
      let _ ← ctx.tyConOf "non tyCon in TagNode (2)" path.ty
      let (vars, rules) ← toExpExn branches
      let (defVars, defBranch) ← toExp default
      .ok (insert path.id (vars ∪ defVars), .exnCase path rules defBranch)
  | .recNode path label child => do
      let pi ← pathOf child
      let (vars, exp) ← toExp child
      .ok (if pi.id ∉ vars then (vars, exp)
        else (insert path.id vars, .letSelect pi path label exp))
  | .univNode _ child => toExp child
termination_by structural tree => tree

def toExpConst : List (Const × Tree τ) →
    Except (CaseError ε) (Finset Nat × List (Const × Code τ E))
  | [] => .ok (∅, [])
  | (c, tree) :: rest => do
      let (vars, rules) ← toExpConst rest
      let (vars', exp) ← toExp tree
      .ok (vars' ∪ vars, (c, exp) :: rules)
termination_by structural branches => branches

def toExpData : List (DataKey τ × Tree τ) → Except (CaseError ε)
    (Finset Nat × List (DataKey τ × Option (VarInfo τ) × Code τ E))
  | [] => .ok (∅, [])
  | (key, tree) :: rest => do
      let (vars, rules) ← toExpData rest
      let (vars', exp) ← toExp tree
      let argOpt ← argVar key.2.2 tree
      .ok (vars' ∪ vars, (key, argOpt, exp) :: rules)
termination_by structural branches => branches

def toExpExn : List (ExnConKey τ × Tree τ) → Except (CaseError ε)
    (Finset Nat × List (ExnConKey τ × Option (VarInfo τ) × Code τ E))
  | [] => .ok (∅, [])
  | (key, tree) :: rest => do
      let (vars, rules) ← toExpExn rest
      let (vars', exp) ← toExp tree
      let argOpt ← argVar key.2 tree
      .ok (vars' ∪ vars, (key, argOpt, exp) :: rules)
termination_by structural branches => branches

end

/-- The handlers of the branches that are shared, the outermost first. -/
def catches : List (Nat × BranchData τ β) →
    Except (CaseError ε) (List (Nat × List (VarInfo τ) × E))
  | [] => .ok []
  | (branch, data) :: rest => do
      let others ← catches rest
      if ctx.useCount branch = 1 then .ok others
      else do
        let exp ← ctx.compileBody ctx.varEnv data
        .ok ((branch, data.funArgs, exp) :: others)

def makeFun (argList : List (VarInfo τ)) (body : Code τ E) :
    Code τ E × FunTy τ :=
  if ctx.options.doUncurryingOptimizeInMatchCompile then
    makeUncurriedFun ctx.types.unitTy argList body ctx.bodyTy
  else makeNestedFun ctx.types.unitTy argList body ctx.bodyTy

/-- The functions of the branches that are not inlined. -/
def funDecs : List (Nat × BranchData τ β) →
    Except (CaseError ε) (List (Nat × FunTy τ × Code τ E))
  | [] => .ok []
  | (branch, data) :: rest => do
      let others ← funDecs rest
      if ctx.canInlineBranch branch data then .ok others
      else do
        let exp ← ctx.compileBody ctx.varEnv data
        let (funTerm, funTy) := ctx.makeFun data.funArgs (.body exp)
        .ok ((branch, funTy, funTerm) :: others)

def branchCatches : Except (CaseError ε) (List (Nat × List (VarInfo τ) × E)) :=
  if ctx.options.doLocalizeCaseBranch then ctx.catches ctx.branchEnv else .ok []

def branchDecs : Except (CaseError ε) (List (Nat × FunTy τ × Code τ E)) :=
  if ctx.options.doLocalizeCaseBranch then .ok []
  else ctx.funDecs ctx.branchEnv

/-- The code of a tree, inside what its branches share. -/
def caseExp (redundantFlag : Bool) (tree : Tree τ) :
    Except (CaseError ε) (Code τ E) := do
  let catches ← ctx.branchCatches
  let decs ← ctx.branchDecs
  if redundantFlag then .ok .dummy
  else do
    let (_, exp) ← toExp
      { ctx with funTys := decs.map fun dec => (dec.1, dec.2.1) } tree
    let exp := if decs.isEmpty then exp else .letFuns decs exp
    .ok (catches.foldr (fun dec exp => .handle dec.1 dec.2.1 dec.2.2 exp) exp)

end Context

def kindOf : CaseKind → List (VarInfo τ) → Except Failure (Kind τ)
  | .matchCase, _ => .ok .matchFail
  | .bindCase, _ => .ok .bindFail
  | .handleCase, [v] => .ok (.handle v)
  | .handleCase, _ => .error (.bug "non single var in casem for handler")

def branchData (isSmall : β → Bool) (pats : List (Pat τ)) (body : β) :
    BranchData τ β :=
  ⟨body, isSmall body, (getVarsInPatList pats).items⟩

/-- The branches and the tree of a case expression. -/
def caseTree (T : Types τ) (isSmall : β → Bool) (fuel firstBranch : Nat)
    (topVarList : List (VarInfo τ)) (ruleList : List (TpRule τ β))
    (nextId : Nat) :
    Except Failure (List (Nat × BranchData τ β) × Tree τ × Build) := do
  let patList ← ruleList.mapM (normaliseRule T)
  let (branchEnv, rules) := makeRules firstBranch (patList.map fun entry =>
    (entry.1, branchData isSmall entry.1 entry.2))
  let (tree, st) ← matchToTree T (branchEnv.map Prod.fst) fuel topVarList rules
    ⟨nextId, [], false⟩
  .ok (branchEnv, tree, st)

/-- The code of a case expression over variables that hold its subjects.  How
bodies are compiled and which of them are small are parameters. -/
def compileCase (T : Types τ) (options : Options)
    (compileExp : Env τ → β → Except ε E) (isSmall : β → Bool) (varEnv : Env τ)
    (caseKind : CaseKind) (ruleBodyTy : τ) (fuel firstBranch : Nat)
    (topVarList : List (VarInfo τ)) (ruleList : List (TpRule τ β))
    (nextId : Nat) : Except (CaseError ε) (Code τ E) := do
  let kind ← (kindOf caseKind topVarList).mapError .failure
  let (branchEnv, tree, st) ←
    (caseTree T isSmall fuel firstBranch topVarList ruleList nextId).mapError
      .failure
  Context.caseExp ⟨T, options, compileExp, varEnv, ruleBodyTy, kind, branchEnv,
    st.useCount, []⟩ (haveRedundantRules branchEnv st) tree

/-! ### Trees that code is made of -/

variable {S : Semantics τ}

/-- The types of patterns with constructors are applied type constructors, and
those of datatypes have constructors. -/
structure Semantics.TyCons (S : Semantics τ) : Prop where
  data : ∀ ty cons, S.shape ty = .data cons →
    ∃ conSet, S.view ty = .construct conSet ∧ conSet ≠ []
  exn : ∀ ty, S.shape ty = .exn → ∃ conSet, S.view ty = .construct conSet

/-- The variables and the types that the code of a tree asks for are there. -/
inductive Tree.Coded (T : Types τ) : Tree τ → Prop where
  | empty : Coded T .emptyNode
  | leaf {branch : Nat} {env : Env τ} : Coded T (.leafNode branch env)
  | eq {path : VarInfo τ} {branches : List (Const × Tree τ)}
      {default : Tree τ} : (∀ entry ∈ branches, Coded T entry.2) →
      Coded T default → Coded T (.eqNode path branches default)
  | data {path : VarInfo τ} {branches : List (DataKey τ × Tree τ)}
      {default : Tree τ} {conSet : List String} :
      T.view path.ty = .construct conSet → conSet ≠ [] →
      (∀ entry ∈ branches, ∃ arg, getPath entry.2 = some arg) →
      (∀ entry ∈ branches, Coded T entry.2) → Coded T default →
      Coded T (.dataConNode path branches default)
  | exn {path : VarInfo τ} {branches : List (ExnConKey τ × Tree τ)}
      {default : Tree τ} {conSet : List String} :
      T.view path.ty = .construct conSet →
      (∀ entry ∈ branches, ∃ arg, getPath entry.2 = some arg) →
      (∀ entry ∈ branches, Coded T entry.2) → Coded T default →
      Coded T (.exnConNode path branches default)
  | record {path arg : VarInfo τ} {label : String} {child : Tree τ} :
      getPath child = some arg → Coded T child →
      Coded T (.recNode path label child)
  | univ {path : VarInfo τ} {child : Tree τ} : Coded T child →
      Coded T (.univNode path child)

theorem Chain.mem {K : Type}
    {P : K → List (Row τ) → Build → Tree τ → Build → Prop}
    {branches : List (K × List (Row τ))} {trees : List (K × Tree τ)}
    {st st' : Build} (hchain : Chain P branches st trees st') :
    ∀ entry ∈ trees, ∃ rows st₁ st₂, P entry.1 rows st₁ entry.2 st₂ := by
  induction hchain with
  | nil => simp
  | cons hhead _ ih =>
    intro entry hentry
    rcases List.mem_cons.mp hentry with rfl | hlater
    · exact ⟨_, _, _, hhead⟩
    · exact ih entry hlater

theorem Node.coded (hcons : S.TyCons) {branchEnv : List Nat}
    {cols : List (Col τ)} {paths : List (VarInfo τ)} {rows : List (Row τ)}
    {st st' : Build} {tree : Tree τ}
    (hmatrix : Matrix S branchEnv cols paths rows st)
    (hnode : Node S branchEnv (fun _ _ _ _ tree _ => tree.Coded S.toTypes) cols
      paths rows st tree st') : tree.Coded S.toTypes := by
  have htypes := hmatrix.types
  cases hnode with
  | empty => exact .empty
  | leaf => exact .leaf
  | univ _ _ hsub => exact .univ hsub.holds
  | eq _ _ _ _ _ _ hchain hsub =>
    refine .eq (fun entry hentry => ?_) hsub.holds
    obtain ⟨_, _, _, hentrySub⟩ := hchain.mem entry hentry
    exact hentrySub.holds
  | data _ hshape _ _ _ _ hchain hdefault =>
    obtain ⟨conSet, hview, hne⟩ := hcons.data _ _ hshape
    have hty := (List.forall₂_cons.mp htypes).1
    simp only [Col.ty] at hty
    rw [← hty] at hview
    refine .data hview hne (fun entry hentry => ?_) (fun entry hentry => ?_) ?_
    · obtain ⟨_, _, _, arg, -, hroot, -⟩ := hchain.mem entry hentry
      exact ⟨arg, hroot⟩
    · obtain ⟨_, _, _, arg, -, -, hsub⟩ := hchain.mem entry hentry
      exact hsub.holds
    · rcases hdefault with ⟨-, rfl, -⟩ | ⟨-, hsub⟩
      · exact .empty
      · exact hsub.holds
  | exn _ hshape _ _ _ _ hchain hsub =>
    obtain ⟨conSet, hview⟩ := hcons.exn _ hshape
    have hty := (List.forall₂_cons.mp htypes).1
    simp only [Col.ty] at hty
    rw [← hty] at hview
    refine .exn hview (fun entry hentry => ?_) (fun entry hentry => ?_)
      hsub.holds
    · obtain ⟨_, _, _, arg, -, hroot, -⟩ := hchain.mem entry hentry
      exact ⟨arg, hroot⟩
    · obtain ⟨_, _, _, arg, -, -, hentrySub⟩ := hchain.mem entry hentry
      exact hentrySub.holds
  | record _ _ _ hroot _ hsub => exact .record hroot hsub.holds

/-! ### The code generation does not fail -/

theorem Env.Has.find {env : Env τ} {x : VarInfo τ} (hhas : env.Has x.id) :
    ∃ v, env.find x = some v := by
  obtain ⟨entry, hentry, hid⟩ := hhas
  have hsome : (env.find? fun entry => entry.1.id = x.id).isSome :=
    List.find?_isSome.mpr ⟨entry, hentry, by simpa using hid⟩
  obtain ⟨found, hfound⟩ := Option.isSome_iff_exists.mp hsome
  exact ⟨found.2, by simp [Env.find, hfound]⟩

theorem findArg_ok {message : String} {env : Env τ} {arg : VarInfo τ}
    (hhas : env.Has arg.id) :
    ∃ exp, findArg message env arg = (.ok exp : Except (CaseError ε) (Code τ E)) := by
  obtain ⟨v, hv⟩ := hhas.find
  exact ⟨.var v, by simp [findArg, hv]⟩

theorem applyNested_ok {env : Env τ} {bodyTy : τ} {body : Code τ E}
    {args : List (VarInfo τ)} (hargs : ∀ x ∈ args, env.Has x.id)
    (func : Code τ E) :
    ∃ exp, applyNested env args (nestedFun args body bodyTy).2 func =
      (.ok exp : Except (CaseError ε) (Code τ E)) := by
  induction args generalizing func with
  | nil => exact ⟨func, rfl⟩
  | cons x xs ih =>
    obtain ⟨hx, hxs⟩ := List.forall_mem_cons.mp hargs
    obtain ⟨v, hv⟩ : ∃ v, findArg "match comp, treeToExp, leaf node for fun"
        env x = (.ok v : Except (CaseError ε) (Code τ E)) := findArg_ok hx
    simp only [nestedFun, List.foldr_cons, applyNested, hv, except_ok_bind]
    exact ih hxs _

namespace Context

variable (ctx : Context τ β ε E) {p : CaseError ε → Prop}

theorem nestedFun_ty (argList : List (VarInfo τ)) (body body' : Code τ E)
    (bodyTy : τ) :
    (nestedFun argList body bodyTy).2 = (nestedFun argList body' bodyTy).2 := by
  induction argList with
  | nil => rfl
  | cons arg args ih => simpa [nestedFun] using ih

theorem makeFun_ty (argList : List (VarInfo τ)) (body body' : Code τ E) :
    (ctx.makeFun argList body).2 = (ctx.makeFun argList body').2 := by
  cases argList with
  | nil => simp [makeFun, makeUncurriedFun, makeNestedFun]
  | cons arg args =>
    simp only [makeFun, makeUncurriedFun, makeNestedFun]
    split
    · rfl
    · exact nestedFun_ty _ _ _ _

/-- What a leaf needs: the data of its branch, its arguments, and the type of
its function where the branch became one. -/
structure LeafReady (p : CaseError ε → Prop) (branch : Nat) (env : Env τ)
    (data : BranchData τ β) : Prop where
  found : ctx.branchEnv.lookup branch = some data
  args : ∀ arg ∈ data.funArgs, env.Has arg.id
  body : ∀ env, FailsOnly p (ctx.compileBody env data)
  funTy : ctx.options.doLocalizeCaseBranch = false →
    ctx.canInlineBranch branch data = false →
    ctx.funTys.lookup branch = some (ctx.makeFun data.funArgs .unit).2

variable {ctx}

theorem callBranch_ok {branch : Nat} {data : BranchData τ β} {env : Env τ}
    (hargs : ∀ arg ∈ data.funArgs, env.Has arg.id)
    (hty : ctx.funTys.lookup branch = some (ctx.makeFun data.funArgs .unit).2) :
    ∃ exp, ctx.callBranch branch data env = .ok exp := by
  have hfunTy : ctx.funTy branch =
      .ok (ctx.makeFun data.funArgs .unit).2 := by simp [funTy, hty]
  fun_cases callBranch ctx branch data env with
  | case1 hnil => exact ⟨_, by rw [hfunTy, except_ok_bind]⟩
  | case2 arg args hcons huncurry =>
    rw [hcons] at hargs
    obtain ⟨vars, hvars, -⟩ := mapM_forall₂ (R := fun _ _ => True)
      (f := (findArg "match comp, treeToExp, leaf node for fun" env :
        VarInfo τ → Except (CaseError ε) (Code τ E)))
      fun x hx => (findArg_ok (hargs x hx)).imp fun _ hexp => ⟨hexp, trivial⟩
    exact ⟨_, by rw [hvars, except_ok_bind, hfunTy, except_ok_bind]⟩
  | case3 arg args hcons huncurry =>
    rw [hcons] at hargs hfunTy
    rw [hfunTy, except_ok_bind]
    simp only [makeFun, huncurry]
    exact applyNested_ok hargs _

theorem LeafReady.failsOnly {branch : Nat} {env : Env τ}
    {data : BranchData τ β} (hready : ctx.LeafReady p branch env data) :
    FailsOnly p (ctx.leafExp branch env) := by
  simp only [leafExp, hready.found]
  have hbody : ∀ env : Env τ, FailsOnly p (do
      let exp ← ctx.compileBody env data
      .ok (Code.body exp : Code τ E)) :=
    fun env => (hready.body env).bind fun _ _ => .ok _
  split
  · split
    · exact hbody _
    · refine FailsOnly.bind (.mapM fun x hx => ?_) fun _ _ => .ok _
      obtain ⟨exp, hexp⟩ : ∃ exp, findArg "TPTHROW" env x =
        (.ok exp : Except (CaseError ε) (Code τ E)) := findArg_ok (hready.args x hx)
      exact .of_ok hexp
  · rename_i hlocal
    split
    · exact hbody _
    · rename_i hinline
      obtain ⟨exp, hexp⟩ := callBranch_ok hready.args
        (hready.funTy (by simpa using hlocal) (by simpa using hinline))
      exact .of_ok hexp

theorem tyConOf_ok {message : String} {ty : τ} {conSet : List String}
    (hview : ctx.types.view ty = .construct conSet) :
    ctx.tyConOf message ty = .ok conSet := by
  simp [tyConOf, hview]

theorem argVar_failsOnly {hasArg : Bool} {tree : Tree τ} {arg : VarInfo τ}
    (hpath : getPath tree = some arg) : FailsOnly p (argVar hasArg tree) := by
  cases hasArg with
  | true => exact .of_ok (a := some arg) (by simp [argVar, pathOf, hpath, except_ok_bind])
  | false => exact .ok none

theorem toExpConst_failsOnly {branches : List (Const × Tree τ)}
    (h : ∀ entry ∈ branches, FailsOnly p (ctx.toExp entry.2)) :
    FailsOnly p (ctx.toExpConst branches) := by
  induction branches with
  | nil => exact .ok _
  | cons entry rest ih =>
    obtain ⟨hentry, hrest⟩ := List.forall_mem_cons.mp h
    exact (ih hrest).bind fun _ _ => hentry.bind fun _ _ => .ok _

theorem toExpData_failsOnly {branches : List (DataKey τ × Tree τ)}
    (hroot : ∀ entry ∈ branches, ∃ arg, getPath entry.2 = some arg)
    (h : ∀ entry ∈ branches, FailsOnly p (ctx.toExp entry.2)) :
    FailsOnly p (ctx.toExpData branches) := by
  induction branches with
  | nil => exact .ok _
  | cons entry rest ih =>
    obtain ⟨hentry, hrest⟩ := List.forall_mem_cons.mp h
    obtain ⟨⟨arg, harg⟩, hroots⟩ := List.forall_mem_cons.mp hroot
    exact (ih hroots hrest).bind fun _ _ => hentry.bind fun _ _ =>
      (argVar_failsOnly harg).bind fun _ _ => .ok _

theorem toExpExn_failsOnly {branches : List (ExnConKey τ × Tree τ)}
    (hroot : ∀ entry ∈ branches, ∃ arg, getPath entry.2 = some arg)
    (h : ∀ entry ∈ branches, FailsOnly p (ctx.toExp entry.2)) :
    FailsOnly p (ctx.toExpExn branches) := by
  induction branches with
  | nil => exact .ok _
  | cons entry rest ih =>
    obtain ⟨hentry, hrest⟩ := List.forall_mem_cons.mp h
    obtain ⟨⟨arg, harg⟩, hroots⟩ := List.forall_mem_cons.mp hroot
    exact (ih hroots hrest).bind fun _ _ => hentry.bind fun _ _ =>
      (argVar_failsOnly harg).bind fun _ _ => .ok _

/-- The code of a tree fails only where the code of a leaf does. -/
theorem toExp_failsOnly {tree : Tree τ} (hcoded : tree.Coded ctx.types)
    (hleaf : ∀ branch env, tree.Leaf branch env →
      FailsOnly p (ctx.leafExp branch env)) : FailsOnly p (ctx.toExp tree) := by
  induction hcoded with
  | empty => exact .ok _
  | leaf => exact (hleaf _ _ .leaf).bind fun _ _ => .ok _
  | eq _ _ ih ihDefault =>
    have hrules := toExpConst_failsOnly fun entry hentry =>
      ih entry hentry fun _ _ h => hleaf _ _ (.eq hentry h)
    exact hrules.bind fun _ _ =>
      (ihDefault fun _ _ h => hleaf _ _ (.eqDefault h)).bind fun _ _ => .ok _
  | @data path branches default conSet hview hne hroot _ _ ih ihDefault =>
    have hrules := toExpData_failsOnly hroot fun entry hentry =>
      ih entry hentry fun _ _ h => hleaf _ _ (.data hentry h)
    have hdefault := ihDefault fun _ _ h => hleaf _ _ (.dataDefault h)
    obtain ⟨con, cons, rfl⟩ := List.exists_cons_of_ne_nil hne
    simp only [toExp, tyConOf_ok hview, except_ok_bind]
    refine hrules.bind fun _ _ => ?_
    simp only [tagNums, except_ok_bind]
    split
    · exact hdefault.bind fun _ _ => .ok _
    · split
      · exact .ok _
      · exact hdefault.bind fun _ _ => .ok _
  | @exn path branches default conSet hview hroot _ _ ih ihDefault =>
    have hrules := toExpExn_failsOnly hroot fun entry hentry =>
      ih entry hentry fun _ _ h => hleaf _ _ (.exn hentry h)
    simp only [toExp, tyConOf_ok hview, except_ok_bind]
    exact hrules.bind fun _ _ =>
      (ihDefault fun _ _ h => hleaf _ _ (.exnDefault h)).bind fun _ _ => .ok _
  | record hroot _ ih =>
    simp only [toExp, pathOf, hroot, except_ok_bind]
    exact (ih fun _ _ h => hleaf _ _ (.record h)).bind fun _ _ => .ok _
  | univ _ ih => exact ih fun _ _ h => hleaf _ _ (.univ h)

theorem catches_failsOnly {branchEnv : List (Nat × BranchData τ β)}
    (hbody : ∀ entry ∈ branchEnv, ∀ env,
      FailsOnly p (ctx.compileBody env entry.2)) :
    FailsOnly p (ctx.catches branchEnv) := by
  induction branchEnv with
  | nil => exact .ok []
  | cons entry rest ih =>
    obtain ⟨hentry, hrest⟩ := List.forall_mem_cons.mp hbody
    refine (ih hrest).bind fun others _ => ?_
    split
    · exact .ok others
    · exact (hentry _).bind fun _ _ => .ok _

theorem funDecs_failsOnly {branchEnv : List (Nat × BranchData τ β)}
    (hbody : ∀ entry ∈ branchEnv, ∀ env,
      FailsOnly p (ctx.compileBody env entry.2)) :
    FailsOnly p (ctx.funDecs branchEnv) := by
  induction branchEnv with
  | nil => exact .ok []
  | cons entry rest ih =>
    obtain ⟨hentry, hrest⟩ := List.forall_mem_cons.mp hbody
    refine (ih hrest).bind fun others _ => ?_
    split
    · exact .ok others
    · exact (hentry _).bind fun _ _ => .ok _

/-- A branch that is not inlined has a function. -/
theorem funDecs_lookup {branchEnv : List (Nat × BranchData τ β)}
    {decs : List (Nat × FunTy τ × Code τ E)}
    (hok : ctx.funDecs branchEnv = .ok decs)
    (hnodup : (branchEnv.map Prod.fst).Nodup) {branch : Nat}
    {data : BranchData τ β} (hmem : (branch, data) ∈ branchEnv)
    (hinline : ctx.canInlineBranch branch data = false) :
    (decs.map fun dec => (dec.1, dec.2.1)).lookup branch =
      some (ctx.makeFun data.funArgs .unit).2 := by
  induction branchEnv generalizing decs with
  | nil => simp at hmem
  | cons entry rest ih =>
    obtain ⟨branch₀, data₀⟩ := entry
    obtain ⟨hnew, hrest⟩ := List.nodup_cons.mp hnodup
    obtain ⟨others, hothers, hok⟩ := except_bind_ok.mp hok
    rcases List.mem_cons.mp hmem with hhead | hlater
    · obtain ⟨rfl, rfl⟩ : branch = branch₀ ∧ data = data₀ := by
        simpa using hhead
      rw [hinline, if_neg (by simp)] at hok
      obtain ⟨exp, -, hok⟩ := except_bind_ok.mp hok
      obtain rfl : _ = decs := by simpa using hok
      simp [ctx.makeFun_ty data.funArgs (.body exp) .unit]
    · have hne : branch ≠ branch₀ := by
        rintro rfl
        exact hnew (List.mem_map.mpr ⟨_, hlater, rfl⟩)
      have hfound := ih hothers hrest hlater
      split at hok
      · obtain rfl : others = decs := by simpa using hok
        exact hfound
      · obtain ⟨exp, -, hok⟩ := except_bind_ok.mp hok
        obtain rfl : _ = decs := by simpa using hok
        have hbeq : (branch == branch₀) = false := by simpa using hne
        rw [List.map_cons, List.lookup_cons, hfound, hbeq]

end Context

section Case

variable {rules : List (TpRule τ β)} {topVars : List (VarInfo τ)}
  {nextId : Nat}

/-- The branch of a row keeps the variables of the patterns that the row was
made from. -/
theorem branch_data {tys : List τ} {rows : List (Row τ)}
    (data : List (Pat τ) → β → BranchData τ β)
    (hrows : List.Forall₂ (RowOf S tys) rules rows) :
    ∀ row ∈ rows, row.env = [] ∧ ∃ rule ∈ rules,
      (row.branch, data row.pats rule.body) ∈ List.zipWith
        (fun row rule => (row.branch, data row.pats rule.body)) rows rules := by
  induction hrows with
  | nil => simp
  | cons hhead _ ih =>
    intro row hrow
    rcases List.mem_cons.mp hrow with rfl | hlater
    · exact ⟨hhead.env, _, List.mem_cons_self, List.mem_cons_self⟩
    · obtain ⟨henv, rule, hrule, hdata⟩ := ih row hlater
      exact ⟨henv, rule, List.mem_cons_of_mem _ hrule,
        List.mem_cons_of_mem _ hdata⟩

/-- What the code generation finds in the tree of a typed case expression. -/
structure CaseTree (S : Semantics τ) (rules : List (TpRule τ β))
    (branchEnv : List (Nat × BranchData τ β)) (tree : Tree τ) : Prop where
  nodup : (branchEnv.map Prod.fst).Nodup
  body : ∀ entry ∈ branchEnv, ∃ rule ∈ rules, entry.2.body = rule.body
  coded : tree.Coded S.toTypes
  leaf : ∀ branch env, tree.Leaf branch env → ∃ data,
    branchEnv.lookup branch = some data ∧ ∀ arg ∈ data.funArgs, env.Has arg.id

/-- The tree of a typed case expression is made, and every leaf binds the
arguments of its branch. -/
theorem caseTree_ok (hcons : S.TyCons) (isSmall : β → Bool) (firstBranch : Nat)
    (hrules : ∀ rule ∈ rules, rule.Typed S (topVars.map VarInfo.ty))
    (hfresh : ∀ x ∈ topVars, x.id < nextId) :
    ∃ bound, ∀ fuel ≥ bound, ∃ branchEnv tree st,
      caseTree S.toTypes isSmall fuel firstBranch topVars rules nextId =
        .ok (branchEnv, tree, st) ∧ CaseTree S rules branchEnv tree := by
  obtain ⟨patList, branchEnv, rows, hok, hmake, hrows, hbranchEnv, hnodup,
    hbranches, hmatrix⟩ := makeRules_matrix (branchData isSmall) firstBranch
      (fun rule hrule => (hrules rule hrule).args) hfresh
  refine ⟨2 * rowsWeight rows + topVars.length + 1, fun fuel hfuel => ?_⟩
  obtain ⟨tree, st, htree, -, -, -, hcoded⟩ := matchToTree_induct
    (fun _ _ _ _ _ _ hmatrix hnode => Node.coded hcons hmatrix hnode) fuel _ _ _
    _ hmatrix (by simp only [List.length_map]; omega)
  have hcovered := matchToTree_covered fuel _ _ _ _ _ _ hmatrix.fits htree
  refine ⟨branchEnv, tree, st, ?_, hbranches ▸ hnodup, ?_, hcoded, ?_⟩
  · simp [caseTree, hok, hmake, htree, except_ok_bind]
  · intro entry hentry
    rw [hbranchEnv] at hentry
    obtain ⟨i, hi, rfl⟩ := List.mem_iff_getElem.mp hentry
    simp only [List.getElem_zipWith]
    exact ⟨_, List.getElem_mem _, rfl⟩
  · intro branch env hleaf
    obtain ⟨row, hrow, rfl, hbinds⟩ := hcovered branch env hleaf
    obtain ⟨-, rule, -, hdata⟩ := branch_data (branchData isSmall) hrows row hrow
    rw [← hbranchEnv] at hdata
    refine ⟨_, (KeyedList.lookup_eq_some_iff (hbranches ▸ hnodup)).mpr hdata, ?_⟩
    exact fun arg harg => hbinds arg.id
      (Or.inr (KeyedSet.mem_def.mpr ⟨arg, harg, rfl⟩))

/-- The code of a typed case expression fails only where the body of a branch
does. -/
theorem CaseTree.failsOnly {branchEnv : List (Nat × BranchData τ β)}
    {tree : Tree τ} (htree : CaseTree S rules branchEnv tree)
    {ctx : Context τ β ε E} (htypes : ctx.types = S.toTypes)
    (henv : ctx.branchEnv = branchEnv) {p : CaseError ε → Prop}
    (hbody : ∀ entry ∈ branchEnv, ∀ env,
      FailsOnly p (ctx.compileBody env entry.2)) (redundantFlag : Bool) :
    FailsOnly p (ctx.caseExp redundantFlag tree) := by
  subst henv
  have hcatches : FailsOnly p ctx.branchCatches := by
    rw [Context.branchCatches]
    split
    · exact Context.catches_failsOnly hbody
    · exact .ok []
  have hdecs : FailsOnly p ctx.branchDecs := by
    rw [Context.branchDecs]
    split
    · exact .ok []
    · exact Context.funDecs_failsOnly hbody
  refine hcatches.bind fun catches _ => hdecs.bind fun decs hok => ?_
  split
  · exact .ok Code.dummy
  have hleaf : ∀ branch env, tree.Leaf branch env → FailsOnly p (Context.leafExp
      { ctx with funTys := decs.map fun dec => (dec.1, dec.2.1) } branch env) := by
    intro branch env hleaf
    obtain ⟨data, hdata, hargs⟩ := htree.leaf branch env hleaf
    have hmem := (KeyedList.lookup_eq_some_iff htree.nodup).mp hdata
    refine Context.LeafReady.failsOnly
      ⟨hdata, hargs, hbody (branch, data) hmem, fun hlocal hinline => ?_⟩
    rw [Context.branchDecs, if_neg (by simpa using hlocal)] at hok
    exact Context.funDecs_lookup hok htree.nodup hmem hinline
  exact (Context.toExp_failsOnly (htypes ▸ htree.coded) hleaf).bind
    fun _ _ => .ok _

end Case

/-- No internal error: the tree of a typed case expression is made, every
subtree that code generation asks for a path has one, every leaf binds the
arguments of its branch, and the code is made unless the compilation of the
body of a rule fails. -/
theorem compileCase_fails_only_in_bodies (hcons : S.TyCons)
    (rules : List (TpRule τ β)) (topVars : List (VarInfo τ)) (options : Options)
    (compileExp : Env τ → β → Except ε E) (isSmall : β → Bool) (varEnv : Env τ)
    (caseKind : CaseKind) (ruleBodyTy : τ) (firstBranch nextId : Nat)
    (hrules : ∀ rule ∈ rules, rule.Typed S (topVars.map VarInfo.ty))
    (hfresh : ∀ x ∈ topVars, x.id < nextId)
    (hhandle : caseKind = .handleCase → topVars.length = 1) :
    ∃ bound, ∀ fuel ≥ bound, ∃ branchEnv tree st,
      caseTree S.toTypes isSmall fuel firstBranch topVars rules nextId =
        .ok (branchEnv, tree, st) ∧
      tree.Coded S.toTypes ∧
      (∀ branch env, tree.Leaf branch env → ∃ data,
        branchEnv.lookup branch = some data ∧
          ∀ arg ∈ data.funArgs, env.Has arg.id) ∧
      ∀ error, compileCase S.toTypes options compileExp isSmall varEnv caseKind
          ruleBodyTy fuel firstBranch topVars rules nextId = .error error →
        ∃ rule ∈ rules, ∃ env bodyError,
          compileExp env rule.body = .error bodyError ∧
          error = .body bodyError := by
  obtain ⟨bound, hbound⟩ := caseTree_ok hcons isSmall firstBranch hrules hfresh
  refine ⟨bound, fun fuel hfuel => ?_⟩
  obtain ⟨branchEnv, tree, st, hok, htree⟩ := hbound fuel hfuel
  refine ⟨branchEnv, tree, st, hok, htree.coded, htree.leaf, ?_⟩
  obtain ⟨kind, hkind⟩ : ∃ kind, kindOf caseKind topVars = .ok kind := by
    cases caseKind with
    | matchCase => exact ⟨.matchFail, rfl⟩
    | bindCase => exact ⟨.bindFail, rfl⟩
    | handleCase =>
      obtain ⟨v, rfl⟩ := List.length_eq_one_iff.mp (hhandle rfl)
      exact ⟨.handle v, rfl⟩
  have hbody : ∀ entry ∈ branchEnv, ∀ env, FailsOnly
      (fun error => ∃ rule ∈ rules, ∃ env bodyError,
        compileExp env rule.body = .error bodyError ∧ error = .body bodyError)
      (Context.compileBody (⟨S.toTypes, options, compileExp, varEnv, ruleBodyTy,
        kind, branchEnv, st.useCount, []⟩ : Context τ β ε E) env entry.2) := by
    intro entry hentry env error herror
    obtain ⟨rule, hrule, hsame⟩ := htree.body entry hentry
    simp only [Context.compileBody, hsame] at herror
    cases hcompile : compileExp env rule.body with
    | ok exp => simp [hcompile, Except.mapError] at herror
    | error bodyError =>
      refine ⟨rule, hrule, env, bodyError, hcompile, ?_⟩
      simpa [hcompile, Except.mapError] using herror.symm
  simp only [compileCase, hkind, hok, Except.mapError, except_ok_bind]
  exact htree.failsOnly rfl rfl hbody _

theorem intTypes_tyCons : intTypes.TyCons :=
  ⟨nofun, nofun⟩

/-- Where every body compiles, so does the case expression. -/
theorem compileCase_unusedRules_ok : ∃ bound, ∀ fuel ≥ bound, ∃ code,
    compileCase intTypes.toTypes ⟨false, false, true⟩
      (fun _ body => (.ok body : Except Empty String)) (fun _ => false) []
      .matchCase () fuel 0 [subject] unusedRules 2 = .ok code := by
  obtain ⟨bound, hbound⟩ := compileCase_fails_only_in_bodies intTypes_tyCons
    unusedRules [subject] ⟨false, false, true⟩
    (fun _ body => (.ok body : Except Empty String)) (fun _ => false) []
    .matchCase () 0 2 unusedRules_typed (by decide) nofun
  refine ⟨bound, fun fuel hfuel => ?_⟩
  obtain ⟨_, _, _, -, -, -, hfails⟩ := hbound fuel hfuel
  cases hcode : compileCase intTypes.toTypes ⟨false, false, true⟩
      (fun _ body => (.ok body : Except Empty String)) (fun _ => false) []
      .matchCase () fuel 0 [subject] unusedRules 2 with
  | ok code => exact ⟨code, rfl⟩
  | error error =>
    obtain ⟨_, _, _, _, himpossible, -⟩ := hfails error hcode
    cases himpossible

end MatchCompiler

end SmlSharp
