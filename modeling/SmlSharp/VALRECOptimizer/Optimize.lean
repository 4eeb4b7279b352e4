/-
The optimizer, which splits the groups of recursive declarations.
-/
import SmlSharp.Graph.Components
import SmlSharp.VALRECOptimizer.FreeIds

namespace SmlSharp

namespace VALRECOptimizer

variable {τ δ : Type}

/-! ### Groups -/

/-- `recNodeinfo` and `funNodeinfo`. -/
structure NodeInfo (δ : Type) where
  functionId : Nat
  dependentIds : Finset Nat
  functionDecl : δ

def addNodes (infos : List (NodeInfo δ)) : Graph (NodeInfo δ) :=
  infos.foldl (fun g info => (g.addNode info).1) Graph.empty

def addEdges (nodeList : List (Int × NodeInfo δ)) (g : Graph (NodeInfo δ)) :
    Graph (NodeInfo δ) :=
  nodeList.foldl (fun g (nid1, info1) =>
    nodeList.foldl (fun g (nid2, info2) =>
      if info2.functionId ∈ info1.dependentIds then g.addEdge nid1 nid2 else g) g) g

def getInfo (g : Graph (NodeInfo δ)) (nid : Int) : Except GraphExn (NodeInfo δ) :=
  match g.getNodeInfo nid with
  | none => .error (.bug "val rec")
  | some info => .ok info

/-- The declaration of a component. -/
def emit (recursive : List δ → Decl Unit τ) (single : δ → Decl Unit τ)
    (g : Graph (NodeInfo δ)) : List Int → Except GraphExn (Decl Unit τ)
  | [] => .error (.bug "recval")
  | [nid] => do
      let info ← getInfo g nid
      if info.functionId ∈ info.dependentIds then return recursive [info.functionDecl]
      else return single info.functionDecl
  | nidList => do
      let infos ← nidList.mapM (getInfo g)
      return recursive (infos.map NodeInfo.functionDecl)

def splitGroup (recursive : List δ → Decl Unit τ) (single : δ → Decl Unit τ)
    (infos : List (NodeInfo δ)) : Except GraphExn (List (Decl Unit τ)) := do
  let g := addNodes infos
  let g := addEdges g.listNodes g
  let scc ← g.scc
  (scc.reverse.map List.reverse).mapM (emit recursive single g)

def typedPat (tyList : List τ) (pat : Pat τ) : Pat τ :=
  tyList.foldr (fun ty pat => .typed pat ty) pat

/-- `ICVAL` with the variable as its pattern. -/
def nonrecVal (recbind : RecBind Unit τ) : Decl Unit τ :=
  .val [.valbind (typedPat recbind.tyList (.varTrans recbind.id)) recbind.body]

/-! ### Unchanged declarations -/

mutual

def copyExp : Exp Empty τ → Exp Unit τ
  | .atom form => .atom form
  | .var id => .var id
  | .typed exp => .typed (copyExp exp)
  | .interfaceTyped exp => .interfaceTyped (copyExp exp)
  | .appm funExp argExpList => .appm (copyExp funExp) (copyExps argExpList)
  | .appmNounify funExp argExpList => .appmNounify (copyExp funExp) (copyExps argExpList)
  | .letExp localDeclList mainExp => .letExp (copyDecls localDeclList) (copyExp mainExp)
  | .tycast exp => .tycast (copyExp exp)
  | .record elementList => .record (copyExps elementList)
  | .raiseExp exp => .raiseExp (copyExp exp)
  | .handle handler matchList => .handle (copyExp handler) (copyRules matchList)
  | .fnm matchList => .fnm (copyRules matchList)
  | .fnm1 vars exp => .fnm1 vars (copyExp exp)
  | .fnm1Poly vars exp => .fnm1Poly vars (copyExp exp)
  | .casem selectorList matchList => .casem (copyExps selectorList) (copyRules matchList)
  | .dynamicCase selector matchList => .dynamicCase (copyExp selector) (copyRules matchList)
  | .recordUpdate exp elementList => .recordUpdate (copyExp exp) (copyExps elementList)
  | .recordUpdate2 exp1 exp2 => .recordUpdate2 (copyExp exp1) (copyExp exp2)
  | .select exp => .select (copyExp exp)
  | .seq expList => .seq (copyExps expList)
  | .ffiImport ffiFun => .ffiImport (copyExp ffiFun)
  | .sqlSchema tyFnExp => .sqlSchema (copyExp tyFnExp)
  | .join exp1 exp2 => .join (copyExp exp1) (copyExp exp2)
  | .dynamic exp => .dynamic (copyExp exp)
  | .dynamicIs exp => .dynamicIs (copyExp exp)
  | .dynamicView exp => .dynamicView (copyExp exp)

def copyExps : List (Exp Empty τ) → List (Exp Unit τ)
  | [] => []
  | exp :: expList => copyExp exp :: copyExps expList

def copyRules : List (Rule Empty τ) → List (Rule Unit τ)
  | [] => []
  | .rule args body :: rules => .rule args (copyExp body) :: copyRules rules

def copyFunbinds : List (FunBind Empty τ) → List (FunBind Unit τ)
  | [] => []
  | .funbind funVarInfo rules :: funbinds =>
    .funbind funVarInfo (copyRules rules) :: copyFunbinds funbinds

def copyRecbinds : List (RecBind Empty τ) → List (RecBind Unit τ)
  | [] => []
  | .recbind varInfo tyList body :: recbinds =>
    .recbind varInfo tyList (copyExp body) :: copyRecbinds recbinds

def copyValbinds : List (ValBind Empty τ) → List (ValBind Unit τ)
  | [] => []
  | .valbind pat exp :: valbinds => .valbind pat (copyExp exp) :: copyValbinds valbinds

def copyDecl : Decl Empty τ → Decl Unit τ
  | .val declList => .val (copyValbinds declList)
  | .valOpaqueSig var exp => .valOpaqueSig var (copyExp exp)
  | .valTransSig var exp => .valTransSig var (copyExp exp)
  | .decfun funbinds => .decfun (copyFunbinds funbinds)
  | .valrec recbinds => .valrec (copyRecbinds recbinds)
  | .valpolyrec polyrecbinds => .valpolyrec (copyRecbinds polyrecbinds)
  | .exntagD varInfo => .exntagD varInfo
  | .tycastDecl declList => .tycastDecl (copyDecls declList)
  | .atom form => .atom form

def copyDecls : List (Decl Empty τ) → List (Decl Unit τ)
  | [] => []
  | decl :: declList => copyDecl decl :: copyDecls declList

end

/-! ### The optimizer -/

mutual

def optimizeExp : Exp Empty τ → Except GraphExn (Exp Unit τ)
  | .atom form => return .atom form
  | .var id => return .var id
  | .typed exp => return .typed (← optimizeExp exp)
  | .interfaceTyped exp => return .interfaceTyped (← optimizeExp exp)
  | .appm funExp argExpList => return .appm (← optimizeExp funExp) (← optimizeExps argExpList)
  | .appmNounify funExp argExpList =>
    return .appmNounify (← optimizeExp funExp) (← optimizeExps argExpList)
  | .letExp localDeclList mainExp =>
    return .letExp (← optimizeDeclList localDeclList) (← optimizeExp mainExp)
  | .tycast exp => return .tycast (← optimizeExp exp)
  | .record elementList => return .record (← optimizeExps elementList)
  | .raiseExp exp => return .raiseExp (← optimizeExp exp)
  | .handle handler matchList =>
    return .handle (← optimizeExp handler) (← optimizeRule matchList)
  | .fnm matchList => return .fnm (← optimizeRule matchList)
  | .fnm1 vars exp => return .fnm1 vars (← optimizeExp exp)
  | .fnm1Poly vars exp => return .fnm1Poly vars (← optimizeExp exp)
  | .casem selectorList matchList =>
    return .casem (← optimizeExps selectorList) (← optimizeRule matchList)
  | .dynamicCase selector matchList =>
    return .dynamicCase (← optimizeExp selector) (← optimizeRule matchList)
  | .recordUpdate exp elementList =>
    return .recordUpdate (← optimizeExp exp) (← optimizeExps elementList)
  | .recordUpdate2 exp1 exp2 => return .recordUpdate2 (← optimizeExp exp1) (← optimizeExp exp2)
  | .select exp => return .select (← optimizeExp exp)
  | .seq expList => return .seq (← optimizeExps expList)
  | .ffiImport ffiFun => return .ffiImport (← optimizeExp ffiFun)
  | .sqlSchema tyFnExp => return .sqlSchema (← optimizeExp tyFnExp)
  | .join exp1 exp2 => return .join (← optimizeExp exp1) (← optimizeExp exp2)
  | .dynamic exp => return .dynamic (← optimizeExp exp)
  | .dynamicIs exp => return .dynamicIs (← optimizeExp exp)
  | .dynamicView exp => return .dynamicView (← optimizeExp exp)
termination_by structural x => x

def optimizeExps : List (Exp Empty τ) → Except GraphExn (List (Exp Unit τ))
  | [] => return []
  | exp :: expList => return (← optimizeExp exp) :: (← optimizeExps expList)
termination_by structural x => x

def optimizeRule : List (Rule Empty τ) → Except GraphExn (List (Rule Unit τ))
  | [] => return []
  | .rule args body :: rules => return .rule args (← optimizeExp body) :: (← optimizeRule rules)
termination_by structural x => x

def funNodes : List (FunBind Empty τ) → Except GraphExn (List (NodeInfo (FunBind Unit τ)))
  | [] => return []
  | .funbind funVarInfo rules :: funbinds => do
      let optimized ← optimizeRule rules
      return ⟨funVarInfo, getFreeIdsInRule rules, .funbind funVarInfo optimized⟩ ::
        (← funNodes funbinds)
termination_by structural x => x

def recNodes : List (RecBind Empty τ) → Except GraphExn (List (NodeInfo (RecBind Unit τ)))
  | [] => return []
  | .recbind varInfo tyList body :: recbinds => do
      let optimized ← optimizeExp body
      return ⟨varInfo, getFreeIdsInExp body, .recbind varInfo tyList optimized⟩ ::
        (← recNodes recbinds)
termination_by structural x => x

def optimizePolyrecbinds : List (RecBind Empty τ) → Except GraphExn (List (RecBind Unit τ))
  | [] => return []
  | .recbind varInfo tyList body :: recbinds =>
    return .recbind varInfo tyList (← optimizeExp body) :: (← optimizePolyrecbinds recbinds)
termination_by structural x => x

def optimizeValbinds : List (ValBind Empty τ) → Except GraphExn (List (ValBind Unit τ))
  | [] => return []
  | .valbind pat exp :: valbinds =>
    return .valbind pat (← optimizeExp exp) :: (← optimizeValbinds valbinds)
termination_by structural x => x

def optimizeDecl : Decl Empty τ → Except GraphExn (List (Decl Unit τ))
  | .val declList => return [.val (← optimizeValbinds declList)]
  | .valOpaqueSig var exp => return [.valOpaqueSig var (← optimizeExp exp)]
  | .valTransSig var exp => return [.valTransSig var (← optimizeExp exp)]
  | .decfun funbinds => do
      let infos ← funNodes funbinds
      splitGroup .decfun (.nonrecfun ()) infos
  | .valrec recbinds => do
      let infos ← recNodes recbinds
      splitGroup .valrec nonrecVal infos
  | .valpolyrec polyrecbinds => return [.valpolyrec (← optimizePolyrecbinds polyrecbinds)]
  | .exntagD varInfo => return [.exntagD varInfo]
  | .tycastDecl declList => return [.tycastDecl (copyDecls declList)]
  | .atom form => return [.atom form]
termination_by structural x => x

def optimizeDeclList : List (Decl Empty τ) → Except GraphExn (List (Decl Unit τ))
  | [] => return []
  | decl :: declList => return (← optimizeDecl decl) ++ (← optimizeDeclList declList)
termination_by structural x => x

end

end VALRECOptimizer

end SmlSharp
