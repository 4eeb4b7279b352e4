/-
A-normalisation.  A term is translated to a value and a procedure that puts
the instructions computing the value before a continuation.
-/
import SmlSharp.ANormalize.Syntax

namespace SmlSharp

namespace ANormalize

/-- The types and the location that the translation mentions by itself. -/
class Builtin (τ ℓ : Type) where
  unitTy : τ
  intInfTy : τ
  /-- The type of a packed value of a type, `(#1 ty, R.recordTy)`. -/
  packTy : τ → τ
  noloc : ℓ

/-- The generators of identifiers, and the references of the function that is
being translated. -/
structure State where
  nextVarId : Nat
  usedVarIds : List Nat
  nextLocalLabel : Nat
  nextHandlerLabel : Nat
  loopLabel : Option FunLocalLabel
  cleanupHandler : Option Nat
deriving DecidableEq

abbrev M := StateT State (Except String)

inductive Context (τ : Type) where
  | tail
  | nontail
  | bind (var : VarInfo τ)

inductive Handler where
  | noHandler
  | handler (handlerLabel : Nat) (localLabel : FunLocalLabel)
  | cleanup
deriving DecidableEq

structure Env (τ α : Type) where
  funId : Option Nat
  handler : Handler
  varEnv : Nat → Option (ANValue τ α)

variable {τ α ℓ : Type}

abbrev Proc (τ α ℓ : Type) := ANExp τ α ℓ → M (ANExp τ α ℓ)

/-- A procedure with what is computed beside it.  To run one after the other is
to compose their procedures. -/
structure Code (τ α ℓ β : Type) where
  run : M (Proc τ α ℓ × β)

def emptyProc : Proc τ α ℓ := pure

instance : Monad (Code τ α ℓ) where
  pure value := ⟨pure (emptyProc, value)⟩
  bind code next := ⟨do
    let (proc1, value) ← code.run
    let (proc2, result) ← (next value).run
    return (fun nextExp => proc2 nextExp >>= proc1, result)⟩

instance : MonadLift M (Code τ α ℓ) where
  monadLift action := ⟨do
    let value ← action
    return (emptyProc, value)⟩

def emit (proc : Proc τ α ℓ) : Code τ α ℓ Unit :=
  ⟨pure (proc, ())⟩

def generateVarId : M Nat := do
  let state ← get
  set { state with nextVarId := state.nextVarId + 1 }
  return state.nextVarId

def generateLocalLabel : M FunLocalLabel := do
  let state ← get
  set { state with nextLocalLabel := state.nextLocalLabel + 1 }
  return .generated state.nextLocalLabel

def generateHandlerLabel : M Nat := do
  let state ← get
  set { state with nextHandlerLabel := state.nextHandlerLabel + 1 }
  return state.nextHandlerLabel

def freshVarId (id : Nat) : M Nat := do
  let state ← get
  if id ∈ state.usedVarIds then generateVarId
  else do
    set { state with usedVarIds := id :: state.usedVarIds }
    return id

def newVar (ty : τ) : M (VarInfo τ) := do
  let id ← generateVarId
  return ⟨id, ty⟩

def refreshVar (var : VarInfo τ) : M (VarInfo τ) := do
  let id ← freshVarId var.id
  return ⟨id, var.ty⟩

/-- The constant that a value is, with its type. -/
def toConst : ANValue τ α → Option (NCConst τ α × τ)
  | .anConst const ty => some (const, ty)
  | .anVar _ => none
  | .anBottom => none
  | .anCast exp _ targetTy =>
    match toConst exp with
    | none => none
    | some (const, ty) => some (.nvCast const ty targetTy .typeCast, targetTy)

def getHandlerLabel (env : Env τ α) : M (Option Nat) :=
  match env.handler with
  | .noHandler => return none
  | .handler handlerLabel _ => return some handlerLabel
  | .cleanup => do
      let state ← get
      match state.cleanupHandler with
      | some label => return some label
      | none => do
          let label ← generateHandlerLabel
          modify fun state => { state with cleanupHandler := some label }
          return some label

def getCleanupLabel (env : Env τ α) : M (Option Nat) :=
  match env.handler with
  | .cleanup => getHandlerLabel env
  | _ => return none

def bindVar (env : Env τ α) (var : VarInfo τ) (value : ANValue τ α) : Env τ α :=
  { env with varEnv := fun id => if id = var.id then some value else env.varEnv id }

def addBoundVar (env : Env τ α) (var : VarInfo τ) : M (Env τ α × VarInfo τ) := do
  let var2 ← refreshVar var
  return (bindVar env var (.anVar var2), var2)

def addBoundVars (env : Env τ α) : List (VarInfo τ) → M (Env τ α × List (VarInfo τ))
  | [] => return (env, [])
  | var :: vars => do
      let (env, var) ← addBoundVar env var
      let (env, vars) ← addBoundVars env vars
      return (env, var :: vars)

def addBoundVarOpt (env : Env τ α) : Option (VarInfo τ) → M (Env τ α × Option (VarInfo τ))
  | none => return (env, none)
  | some var => do
      let (env, var) ← addBoundVar env var
      return (env, some var)

def touchLoopLabel : M FunLocalLabel := do
  let state ← get
  match state.loopLabel with
  | some id => return id
  | none => do
      let id ← generateLocalLabel
      modify fun state => { state with loopLabel := some id }
      return id

def isSelfRecTailCall (env : Env τ α) (context : Context τ) (codeExp : ANValue τ α) : Bool :=
  match env.funId, context, codeExp with
  | some funId, .tail, .anConst (.nvFunEntry id) _ => funId = id
  | _, _, _ => false

def last (anexp : ANExp τ α ℓ) : Code τ α ℓ (ANValue τ α) :=
  ⟨pure (fun _ => pure anexp, .anBottom)⟩

/-- `bind`: an instruction with a result. -/
def bindExp (context : Context τ) (expFn : VarInfo τ → Proc τ α ℓ) (expTy : τ) (loc : ℓ) :
    Code τ α ℓ (ANValue τ α) :=
  match context with
  | .bind var => do
      let var ← (refreshVar var : M (VarInfo τ))
      emit (expFn var)
      return .anVar var
  | .nontail => do
      let var ← (newVar expTy : M (VarInfo τ))
      emit (expFn var)
      return .anVar var
  | .tail => do
      let var ← (newVar expTy : M (VarInfo τ))
      emit (expFn var)
      last (.anReturn (.anVar var) expTy loc)

/-- `return`: a value that needs no instruction. -/
def returnValue (context : Context τ) (value : ANValue τ α) (ty : τ) (loc : ℓ) :
    Code τ α ℓ (ANValue τ α) :=
  match context with
  | .bind _ => return value
  | .nontail => return value
  | .tail => last (.anReturn value ty loc)

def compileVarInfo (env : Env τ α) (var : VarInfo τ) : M (ANValue τ α × τ) :=
  match env.varEnv var.id with
  | some value => return (value, var.ty)
  | none => throw "compileVarInfo"

def compileInitField (env : Env τ α) :
    InitField τ α (VarInfo τ) → M (InitField τ α (ANValue τ α))
  | .initConst const ty => return .initValue (.anConst const ty)
  | .initValue var => do
      let (value, _) ← compileVarInfo env var
      return .initValue value
  | .initCopy srcExp fieldSize => do
      let (srcExp, _) ← compileVarInfo env srcExp
      let (fieldSize, _) ← compileVarInfo env fieldSize
      return .initCopy srcExp fieldSize
  | .initIf tagExp tagOfTy ifBoxed ifUnboxed => do
      let (tagExp, _) ← compileVarInfo env tagExp
      let ifBoxed ← compileInitField env ifBoxed
      let ifUnboxed ← compileInitField env ifUnboxed
      return .initIf tagExp tagOfTy ifBoxed ifUnboxed

variable [Builtin τ ℓ]

def unitValue (ℓ : Type) [Builtin τ ℓ] : ANValue τ α :=
  .anConst .nvUnit (Builtin.unitTy ℓ)

def returnUnit (context : Context τ) (loc : ℓ) : Code τ α ℓ (ANValue τ α) :=
  returnValue context (unitValue ℓ) (Builtin.unitTy ℓ) loc

/-- A branch ends in a jump to the code behind it. -/
def compileBranchExp (mergeLabel : FunLocalLabel) (code : Code τ α ℓ (ANValue τ α)) :
    M (ANExp τ α ℓ) := do
  let (proc, ret) ← code.run
  proc (.anGoto mergeLabel [ret] (Builtin.noloc τ))

/-- The variable that the branches of a term bind their results to. -/
def mergeVarOf (context : Context τ) (resultTy : τ) : M (Option (VarInfo τ)) :=
  match context with
  | .tail => return none
  | .nontail => do
      let var ← newVar resultTy
      return some var
  | .bind var => do
      let var ← refreshVar var
      return some var

/-- What follows the branches of a term is a local code that the branches jump
to, or nothing in tail position. -/
def mergeBranches (context : Context τ) (mergeVar : Option (VarInfo τ))
    (mergeLabel : FunLocalLabel) (branches : ANExp τ α ℓ) (resultTy : τ) (loc : ℓ) :
    Code τ α ℓ (ANValue τ α) :=
  match mergeVar with
  | none => last branches
  | some var => do
      emit fun nextExp => return .anLocalCode mergeLabel false [var] nextExp branches loc
      returnValue context (.anVar var) resultTy loc

mutual

def compileExp (env : Env τ α) (context : Context τ) :
    NCExp τ α ℓ → Code τ α ℓ (ANValue τ α)
  | .ncForeignApply funExp attributes argExpList resultTy loc => do
      let funExp ← compileExp env .nontail funExp
      let argExpList ← compileExpList env argExpList
      match resultTy with
      | some retTy =>
        bindExp context (fun var nextExp => do
          let handler ← getHandlerLabel env
          return .anForeignApply (some var) funExp argExpList attributes handler nextExp loc)
          retTy loc
      | none => do
          emit fun nextExp => do
            let handler ← getHandlerLabel env
            return .anForeignApply none funExp argExpList attributes handler nextExp loc
          returnUnit context loc
  | .ncExportCallback codeExp closureEnvExp instTyvars resultTy loc => do
      let codeExp ← compileExp env .nontail codeExp
      let closureEnvExp ← compileExp env .nontail closureEnvExp
      bindExp context (fun var nextExp =>
        return .anExportCallback var codeExp closureEnvExp instTyvars nextExp loc) resultTy loc
  | .ncConst const ty loc => returnValue context (.anConst const ty) ty loc
  | .ncIntInf srcLabel loc =>
    bindExp context (fun var nextExp => return .anIntInf var srcLabel nextExp loc)
      (Builtin.intInfTy ℓ) loc
  | .ncVar varInfo loc => do
      let (value, ty) ← (compileVarInfo env varInfo : M (ANValue τ α × τ))
      returnValue context value ty loc
  | .ncExVar id ty loc =>
    bindExp context (fun var nextExp => return .anExVar var id nextExp loc) ty loc
  | .ncPack exp expTy loc => do
      let exp ← compileExp env .nontail exp
      bindExp context (fun var nextExp => return .anPack var exp expTy nextExp loc)
        (Builtin.packTy ℓ expTy) loc
  | .ncUnpack exp resultTy loc => do
      let exp ← compileExp env .nontail exp
      bindExp context (fun var nextExp => return .anUnpack var exp nextExp loc) resultTy loc
  | .ncDup srcAddr resultTy valueSize loc => do
      let srcAddr ← compileAddress env srcAddr
      let valueSize ← compileExp env .nontail valueSize
      bindExp context (fun var nextExp => return .anDup var srcAddr valueSize nextExp loc)
        resultTy loc
  | .ncLoad srcAddr resultTy loc => do
      let srcAddr ← compileAddress env srcAddr
      bindExp context (fun var nextExp => return .anLoad var srcAddr nextExp loc) resultTy loc
  | .ncCopy srcExp dstAddr valueSize loc => do
      let srcExp ← compileExp env .nontail srcExp
      let dstAddr ← compileAddress env dstAddr
      let valueSize ← compileExp env .nontail valueSize
      emit fun nextExp => return .anCopy srcExp dstAddr valueSize nextExp loc
      returnUnit context loc
  | .ncStore srcExp srcTy dstAddr loc => do
      let srcExp ← compileExp env .nontail srcExp
      let dstAddr ← compileAddress env dstAddr
      emit fun nextExp => return .anStore srcExp srcTy dstAddr nextExp loc
      returnUnit context loc
  | .ncPrimApply primInfo argExpList argTyList resultTy instTyList instTagList instSizeList
      loc => do
      let argExpList ← compileExpList env argExpList
      let instTagList ← compileExpList env instTagList
      let instSizeList ← compileExpList env instSizeList
      bindExp context (fun var nextExp =>
        return .anPrimApply var primInfo argExpList argTyList resultTy instTyList instTagList
          instSizeList nextExp loc) resultTy loc
  | .ncCall codeExp closureEnvExp argExpList resultTy loc => do
      let codeExp ← compileExp env .nontail codeExp
      let closureEnvExp ← compileExpOption env closureEnvExp
      let argExpList ← compileExpList env argExpList
      if isSelfRecTailCall env context codeExp then do
        let id ← (touchLoopLabel : M FunLocalLabel)
        last (.anGoto id argExpList loc)
      else
        match context with
        | .tail => last (.anTailCall resultTy codeExp closureEnvExp argExpList loc)
        | _ =>
          bindExp context (fun var nextExp => do
            let handler ← getHandlerLabel env
            return .anCall var codeExp closureEnvExp argExpList handler nextExp loc)
            resultTy loc
  | .ncLet boundVar boundExp mainExp _ => do
      let value ← compileExp env (.bind boundVar) boundExp
      compileExp (bindVar env boundVar value) context mainExp
  | .ncRecord fieldList recordTy isMutable clearPad allocSizeExp bitmaps loc => do
      let fieldList ← compileFieldList env fieldList
      let allocSizeExp ← compileExp env .nontail allocSizeExp
      let bitmaps ← compileBitmapList env bitmaps
      bindExp context (fun var nextExp =>
        return .anRecord var fieldList isMutable clearPad allocSizeExp bitmaps nextExp loc)
        recordTy loc
  | .ncModify recordExp recordTy indexExp valueExp valueTy loc => do
      let recordExp ← compileExp env .nontail recordExp
      let indexExp ← compileExp env .nontail indexExp
      let valueExp ← (compileInitField env valueExp : M (InitField τ α (ANValue τ α)))
      bindExp context (fun var nextExp =>
        return .anModify var recordExp indexExp valueExp valueTy nextExp loc) recordTy loc
  | .ncCast exp expTy targetTy .bitCast loc => do
      let exp ← compileExp env .nontail exp
      match toConst exp with
      | some (const, ty) =>
        returnValue context (.anConst (.nvCast const ty targetTy .bitCast) targetTy) targetTy
          loc
      | none =>
        bindExp context (fun var nextExp => return .anBitcast var exp expTy targetTy nextExp loc)
          targetTy loc
  | .ncCast exp expTy targetTy .typeCast loc => do
      let exp ← compileExp env .nontail exp
      returnValue context (.anCast exp expTy targetTy) targetTy loc
  | .ncExportVar id ty valueExp loc => do
      let valueExp ← compileExp env .nontail valueExp
      emit fun nextExp => return .anExportVar id ty valueExp nextExp loc
      returnUnit context loc
  | .ncRaise argExp _ loc => do
      let argExp ← compileExp env .nontail argExp
      match env.handler with
      | .handler _ localLabel => last (.anGoto localLabel [argExp] loc)
      | _ => do
          let cleanup ← (getCleanupLabel env : M (Option Nat))
          last (.anRaise argExp cleanup loc)
  | .ncHandle tryExp exnVar handlerExp resultTy loc => ⟨do
      let resultVar ← newVar resultTy
      let mergeLabel ← generateLocalLabel
      let handlerLabel ← generateHandlerLabel
      let localHandlerLabel ← generateLocalLabel
      let tryEnv := { env with handler := .handler handlerLabel localHandlerLabel }
      let tryExp ← compileBranchExp mergeLabel (compileExp tryEnv .nontail tryExp)
      let (env2, exnVar) ← addBoundVar env exnVar
      let handlerExp ← compileBranchExp mergeLabel (compileExp env2 context handlerExp)
      Code.run do
        emit fun nextExp => do
          let cleanup ← getCleanupLabel env
          return .anLocalCode mergeLabel false [resultVar] nextExp
            (.anLocalCode localHandlerLabel false [exnVar] handlerExp
              (.anHandler tryExp handlerLabel exnVar
                (.anGoto localHandlerLabel [.anVar exnVar] loc) cleanup loc) loc) loc
        returnValue context (.anVar resultVar) resultTy loc⟩
  | .ncSwitch switchExp expTy branches defaultExp resultTy loc => ⟨do
      let (proc1, switchExp) ← (compileExp env .nontail switchExp).run
      let mergeVar ← mergeVarOf context resultTy
      let mergeLabel ← generateLocalLabel
      let branches ← compileBranches env context mergeLabel branches
      let defaultLabel ← generateLocalLabel
      let defaultExp ← compileBranchExp mergeLabel (compileExp env context defaultExp)
      let switch ← proc1 (.anSwitch switchExp expTy
        (branches.map fun branch => (branch.1, branch.2.1)) defaultLabel loc)
      let switchProc := ((defaultLabel, defaultExp) :: (branches.map Prod.snd).reverse).foldl
        (fun nextExp branch => .anLocalCode branch.1 false [] branch.2 nextExp loc) switch
      (mergeBranches context mergeVar mergeLabel switchProc resultTy loc).run⟩
  | .ncCatch catchLabel argVarList catchExp tryExp resultTy loc => ⟨do
      let mergeVar ← mergeVarOf context resultTy
      let mergeLabel ← generateLocalLabel
      let (env2, argVarList) ← addBoundVars env argVarList
      let codeBodyExp ← compileBranchExp mergeLabel (compileExp env2 context catchExp)
      let mainExp ← compileBranchExp mergeLabel (compileExp env context tryExp)
      let localCodeExp :=
        .anLocalCode (.source catchLabel) false argVarList codeBodyExp mainExp loc
      (mergeBranches context mergeVar mergeLabel localCodeExp resultTy loc).run⟩
  | .ncThrow catchLabel argExpList _ loc => do
      let argExpList ← compileExpList env argExpList
      last (.anGoto (.source catchLabel) argExpList loc)

def compileExpList (env : Env τ α) :
    List (NCExp τ α ℓ) → Code τ α ℓ (List (ANValue τ α))
  | [] => return []
  | exp :: exps => do
      let value ← compileExp env .nontail exp
      let values ← compileExpList env exps
      return value :: values

def compileExpOption (env : Env τ α) :
    Option (NCExp τ α ℓ) → Code τ α ℓ (Option (ANValue τ α))
  | none => return none
  | some exp => do
      let value ← compileExp env .nontail exp
      return some value

def compileAddress (env : Env τ α) : NCAddress τ α ℓ → Code τ α ℓ (ANAddress τ α)
  | .naPtr ptrExp => do
      let ptrExp ← compileExp env .nontail ptrExp
      return .aaPtr ptrExp
  | .naRecordField recordExp fieldIndex => do
      let recordExp ← compileExp env .nontail recordExp
      let fieldIndex ← compileExp env .nontail fieldIndex
      return .aaRecordField recordExp fieldIndex
  | .naArrayElem arrayExp elemSize elemIndex => do
      let arrayExp ← compileExp env .nontail arrayExp
      let elemSize ← compileExp env .nontail elemSize
      let elemIndex ← compileExp env .nontail elemIndex
      return .aaArrayElem arrayExp elemSize elemIndex

def compileField (env : Env τ α) : NCField τ α ℓ → Code τ α ℓ (ANField τ α)
  | .mk fieldExp fieldTy fieldIndex => do
      let fieldExp ← (compileInitField env fieldExp : M (InitField τ α (ANValue τ α)))
      let fieldIndex ← compileExp env .nontail fieldIndex
      return ⟨fieldExp, fieldTy, fieldIndex⟩

def compileFieldList (env : Env τ α) :
    List (NCField τ α ℓ) → Code τ α ℓ (List (ANField τ α))
  | [] => return []
  | field :: fields => do
      let field ← compileField env field
      let fields ← compileFieldList env fields
      return field :: fields

def compileBitmap (env : Env τ α) : NCBitmap τ α ℓ → Code τ α ℓ (ANBitmap τ α)
  | .mk bitmapIndex bitmapExp => do
      let bitmapIndex ← compileExp env .nontail bitmapIndex
      let bitmapExp ← compileExp env .nontail bitmapExp
      return ⟨bitmapIndex, bitmapExp⟩

def compileBitmapList (env : Env τ α) :
    List (NCBitmap τ α ℓ) → Code τ α ℓ (List (ANBitmap τ α))
  | [] => return []
  | bitmap :: bitmaps => do
      let bitmap ← compileBitmap env bitmap
      let bitmaps ← compileBitmapList env bitmaps
      return bitmap :: bitmaps

def compileBranch (env : Env τ α) (context : Context τ) (mergeLabel : FunLocalLabel) :
    NCBranch τ α ℓ → M (NCConst τ α × FunLocalLabel × ANExp τ α ℓ)
  | .mk constant branchExp => do
      let label ← generateLocalLabel
      let branchExp ← compileBranchExp mergeLabel (compileExp env context branchExp)
      return (constant, label, branchExp)

def compileBranches (env : Env τ α) (context : Context τ) (mergeLabel : FunLocalLabel) :
    List (NCBranch τ α ℓ) → M (List (NCConst τ α × FunLocalLabel × ANExp τ α ℓ))
  | [] => return []
  | branch :: branches => do
      let branch ← compileBranch env context mergeLabel branch
      let branches ← compileBranches env context mergeLabel branches
      return branch :: branches

end

/-- The body of a function, with the references of the function made anew. -/
def compileFunBody (funId : Option Nat) (closureEnvVar : Option (VarInfo τ))
    (argVarList : List (VarInfo τ)) (bodyExp : NCExp τ α ℓ) (handler : Handler) (loc : ℓ) :
    M (Option (VarInfo τ) × List (VarInfo τ) × ANExp τ α ℓ) := do
  modify fun state => { state with loopLabel := none, cleanupHandler := none }
  let env : Env τ α := ⟨funId, handler, fun _ => none⟩
  let (env, closureEnvVar) ← addBoundVarOpt env closureEnvVar
  let (env, argVarList) ← addBoundVars env argVarList
  let (proc, _) ← (compileExp env .tail bodyExp).run
  let bodyExp ← proc .anUnreachable
  let state ← get
  match state.loopLabel with
  | none => return (closureEnvVar, argVarList, bodyExp)
  | some label =>
    return (closureEnvVar, argVarList,
      .anLocalCode label true argVarList bodyExp
        (.anGoto label (argVarList.map .anVar) loc) loc)

def compileTopdec : NCTopdec τ α ℓ → M (ANTopdec τ α ℓ)
  | .ntFunction id tyvarKindEnv argVarList closureEnvVar bodyExp retTy gcCheck loc => do
      let (closureEnvVar, argVarList, bodyExp) ←
        compileFunBody (some id) closureEnvVar argVarList bodyExp .noHandler loc
      return .atFunction id tyvarKindEnv argVarList closureEnvVar bodyExp retTy gcCheck loc
  | .ntCallbackFunction id tyvarKindEnv argVarList closureEnvVar bodyExp attributes retTy
      loc => do
      let (closureEnvVar, argVarList, bodyExp) ←
        compileFunBody none closureEnvVar argVarList bodyExp .cleanup loc
      let state ← get
      return .atCallbackFunction id tyvarKindEnv argVarList closureEnvVar bodyExp attributes
        retTy state.cleanupHandler loc

def compileTopdecs : List (NCTopdec τ α ℓ) → M (List (ANTopdec τ α ℓ))
  | [] => return []
  | topdec :: topdecs => do
      let topdec ← compileTopdec topdec
      let topdecs ← compileTopdecs topdecs
      return topdec :: topdecs

/-- The assertion on the result of the top-level term. -/
def assertTopExp (loopLabel : Option FunLocalLabel) (ret : ANValue τ α) : M Unit :=
  match loopLabel, ret with
  | none, .anConst .nvUnit _ => return ()
  | _, _ => throw "compile: assertion failed"

def compile (program : NCProgram τ α ℓ) : M (ANProgram τ α ℓ) := do
  modify fun state => { state with usedVarIds := [] }
  let topdecs ← compileTopdecs program.topdecs
  modify fun state => { state with loopLabel := none, cleanupHandler := none }
  let topEnv : Env τ α := ⟨none, .cleanup, fun _ => none⟩
  let (proc, ret) ← (compileExp topEnv .nontail program.topExp).run
  let state ← get
  assertTopExp state.loopLabel ret
  let topExp ← proc (.anReturn ret (Builtin.unitTy ℓ) (Builtin.noloc τ))
  let state ← get
  return ⟨program.topdata, topdecs, topExp, state.cleanupHandler⟩

end ANormalize

end SmlSharp
