/-
Insertion of checks for a collection requested by another thread: at recursive
local code, and at the entry of a function that calls.
-/
import SmlSharp.ConcurrencySupport.MachineCode
import SmlSharp.Lib.Except

namespace SmlSharp

namespace ConcurrencySupport

open MachineCode

variable {δ : Type}

/-- `MCCHECK` in front of an expression. -/
def addCheck (handler : Option HandlerLabel) (exp : Mcexp δ) : Mcexp δ :=
  .mk (.mccheck handler :: exp.mids) exp.last

mutual

/-- Insert a check at every recursive label. -/
def insertCheckAtLoop (handler : Option HandlerLabel) : Mcexp δ → Mcexp δ
  | .mk mids last => .mk mids (insertCheckAtLast handler last)

def insertCheckAtLast (handler : Option HandlerLabel) : McexpLast δ → McexpLast δ
  | .mcreturn args => .mcreturn args
  | .mcraise args cleanup => .mcraise args cleanup
  | .mcunreachable => .mcunreachable
  | .mcgoto id args => .mcgoto id args
  | .mcswitch args branches default => .mcswitch args branches default
  | .mchandler nextExp id args handlerExp cleanup =>
    .mchandler (insertCheckAtLoop handler nextExp) id args
      (insertCheckAtLoop handler handlerExp) cleanup
  | .mclocalcode id recursive args bodyExp nextExp =>
    .mclocalcode id recursive args
      (if recursive then addCheck handler (insertCheckAtLoop handler bodyExp)
        else insertCheckAtLoop handler bodyExp)
      (insertCheckAtLoop handler nextExp)

end

/-- A failed assertion of the compiler. -/
inductive Bug where
  | bug (message : String)
deriving DecidableEq, Repr

theorem blocks_weight_lt {blocks : Scope δ} {id : FunLocalLabel} {target : Point δ}
    {mids : List (McexpMid δ)} {args : δ}
    (hfind : findLabel blocks id = some (false, target)) :
    target.weight < (Point.mk blocks (.mk mids (.mcgoto id args))).weight := by
  have hle := findLabel_weight hfind
  simp only [Point.weight, Mcexp.weight, McexpLast.weight] at hle ⊢
  omega

/-- Whether the straight line of jumps from an expression comes to a recursive
label.  The map of the blocks in scope is the list of their frames. -/
def reachableToLoop (blocks : Scope δ) : Mcexp δ → Except Bug Bool
  | .mk _ (.mcreturn _) => .ok false
  | .mk _ (.mcraise _ _) => .ok false
  | .mk _ .mcunreachable => .ok false
  | .mk _ (.mcgoto id _) =>
    match _hfind : findLabel blocks id with
    | none => .error (.bug "reachableToLoop")
    | some (true, _) => .ok true
    | some (false, target) => reachableToLoop target.scope target.exp
  | .mk _ (.mcswitch _ _ _) => .ok false
  | .mk _ (.mchandler nextExp _ _ _ _) => reachableToLoop blocks nextExp
  | .mk _ (.mclocalcode id recursive _ bodyExp nextExp) =>
    reachableToLoop (.localcode id recursive bodyExp :: blocks) nextExp
termination_by exp => (Point.mk blocks exp).weight
decreasing_by
  · exact blocks_weight_lt _hfind
  · simp only [Point.weight, Mcexp.weight, McexpLast.weight]
    omega
  · simp only [Point.weight, Mcexp.weight, McexpLast.weight, List.map_cons, List.sum_cons,
      Frame.weight]
    omega

theorem reachableToLoop_goto (blocks : Scope δ) (mids : List (McexpMid δ))
    (id : FunLocalLabel) (args : δ) :
    reachableToLoop blocks (.mk mids (.mcgoto id args)) =
      match findLabel blocks id with
      | none => .error (.bug "reachableToLoop")
      | some (true, _) => .ok true
      | some (false, target) => reachableToLoop target.scope target.exp := by
  rw [reachableToLoop]
  split <;> rename_i heq <;> rw [heq]

def hasCallMid : McexpMid δ → Bool
  | .mcintinf _ => false
  | .mcforeignapply _ _ => true
  | .mcexportcallback _ => false
  | .mcexvar _ => false
  | .mcmemcpyField _ => false
  | .mcmemmoveUnboxedArray _ => false
  | .mcmemmoveBoxedArray _ => false
  | .mcalloc _ => false
  | .mcallocCompleted => false
  | .mccheck _ => false
  | .mcrecorddupAlloc _ => false
  | .mcrecorddupCopy _ => false
  | .mcbzero _ => false
  | .mcsaveslot _ => false
  | .mcloadslot _ => false
  | .mcload _ => false
  | .mcprimapply _ => false
  | .mcbitcast _ => false
  | .mccall _ _ => true
  | .mcstore _ => false
  | .mcexportvar _ => false
  | .mckeepalive _ => false

mutual

def hasCallLast : McexpLast δ → Bool
  | .mcreturn _ => false
  | .mcraise _ _ => false
  | .mcunreachable => false
  | .mcgoto _ _ => false
  | .mcswitch _ _ _ => false
  | .mchandler nextExp _ _ handlerExp _ => hasCall nextExp || hasCall handlerExp
  | .mclocalcode _ _ _ bodyExp nextExp => hasCall nextExp || hasCall bodyExp

def hasCall : Mcexp δ → Bool
  | .mk mids last => mids.any hasCallMid || hasCallLast last

end

/-- The check at the entry is added to the body without the checks at loops. -/
def compileBody (handler : Option HandlerLabel) (body : Mcexp δ) :
    Except Bug (Mcexp δ) := do
  let exp := insertCheckAtLoop handler body
  if ← reachableToLoop [] exp then return exp
  else if hasCall exp then return addCheck handler body
  else return exp

inductive Topdec (δ : Type) where
  | mtfunction (args : δ) (bodyExp : Mcexp δ) (gcCheck : Bool)
  | mtcallbackfunction (args : δ) (bodyExp : Mcexp δ)
      (cleanupHandler : Option HandlerLabel)

structure Toplevel (δ : Type) where
  frameSlots : δ
  bodyExp : Mcexp δ
  cleanupHandler : Option HandlerLabel

structure Program (δ : Type) where
  topdata : δ
  topdecs : List (Topdec δ)
  toplevel : Toplevel δ

def compileTopdec : Topdec δ → Except Bug (Topdec δ)
  | .mtfunction args bodyExp gcCheck => do
      return .mtfunction args (← if gcCheck then compileBody none bodyExp else .ok bodyExp)
        false
  | .mtcallbackfunction args bodyExp cleanupHandler => do
      return .mtcallbackfunction args (← compileBody cleanupHandler bodyExp) cleanupHandler

def compileToplevel (toplevel : Toplevel δ) : Except Bug (Toplevel δ) := do
  return ⟨toplevel.frameSlots, ← compileBody toplevel.cleanupHandler toplevel.bodyExp,
    toplevel.cleanupHandler⟩

def insertCheckGC (program : Program δ) : Except Bug (Program δ) := do
  return ⟨program.topdata, ← program.topdecs.mapM compileTopdec,
    ← compileToplevel program.toplevel⟩

end ConcurrencySupport

end SmlSharp
