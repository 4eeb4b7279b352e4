/-
The places of a term and of its A-normal form where an exception may be raised,
with the exit that the exception takes.
-/
import Mathlib.Data.List.Forall2
import SmlSharp.ANormalize.Compile

namespace SmlSharp

namespace ANormalize

variable {τ α ℓ : Type}

inductive SiteKind where
  | call
  | foreignApply
  | raise
deriving DecidableEq, Repr

/-- Where an exception goes: to the handler at a location, to the cleanup of the
body, out of the body, or to a label that nothing binds. -/
inductive Exit (ℓ : Type) where
  | handler (loc : ℓ)
  | cleanup
  | none
  | unbound
deriving DecidableEq

structure Site (ℓ : Type) where
  kind : SiteKind
  loc : ℓ
  exit : Exit ℓ
deriving DecidableEq

/-- What is around a term: nothing, the cleanup of its body, or an innermost
handler. -/
inductive Guard (ℓ : Type) where
  | unguarded
  | cleanup
  | handler (loc : ℓ)

/-- The guarded sites that a term evaluates, and whether what follows the term
is evaluated after it. -/
structure Trace (ℓ : Type) where
  sites : List (Site ℓ)
  continues : Bool

def Trace.empty : Trace ℓ := ⟨[], true⟩

def Trace.stop : Trace ℓ := ⟨[], false⟩

def Trace.seq (first second : Trace ℓ) : Trace ℓ :=
  ⟨first.sites ++ if first.continues then second.sites else [],
    first.continues && second.continues⟩

def Guard.site (guard : Guard ℓ) (kind : SiteKind) (loc : ℓ) : Trace ℓ :=
  match guard with
  | .unguarded => .empty
  | .cleanup => ⟨[⟨kind, loc, .cleanup⟩], true⟩
  | .handler handlerLoc => ⟨[⟨kind, loc, .handler handlerLoc⟩], true⟩

/-- A call that is made as a tail call. -/
def Guard.tailSite (guard : Guard ℓ) (loc : ℓ) : Trace ℓ :=
  match guard with
  | .unguarded => .empty
  | _ => ⟨[⟨.call, loc, .none⟩], true⟩

@[simp] theorem Trace.empty_seq (trace : Trace ℓ) : Trace.empty.seq trace = trace := by
  simp [Trace.empty, Trace.seq]

@[simp] theorem Trace.seq_empty (trace : Trace ℓ) : trace.seq .empty = trace := by
  simp [Trace.empty, Trace.seq]

theorem Trace.seq_assoc (first second third : Trace ℓ) :
    (first.seq second).seq third = first.seq (second.seq third) := by
  obtain ⟨sites, continues⟩ := first
  cases continues <;> simp [Trace.seq]

mutual

/-- The sites of a term in the order of the translation.  With `tail` the calls
in tail position are made as tail calls. -/
def trace (guard : Guard ℓ) (tail : Bool) : NCExp τ α ℓ → Trace ℓ
  | .ncForeignApply funExp _ argExpList _ loc =>
    (trace guard false funExp).seq ((traceList guard argExpList).seq
      (guard.site .foreignApply loc))
  | .ncExportCallback codeExp closureEnvExp _ _ _ =>
    (trace guard false codeExp).seq (trace guard false closureEnvExp)
  | .ncConst _ _ _ => .empty
  | .ncIntInf _ _ => .empty
  | .ncVar _ _ => .empty
  | .ncExVar _ _ _ => .empty
  | .ncPack exp _ _ => trace guard false exp
  | .ncUnpack exp _ _ => trace guard false exp
  | .ncDup srcAddr _ valueSize _ => (traceAddress guard srcAddr).seq (trace guard false valueSize)
  | .ncLoad srcAddr _ _ => traceAddress guard srcAddr
  | .ncCopy srcExp dstAddr valueSize _ =>
    (trace guard false srcExp).seq ((traceAddress guard dstAddr).seq
      (trace guard false valueSize))
  | .ncStore srcExp _ dstAddr _ => (trace guard false srcExp).seq (traceAddress guard dstAddr)
  | .ncPrimApply _ argExpList _ _ _ instTagList instSizeList _ =>
    (traceList guard argExpList).seq ((traceList guard instTagList).seq
      (traceList guard instSizeList))
  | .ncCall codeExp closureEnvExp argExpList _ loc =>
    (trace guard false codeExp).seq ((traceOption guard closureEnvExp).seq
      ((traceList guard argExpList).seq
        (if tail then guard.tailSite loc else guard.site .call loc)))
  | .ncLet _ boundExp mainExp _ => (trace guard false boundExp).seq (trace guard tail mainExp)
  | .ncRecord fieldList _ _ _ allocSizeExp bitmaps _ =>
    (traceFieldList guard fieldList).seq ((trace guard false allocSizeExp).seq
      (traceBitmapList guard bitmaps))
  | .ncModify recordExp _ indexExp _ _ _ =>
    (trace guard false recordExp).seq (trace guard false indexExp)
  | .ncRaise argExp _ loc =>
    (trace guard false argExp).seq ((guard.site .raise loc).seq .stop)
  | .ncHandle tryExp _ handlerExp _ loc =>
    ⟨(trace (.handler loc) false tryExp).sites ++ (trace guard tail handlerExp).sites, true⟩
  | .ncSwitch switchExp _ branches defaultExp _ _ =>
    ⟨(trace guard false switchExp).sites ++ (trace guard tail defaultExp).sites ++
      traceBranches guard tail branches, true⟩
  | .ncCatch _ _ catchExp tryExp _ _ =>
    ⟨(trace guard tail tryExp).sites ++ (trace guard tail catchExp).sites, true⟩
  | .ncThrow _ argExpList _ _ => (traceList guard argExpList).seq .stop
  | .ncCast exp _ _ _ _ => trace guard false exp
  | .ncExportVar _ _ valueExp _ => trace guard false valueExp

def traceList (guard : Guard ℓ) : List (NCExp τ α ℓ) → Trace ℓ
  | [] => .empty
  | exp :: exps => (trace guard false exp).seq (traceList guard exps)

def traceOption (guard : Guard ℓ) : Option (NCExp τ α ℓ) → Trace ℓ
  | none => .empty
  | some exp => trace guard false exp

def traceAddress (guard : Guard ℓ) : NCAddress τ α ℓ → Trace ℓ
  | .naPtr ptrExp => trace guard false ptrExp
  | .naRecordField recordExp fieldIndex =>
    (trace guard false recordExp).seq (trace guard false fieldIndex)
  | .naArrayElem arrayExp elemSize elemIndex =>
    (trace guard false arrayExp).seq ((trace guard false elemSize).seq
      (trace guard false elemIndex))

def traceField (guard : Guard ℓ) : NCField τ α ℓ → Trace ℓ
  | .mk _ _ fieldIndex => trace guard false fieldIndex

def traceFieldList (guard : Guard ℓ) : List (NCField τ α ℓ) → Trace ℓ
  | [] => .empty
  | field :: fields => (traceField guard field).seq (traceFieldList guard fields)

def traceBitmap (guard : Guard ℓ) : NCBitmap τ α ℓ → Trace ℓ
  | .mk bitmapIndex bitmapExp => (trace guard false bitmapIndex).seq (trace guard false bitmapExp)

def traceBitmapList (guard : Guard ℓ) : List (NCBitmap τ α ℓ) → Trace ℓ
  | [] => .empty
  | bitmap :: bitmaps => (traceBitmap guard bitmap).seq (traceBitmapList guard bitmaps)

def traceBranch (guard : Guard ℓ) (tail : Bool) : NCBranch τ α ℓ → List (Site ℓ)
  | .mk _ branchExp => (trace guard tail branchExp).sites

/-- The last branch comes first. -/
def traceBranches (guard : Guard ℓ) (tail : Bool) : List (NCBranch τ α ℓ) → List (Site ℓ)
  | [] => []
  | branch :: branches => traceBranches guard tail branches ++ traceBranch guard tail branch

end

mutual

/-- A call in tail position that may be evaluated. -/
def hasTailCall : NCExp τ α ℓ → Bool
  | .ncCall codeExp closureEnvExp argExpList _ _ =>
    ((trace .unguarded false codeExp).seq ((traceOption .unguarded closureEnvExp).seq
      (traceList .unguarded argExpList))).continues
  | .ncLet _ boundExp mainExp _ =>
    (trace .unguarded false boundExp).continues && hasTailCall mainExp
  | .ncHandle _ _ handlerExp _ _ => hasTailCall handlerExp
  | .ncSwitch _ _ branches defaultExp _ _ =>
    hasTailCallBranches branches || hasTailCall defaultExp
  | .ncCatch _ _ catchExp tryExp _ _ => hasTailCall catchExp || hasTailCall tryExp
  | _ => false

def hasTailCallBranch : NCBranch τ α ℓ → Bool
  | .mk _ branchExp => hasTailCall branchExp

def hasTailCallBranches : List (NCBranch τ α ℓ) → Bool
  | [] => false
  | branch :: branches => hasTailCallBranch branch || hasTailCallBranches branches

end

/-! The sites of the translated code. -/

/-- A handler around an instruction: its label, the local code that it jumps to
with the exception, and its location. -/
structure Frame (ℓ : Type) where
  handlerLabel : Nat
  localLabel : Option FunLocalLabel
  loc : ℓ

/-- The body of a function: whether exceptions leave it through a cleanup, and
the label of the cleanup. -/
structure Body where
  guarded : Bool
  cleanupHandler : Option Nat

def gotoLabel : ANExp τ α ℓ → Option FunLocalLabel
  | .anGoto id _ _ => some id
  | _ => none

/-- The exit that a handler label of an instruction stands for. -/
def exitOf (frames : List (Frame ℓ)) (body : Body) : Option Nat → Exit ℓ
  | none => .none
  | some label =>
    match frames.find? fun frame => frame.handlerLabel = label with
    | some frame => .handler frame.loc
    | none => if body.cleanupHandler = some label then .cleanup else .unbound

/-- The instructions without an exit count where there is a handler or a
cleanup around them. -/
def siteOf (frames : List (Frame ℓ)) (body : Body) (kind : SiteKind) (loc : ℓ)
    (handler : Option Nat) : List (Site ℓ) :=
  match handler with
  | none => if frames.isEmpty && !body.guarded then [] else [⟨kind, loc, .none⟩]
  | some label => [⟨kind, loc, exitOf frames body (some label)⟩]

/-- A jump to the local code of a handler raises the exception there. -/
def gotoSite (frames : List (Frame ℓ)) (id : FunLocalLabel) (loc : ℓ) : List (Site ℓ) :=
  match frames.find? fun frame => frame.localLabel = some id with
  | some frame => [⟨.raise, loc, .handler frame.loc⟩]
  | none => []

def codeSites (frames : List (Frame ℓ)) (body : Body) : ANExp τ α ℓ → List (Site ℓ)
  | .anIntInf _ _ nextExp _ => codeSites frames body nextExp
  | .anForeignApply _ _ _ _ handler nextExp loc =>
    siteOf frames body .foreignApply loc handler ++ codeSites frames body nextExp
  | .anExportCallback _ _ _ _ nextExp _ => codeSites frames body nextExp
  | .anExVar _ _ nextExp _ => codeSites frames body nextExp
  | .anPack _ _ _ nextExp _ => codeSites frames body nextExp
  | .anUnpack _ _ nextExp _ => codeSites frames body nextExp
  | .anDup _ _ _ nextExp _ => codeSites frames body nextExp
  | .anLoad _ _ nextExp _ => codeSites frames body nextExp
  | .anPrimApply _ _ _ _ _ _ _ _ nextExp _ => codeSites frames body nextExp
  | .anBitcast _ _ _ _ nextExp _ => codeSites frames body nextExp
  | .anCall _ _ _ _ handler nextExp loc =>
    siteOf frames body .call loc handler ++ codeSites frames body nextExp
  | .anTailCall _ _ _ _ loc => siteOf frames body .call loc none
  | .anRecord _ _ _ _ _ _ nextExp _ => codeSites frames body nextExp
  | .anModify _ _ _ _ _ nextExp _ => codeSites frames body nextExp
  | .anReturn _ _ _ => []
  | .anCopy _ _ _ nextExp _ => codeSites frames body nextExp
  | .anStore _ _ _ nextExp _ => codeSites frames body nextExp
  | .anExportVar _ _ _ nextExp _ => codeSites frames body nextExp
  | .anRaise _ cleanup loc => siteOf frames body .raise loc cleanup
  | .anHandler nextExp id _ handlerExp _ loc =>
    codeSites (⟨id, gotoLabel handlerExp, loc⟩ :: frames) body nextExp ++
      codeSites frames body handlerExp
  | .anSwitch _ _ _ _ _ => []
  | .anLocalCode _ _ _ bodyExp nextExp _ =>
    codeSites frames body nextExp ++ codeSites frames body bodyExp
  | .anGoto id _ loc => gotoSite frames id loc
  | .anUnreachable => []

/-- A handler label is one of a handler around the instruction, or the cleanup
of the body. -/
def LabelBound (frames : List (Frame ℓ)) (body : Body) (handler : Option Nat) : Prop :=
  ∀ label, handler = some label →
    (∃ frame ∈ frames, frame.handlerLabel = label) ∨ body.cleanupHandler = some label

/-- Every handler label that an instruction refers to is bound. -/
def LabelsBound (frames : List (Frame ℓ)) (body : Body) : ANExp τ α ℓ → Prop
  | .anIntInf _ _ nextExp _ => LabelsBound frames body nextExp
  | .anForeignApply _ _ _ _ handler nextExp _ =>
    LabelBound frames body handler ∧ LabelsBound frames body nextExp
  | .anExportCallback _ _ _ _ nextExp _ => LabelsBound frames body nextExp
  | .anExVar _ _ nextExp _ => LabelsBound frames body nextExp
  | .anPack _ _ _ nextExp _ => LabelsBound frames body nextExp
  | .anUnpack _ _ nextExp _ => LabelsBound frames body nextExp
  | .anDup _ _ _ nextExp _ => LabelsBound frames body nextExp
  | .anLoad _ _ nextExp _ => LabelsBound frames body nextExp
  | .anPrimApply _ _ _ _ _ _ _ _ nextExp _ => LabelsBound frames body nextExp
  | .anBitcast _ _ _ _ nextExp _ => LabelsBound frames body nextExp
  | .anCall _ _ _ _ handler nextExp _ =>
    LabelBound frames body handler ∧ LabelsBound frames body nextExp
  | .anTailCall _ _ _ _ _ => True
  | .anRecord _ _ _ _ _ _ nextExp _ => LabelsBound frames body nextExp
  | .anModify _ _ _ _ _ nextExp _ => LabelsBound frames body nextExp
  | .anReturn _ _ _ => True
  | .anCopy _ _ _ nextExp _ => LabelsBound frames body nextExp
  | .anStore _ _ _ nextExp _ => LabelsBound frames body nextExp
  | .anExportVar _ _ _ nextExp _ => LabelsBound frames body nextExp
  | .anRaise _ cleanup _ => LabelBound frames body cleanup
  | .anHandler nextExp id _ handlerExp cleanup loc =>
    LabelBound frames body cleanup ∧
      LabelsBound (⟨id, gotoLabel handlerExp, loc⟩ :: frames) body nextExp ∧
        LabelsBound frames body handlerExp
  | .anSwitch _ _ _ _ _ => True
  | .anLocalCode _ _ _ bodyExp nextExp _ =>
    LabelsBound frames body nextExp ∧ LabelsBound frames body bodyExp
  | .anGoto _ _ _ => True
  | .anUnreachable => True

/-! What survives the translation. -/

/-- The guarded sites of a body are translated one by one to instructions with
the same exits, and the labels of its code are bound. -/
def BodyPreserved (guard : Guard ℓ) (body : Body) (source : NCExp τ α ℓ)
    (code : ANExp τ α ℓ) : Prop :=
  codeSites [] body code = (trace guard false source).sites ∧ LabelsBound [] body code

def TopdecPreserved : NCTopdec τ α ℓ → ANTopdec τ α ℓ → Prop
  | .ntFunction _ _ _ _ source _ _ _, .atFunction _ _ _ _ code _ _ _ =>
    BodyPreserved .unguarded ⟨false, none⟩ source code
  | .ntCallbackFunction _ _ _ _ source _ _ _,
      .atCallbackFunction _ _ _ _ code _ _ cleanupHandler _ =>
      BodyPreserved .cleanup ⟨true, cleanupHandler⟩ source code
  | _, _ => False

def ExitsPreserved (source : NCProgram τ α ℓ) (code : ANProgram τ α ℓ) : Prop :=
  List.Forall₂ TopdecPreserved source.topdecs code.topdecs ∧
    BodyPreserved .cleanup ⟨true, code.topCleanupHandler⟩ source.topExp code.topExp

end ANormalize

end SmlSharp
