/-
Machine code as far as its flow of control goes: straight-line instructions, the
terminators that end them, and the places a function can be at.  What else the
instructions carry is a parameter.
-/
import Mathlib.Algebra.Ring.Nat
import Mathlib.Data.Nat.Basic
import Mathlib.Logic.Relation

namespace SmlSharp

namespace MachineCode

abbrev FunLocalLabel := Nat

abbrev HandlerLabel := Nat

variable {δ : Type}

inductive McexpMid (δ : Type) where
  | mcintinf (args : δ)
  | mcforeignapply (args : δ) (handler : Option HandlerLabel)
  | mcexportcallback (args : δ)
  | mcexvar (args : δ)
  | mcmemcpyField (args : δ)
  | mcmemmoveUnboxedArray (args : δ)
  | mcmemmoveBoxedArray (args : δ)
  | mcalloc (args : δ)
  | mcallocCompleted
  | mccheck (handler : Option HandlerLabel)
  | mcrecorddupAlloc (args : δ)
  | mcrecorddupCopy (args : δ)
  | mcbzero (args : δ)
  | mcsaveslot (args : δ)
  | mcloadslot (args : δ)
  | mcload (args : δ)
  | mcprimapply (args : δ)
  | mcbitcast (args : δ)
  | mccall (args : δ) (handler : Option HandlerLabel)
  | mcstore (args : δ)
  | mcexportvar (args : δ)
  | mckeepalive (args : δ)
deriving DecidableEq, Repr

/-- Where the instruction goes when an exception passes it. -/
def McexpMid.handler : McexpMid δ → Option HandlerLabel
  | .mcforeignapply _ handler => handler
  | .mccheck handler => handler
  | .mccall _ handler => handler
  | _ => none

mutual

inductive Mcexp (δ : Type) where
  | mk (mids : List (McexpMid δ)) (last : McexpLast δ)

inductive McexpLast (δ : Type) where
  | mcreturn (args : δ)
  | mcraise (args : δ) (cleanup : Option HandlerLabel)
  | mchandler (nextExp : Mcexp δ) (id : HandlerLabel) (args : δ)
      (handlerExp : Mcexp δ) (cleanup : Option HandlerLabel)
  | mcswitch (args : δ) (branches : List (δ × FunLocalLabel)) (default : FunLocalLabel)
  | mclocalcode (id : FunLocalLabel) (recursive : Bool) (args : δ)
      (bodyExp nextExp : Mcexp δ)
  | mcgoto (id : FunLocalLabel) (args : δ)
  | mcunreachable

end

def Mcexp.mids : Mcexp δ → List (McexpMid δ)
  | .mk mids _ => mids

def Mcexp.last : Mcexp δ → McexpLast δ
  | .mk _ last => last

/-- What a label in scope is bound to. -/
inductive Frame (δ : Type) where
  | localcode (id : FunLocalLabel) (recursive : Bool) (bodyExp : Mcexp δ)
  | handler (id : HandlerLabel) (cleanup : Option HandlerLabel) (handlerExp : Mcexp δ)

/-- The frames in scope, the innermost first.  The frames behind one are those
in scope at its definition. -/
abbrev Scope (δ : Type) := List (Frame δ)

/-- A place in a function: what is left to do, in its scope. -/
structure Point (δ : Type) where
  scope : Scope δ
  exp : Mcexp δ

/-- The place that a local label stands for, and whether it is recursive.  A
recursive local code is in the scope of its own label. -/
def findLabel : Scope δ → FunLocalLabel → Option (Bool × Point δ)
  | [], _ => none
  | .localcode id recursive bodyExp :: scope, label =>
    if id = label then
      some (recursive,
        ⟨if recursive then .localcode id recursive bodyExp :: scope else scope, bodyExp⟩)
    else findLabel scope label
  | .handler _ _ _ :: scope, label => findLabel scope label

/-- The places at which an exception that goes to a handler label is caught.
An exception that is not one of the language goes on to the cleanup label. -/
inductive Caught : Scope δ → HandlerLabel → Point δ → Prop
  | here {scope : Scope δ} {label : HandlerLabel} {cleanup : Option HandlerLabel}
      {handlerExp : Mcexp δ} :
      Caught (.handler label cleanup handlerExp :: scope) label ⟨scope, handlerExp⟩
  | cleanup {scope : Scope δ} {label outer : HandlerLabel} {handlerExp : Mcexp δ}
      {target : Point δ} (hcaught : Caught scope outer target) :
      Caught (.handler label (some outer) handlerExp :: scope) label target
  | outer {scope : Scope δ} {label id : HandlerLabel} {cleanup : Option HandlerLabel}
      {handlerExp : Mcexp δ} {target : Point δ} (hne : id ≠ label)
      (hcaught : Caught scope label target) :
      Caught (.handler id cleanup handlerExp :: scope) label target
  | localcode {scope : Scope δ} {label : HandlerLabel} {id : FunLocalLabel}
      {recursive : Bool} {bodyExp : Mcexp δ} {target : Point δ}
      (hcaught : Caught scope label target) :
      Caught (.localcode id recursive bodyExp :: scope) label target

/-- The edges of the control-flow graph.  The flag marks the edges that enter a
recursive local code. -/
inductive Edge : Bool → Point δ → Point δ → Prop
  | mid {scope : Scope δ} {mid : McexpMid δ} {mids : List (McexpMid δ)}
      {last : McexpLast δ} :
      Edge false ⟨scope, .mk (mid :: mids) last⟩ ⟨scope, .mk mids last⟩
  | unwind {scope : Scope δ} {mid : McexpMid δ} {mids : List (McexpMid δ)}
      {last : McexpLast δ} {label : HandlerLabel} {target : Point δ}
      (hhandler : mid.handler = some label) (hcaught : Caught scope label target) :
      Edge false ⟨scope, .mk (mid :: mids) last⟩ target
  | raise {scope : Scope δ} {args : δ} {label : HandlerLabel} {target : Point δ}
      (hcaught : Caught scope label target) :
      Edge false ⟨scope, .mk [] (.mcraise args (some label))⟩ target
  | handler {scope : Scope δ} {nextExp handlerExp : Mcexp δ} {id : HandlerLabel}
      {args : δ} {cleanup : Option HandlerLabel} :
      Edge false ⟨scope, .mk [] (.mchandler nextExp id args handlerExp cleanup)⟩
        ⟨.handler id cleanup handlerExp :: scope, nextExp⟩
  | switch {scope : Scope δ} {args : δ} {branches : List (δ × FunLocalLabel)}
      {default label : FunLocalLabel} {recursive : Bool} {target : Point δ}
      (hlabel : label = default ∨ label ∈ branches.map Prod.snd)
      (hfind : findLabel scope label = some (recursive, target)) :
      Edge recursive ⟨scope, .mk [] (.mcswitch args branches default)⟩ target
  | localcode {scope : Scope δ} {id : FunLocalLabel} {recursive : Bool} {args : δ}
      {bodyExp nextExp : Mcexp δ} :
      Edge false ⟨scope, .mk [] (.mclocalcode id recursive args bodyExp nextExp)⟩
        ⟨.localcode id recursive bodyExp :: scope, nextExp⟩
  | goto {scope : Scope δ} {id : FunLocalLabel} {args : δ} {recursive : Bool}
      {target : Point δ} (hfind : findLabel scope id = some (recursive, target)) :
      Edge recursive ⟨scope, .mk [] (.mcgoto id args)⟩ target

/-- The places of a function, dead code included. -/
inductive Occurs (bodyExp : Mcexp δ) : Point δ → Prop
  | entry : Occurs bodyExp ⟨[], bodyExp⟩
  | mid {scope : Scope δ} {mid : McexpMid δ} {mids : List (McexpMid δ)}
      {last : McexpLast δ} (hoccurs : Occurs bodyExp ⟨scope, .mk (mid :: mids) last⟩) :
      Occurs bodyExp ⟨scope, .mk mids last⟩
  | handlerNext {scope : Scope δ} {nextExp handlerExp : Mcexp δ} {id : HandlerLabel}
      {args : δ} {cleanup : Option HandlerLabel}
      (hoccurs : Occurs bodyExp
        ⟨scope, .mk [] (.mchandler nextExp id args handlerExp cleanup)⟩) :
      Occurs bodyExp ⟨.handler id cleanup handlerExp :: scope, nextExp⟩
  | handlerExp {scope : Scope δ} {nextExp handlerExp : Mcexp δ} {id : HandlerLabel}
      {args : δ} {cleanup : Option HandlerLabel}
      (hoccurs : Occurs bodyExp
        ⟨scope, .mk [] (.mchandler nextExp id args handlerExp cleanup)⟩) :
      Occurs bodyExp ⟨scope, handlerExp⟩
  | localNext {scope : Scope δ} {id : FunLocalLabel} {recursive : Bool} {args : δ}
      {localExp nextExp : Mcexp δ}
      (hoccurs : Occurs bodyExp
        ⟨scope, .mk [] (.mclocalcode id recursive args localExp nextExp)⟩) :
      Occurs bodyExp ⟨.localcode id recursive localExp :: scope, nextExp⟩
  | localBody {scope : Scope δ} {id : FunLocalLabel} {recursive : Bool} {args : δ}
      {localExp nextExp : Mcexp δ}
      (hoccurs : Occurs bodyExp
        ⟨scope, .mk [] (.mclocalcode id recursive args localExp nextExp)⟩) :
      Occurs bodyExp
        ⟨if recursive then .localcode id recursive localExp :: scope else scope, localExp⟩

/-- The places that leave the function by a return or a raise. -/
inductive Exit : Point δ → Prop
  | mcreturn {scope : Scope δ} {args : δ} : Exit ⟨scope, .mk [] (.mcreturn args)⟩
  | mcraise {scope : Scope δ} {args : δ} {cleanup : Option HandlerLabel}
      (huncaught : ∀ label target, cleanup = some label → ¬Caught scope label target) :
      Exit ⟨scope, .mk [] (.mcraise args cleanup)⟩

/-- The next instruction is a check. -/
inductive AtCheck : Point δ → Prop
  | mk {scope : Scope δ} {handler : Option HandlerLabel} {mids : List (McexpMid δ)}
      {last : McexpLast δ} : AtCheck ⟨scope, .mk (.mccheck handler :: mids) last⟩

theorem Exit.not_atCheck {p : Point δ} (hexit : Exit p) : ¬AtCheck p := by
  rintro hcheck
  cases hcheck
  cases hexit

/-- An edge that does not execute a check. -/
def Unchecked (p q : Point δ) : Prop :=
  (∃ recursive, Edge recursive p q) ∧ ¬AtCheck p

/-! Every edge but those into recursive local code makes what is left smaller. -/

mutual

def Mcexp.weight : Mcexp δ → Nat
  | .mk mids last => mids.length + last.weight

def McexpLast.weight : McexpLast δ → Nat
  | .mcreturn _ => 1
  | .mcraise _ _ => 1
  | .mchandler nextExp _ _ handlerExp _ => nextExp.weight + handlerExp.weight + 1
  | .mcswitch _ _ _ => 1
  | .mclocalcode _ _ _ bodyExp nextExp => bodyExp.weight + nextExp.weight + 1
  | .mcgoto _ _ => 1
  | .mcunreachable => 1

end

def Frame.weight : Frame δ → Nat
  | .localcode _ _ bodyExp => bodyExp.weight
  | .handler _ _ handlerExp => handlerExp.weight

def Point.weight (p : Point δ) : Nat :=
  (p.scope.map Frame.weight).sum + p.exp.weight

theorem findLabel_weight {scope : Scope δ} {label : FunLocalLabel} {target : Point δ}
    (hfind : findLabel scope label = some (false, target)) :
    target.weight ≤ (scope.map Frame.weight).sum := by
  induction scope with
  | nil => simp [findLabel] at hfind
  | cons frame scope ih =>
    cases frame with
    | localcode id recursive bodyExp =>
      rw [findLabel] at hfind
      split at hfind
      · obtain ⟨rfl, rfl⟩ := Prod.mk.inj (Option.some.inj hfind)
        simp [Point.weight, Frame.weight, Nat.add_comm]
      · have hle := ih hfind
        simp only [List.map_cons, List.sum_cons]
        omega
    | handler id cleanup handlerExp =>
      have hle := ih hfind
      simp only [List.map_cons, List.sum_cons]
      omega

theorem Caught.weight_le {scope : Scope δ} {label : HandlerLabel} {target : Point δ}
    (hcaught : Caught scope label target) :
    target.weight ≤ (scope.map Frame.weight).sum := by
  induction hcaught with
  | here => simp [Point.weight, Frame.weight, Nat.add_comm]
  | cleanup _ ih =>
    simp only [List.map_cons, List.sum_cons]
    omega
  | outer _ _ ih =>
    simp only [List.map_cons, List.sum_cons]
    omega
  | localcode _ ih =>
    simp only [List.map_cons, List.sum_cons]
    omega

theorem Edge.weight_lt {p q : Point δ} (hedge : Edge false p q) :
    q.weight < p.weight := by
  generalize hflag : false = flag at hedge
  cases hedge with
  | mid => simp [Point.weight, Mcexp.weight]
  | unwind _ hcaught =>
    have hle := hcaught.weight_le
    simp only [Point.weight, Mcexp.weight, List.length_cons] at hle ⊢
    omega
  | raise hcaught =>
    have hle := hcaught.weight_le
    simp only [Point.weight, Mcexp.weight, McexpLast.weight] at hle ⊢
    omega
  | handler =>
    simp only [Point.weight, Mcexp.weight, McexpLast.weight, List.map_cons, List.sum_cons,
      Frame.weight]
    omega
  | switch _ hfind =>
    subst hflag
    have hle := findLabel_weight hfind
    simp only [Point.weight, Mcexp.weight, McexpLast.weight] at hle ⊢
    omega
  | localcode =>
    simp only [Point.weight, Mcexp.weight, McexpLast.weight, List.map_cons, List.sum_cons,
      Frame.weight]
    omega
  | goto hfind =>
    subst hflag
    have hle := findLabel_weight hfind
    simp only [Point.weight, Mcexp.weight, McexpLast.weight] at hle ⊢
    omega

end MachineCode

end SmlSharp
