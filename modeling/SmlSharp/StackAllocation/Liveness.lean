/-
The liveness analysis of the allocation of root slots: control-flow graphs of
mutable blocks, and the worklist over them.
-/
import Mathlib.Data.Int.Order.Basic
import SmlSharp.Lib.KeyedSet
import SmlSharp.Lib.Worklist

namespace SmlSharp

namespace StackAllocation

inductive Tag where
  | boxed
  | unboxed
deriving DecidableEq

structure VarInfo where
  id : Int
  tag : Tag
deriving DecidableEq

/-- `Set`: variables in the order of their ids. -/
abbrev VarSet := KeyedSet VarInfo.id

def VarSet.singleton (v : VarInfo) : VarSet :=
  match v.tag with
  | .boxed => KeyedSet.singleton v
  | .unboxed => KeyedSet.empty

def VarSet.fromList (l : List VarInfo) : VarSet :=
  KeyedSet.fromList (l.filter fun v => v.tag = .boxed)

inductive Gc where
  | noGC
  | causeGC (defsBeforeGC : VarSet)

def updateGC : Bool → VarSet → Gc → Gc
  | true, _, _ => .causeGC KeyedSet.empty
  | false, _, .noGC => .noGC
  | false, defs, .causeGC defsBeforeGC => .causeGC (defsBeforeGC.union defs)

def isSmallerThanOrEqualToGC : Gc → Gc → Bool
  | .noGC, _ => true
  | .causeGC _, .noGC => false
  | .causeGC s1, .causeGC s2 => s1.isSubsetOf s2

variable {ι : Type}

/-- The code of a block; `ι` are the references to blocks. -/
inductive Exp (ι : Type) where
  | define (defined : VarSet) (causeGC : Bool) (next : Exp ι)
  | mid (defined use : VarSet) (causeGC : Bool) (next : Exp ι)
  | call (defined use : VarSet) (returnTo : ι) (causeGC : Bool)
  | last (defined use : VarSet)
  | localcode (body : ι) (next : Exp ι)
  | handler (nextExp : Exp ι) (handler : ι)

structure Defuse where
  defs : VarSet
  uses : VarSet
  gc : Gc

structure Block (ι : Type) where
  successors : List ι
  predecessors : List ι
  argVarList : List VarInfo
  bodyExp : Exp ι
  defuse : Defuse
  liveIn : VarSet
  liveOut : VarSet
  gcIn : Gc
  gcOut : Gc

/-- What the references to blocks point to. -/
abbrev Heap (ι : Type) := ι → Block ι

def newBlock (argVarList : List VarInfo) : Block ι where
  successors := []
  predecessors := []
  argVarList := argVarList
  bodyExp := .last KeyedSet.empty KeyedSet.empty
  defuse := ⟨KeyedSet.empty, KeyedSet.empty, .noGC⟩
  liveIn := KeyedSet.empty
  liveOut := KeyedSet.empty
  gcIn := .noGC
  gcOut := .noGC

def defuseExp : Exp ι → Defuse
  | .define defined causeGC next =>
    let ⟨defs, uses, gc⟩ := defuseExp next
    ⟨defs.union defined, uses.setMinus defined, updateGC causeGC defined gc⟩
  | .mid defined use causeGC next =>
    let ⟨defs, uses, gc⟩ := defuseExp next
    ⟨defs.union defined, (uses.setMinus defined).union use,
      updateGC causeGC defined gc⟩
  | .call defined use _ causeGC =>
    ⟨defined, use, updateGC causeGC defined .noGC⟩
  | .last defined use => ⟨defined, use, .noGC⟩
  | .localcode _ next => defuseExp next
  | .handler nextExp _ => defuseExp nextExp

variable [DecidableEq ι]

def addEdge (heap : Heap ι) (fromBlock toBlock : ι) : Heap ι × List VarInfo :=
  let argVarList := (heap toBlock).argVarList
  let heap := Function.update heap fromBlock
    { heap fromBlock with successors := toBlock :: (heap fromBlock).successors }
  let heap := Function.update heap toBlock
    { heap toBlock with predecessors := fromBlock :: (heap toBlock).predecessors }
  (heap, argVarList)

def setBody (heap : Heap ι) (r : ι) (bodyExp : Exp ι) : Heap ι :=
  Function.update heap r
    { heap r with bodyExp := bodyExp, defuse := defuseExp bodyExp }

/-! ### The worklist -/

/-- The sets that the analysis assigns to a block. -/
structure Sets where
  liveIn : VarSet
  liveOut : VarSet
  gcIn : Gc
  gcOut : Gc

def defsBeforeGC? : Gc → Option VarSet
  | .noGC => none
  | .causeGC defsBeforeGC => some defsBeforeGC

/-- `gcOut`, from the `gcIn` of the successors. -/
def gcOutOf (gcIns : List Gc) : Gc :=
  match gcIns.filterMap defsBeforeGC? with
  | [] => .noGC
  | defsBeforeGCs => .causeGC (KeyedSet.merge defsBeforeGCs)

/-- `newGcIn`, from `gcOut`. -/
def gcInOf (defs : VarSet) : Gc → Gc → Gc
  | .causeGC s, _ => .causeGC s
  | .noGC, .noGC => .noGC
  | .noGC, .causeGC defsBeforeGC => .causeGC (defs.union defsBeforeGC)

/-- The sets of a block, from those at the entries of its successors. -/
def flow (defuse : Defuse) (liveIns : List VarSet) (gcIns : List Gc) : Sets :=
  let liveOut := KeyedSet.merge liveIns
  let gcOut := gcOutOf gcIns
  { liveIn := (liveOut.setMinus defuse.defs).union defuse.uses,
    liveOut := liveOut,
    gcIn := gcInOf defuse.defs defuse.gc gcOut,
    gcOut := gcOut }

def liveness : Nat → Heap ι → List ι → Option (Heap ι)
  | _, heap, [] => some heap
  | 0, _, _ :: _ => none
  | fuel + 1, heap, r :: blocks =>
    let block := heap r
    let new := flow block.defuse
      (block.successors.map fun s => (heap s).liveIn)
      (block.successors.map fun s => (heap s).gcIn)
    let heap := Function.update heap r
      { block with
        liveOut := new.liveOut, liveIn := new.liveIn,
        gcOut := new.gcOut, gcIn := new.gcIn }
    let blocks :=
      if new.liveIn.isSubsetOf block.liveIn &&
        isSmallerThanOrEqualToGC new.gcIn block.gcIn
      then blocks
      else block.predecessors ++ blocks
    liveness fuel heap blocks

end StackAllocation

end SmlSharp
