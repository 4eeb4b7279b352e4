/-
Directed graphs with numbered nodes, and the search for their strongly
connected components.
-/
import Mathlib.Data.Int.Order.Basic
import SmlSharp.Lib.SortedMap

namespace SmlSharp

/-- Sets of integers, which list their elements in ascending order. -/
abbrev ISet := SortedMap Int Unit

def ISet.add (ns : ISet) (n : Int) : ISet := SortedMap.insert ns n ()

/-- What ends a run without a result. -/
inductive GraphExn where
  | subscript
  | bug (message : String)
  /-- the recursion was cut off -/
  | outOfFuel
deriving DecidableEq

/-- An array of a fixed size. -/
structure Table (α : Type) where
  size : Int
  get : Int → α

section Table

variable {α : Type}

def Table.array (size : Int) (init : α) : Table α := ⟨size, fun _ => init⟩

def Table.sub (table : Table α) (i : Int) : Except GraphExn α :=
  if 0 ≤ i ∧ i < table.size then .ok (table.get i) else .error .subscript

def Table.set (table : Table α) (i : Int) (x : α) : Table α :=
  { table with get := Function.update table.get i x }

def Table.update (table : Table α) (i : Int) (x : α) :
    Except GraphExn (Table α) :=
  if 0 ≤ i ∧ i < table.size then .ok (table.set i x) else .error .subscript

@[simp]
theorem Table.size_set (table : Table α) (i : Int) (x : α) :
    (table.set i x).size = table.size := rfl

@[simp]
theorem Table.get_set (table : Table α) (i j : Int) (x : α) :
    (table.set i x).get j = if j = i then x else table.get j :=
  Function.update_apply table.get i x j

theorem Table.sub_ok {table : Table α} {i : Int} (h : 0 ≤ i ∧ i < table.size) :
    table.sub i = .ok (table.get i) := if_pos h

theorem Table.update_ok {table : Table α} {i : Int} (h : 0 ≤ i ∧ i < table.size)
    (x : α) : table.update i x = .ok (table.set i x) := if_pos h

end Table

structure Graph (η : Type) where
  max_id : Int
  nodes : SortedMap Int η
  edges : SortedMap Int ISet
  rev_edges : SortedMap Int ISet

namespace Graph

variable {η : Type}

def empty : Graph η :=
  ⟨0, SortedMap.empty, SortedMap.empty, SortedMap.empty⟩

def addNode (g : Graph η) (nodeInfo : η) : Graph η × Int :=
  let nid := g.max_id + 1
  ({ max_id := nid,
     nodes := g.nodes.insert nid nodeInfo,
     edges := g.edges.insert nid SortedMap.empty,
     rev_edges := g.rev_edges.insert nid SortedMap.empty }, nid)

def addEdge (g : Graph η) (fromNid toNid : Int) : Graph η :=
  let outGoingNodes := match g.edges.find fromNid with
    | some ns => ISet.add ns toNid
    | none => ISet.add SortedMap.empty toNid
  let inComingNodes := match g.rev_edges.find toNid with
    | some ns => ISet.add ns fromNid
    | none => ISet.add SortedMap.empty fromNid
  { g with
    edges := g.edges.insert fromNid outGoingNodes,
    rev_edges := g.rev_edges.insert toNid inComingNodes }

def listNodes (g : Graph η) : List (Int × η) := g.nodes.items

def getNodeInfo (g : Graph η) (nid : Int) : Option η := g.nodes.find nid

def getOutGoingNodes (g : Graph η) (nid : Int) : ISet :=
  match g.edges.find nid with
  | some ns => ns
  | none => SortedMap.empty

/-! ### Strongly connected components -/

/-- The references and the arrays of `scc`. -/
structure State where
  count : Int
  dfnumber : Table Int
  lowlink : Table Int
  onstack : Table Bool
  st : List Int
  components : List (List Int)

/-- `f` of `dfs nid`: the edge to one node. -/
def followEdge (dfs : Int → State → Except GraphExn State) (nid : Int) (s : State)
    (n : Int) : Except GraphExn State := do
  if (← s.dfnumber.sub n) = -1 then
    let s ← dfs n s
    let ll1 ← s.lowlink.sub n
    let ll2 ← s.lowlink.sub nid
    let lowlink ← s.lowlink.update nid (if ll1 > ll2 then ll2 else ll1)
    pure { s with lowlink }
  else
    let dfn1 ← s.dfnumber.sub n
    let dfn2 ← s.dfnumber.sub nid
    if dfn1 < dfn2 then
      if ← s.onstack.sub n then
        let ll1 ← s.lowlink.sub n
        let ll2 ← s.lowlink.sub nid
        let lowlink ← s.lowlink.update nid (if ll1 > ll2 then ll2 else ll1)
        pure { s with lowlink }
      else pure s
    else pure s

/-- The component of `nid`, taken off the stack. -/
def getComponent (nid : Int) :
    List Int → Table Bool → Except GraphExn (List Int × List Int × Table Bool)
  | [], _ =>
    .error (.bug "nil to getComponent (valrecoptimization/main/Graph.sml)")
  | n :: st, onstack => do
      let onstack ← onstack.update n false
      if n = nid then pure ([n], st, onstack)
      else
        let (c, st, onstack) ← getComponent nid st onstack
        pure (n :: c, st, onstack)

def dfs (g : Graph η) : Nat → Int → State → Except GraphExn State
  | 0, _, _ => .error .outOfFuel
  | fuel + 1, nid, s => do
      let dfnumber ← s.dfnumber.update nid s.count
      let lowlink ← s.lowlink.update nid s.count
      let onstack ← s.onstack.update nid true
      let s := { s with
        count := s.count + 1, dfnumber, lowlink, onstack, st := nid :: s.st }
      let onodes := (g.getOutGoingNodes nid).listKeys
      let s ← onodes.foldlM (followEdge (dfs g fuel) nid) s
      let ll ← s.lowlink.sub nid
      let dfn ← s.dfnumber.sub nid
      if ll = dfn then
        let (c, st, onstack) ← getComponent nid s.st s.onstack
        pure { s with st, onstack, components := c :: s.components }
      else pure s

def dfsAll (g : Graph η) (fuel : Nat) : List Int → State → Except GraphExn State
  | [], s => pure s
  | n :: ns, s => do
      if (← s.dfnumber.sub n) = -1 then
        let s ← dfs g fuel n s
        dfsAll g fuel ns s
      else dfsAll g fuel ns s

/-- No call of `dfs` is below as many others as there are nodes. -/
def scc (g : Graph η) : Except GraphExn (List (List Int)) := do
  let max_id := g.max_id + 1
  let s ← dfsAll g (g.listNodes.length + 1) (g.listNodes.map Prod.fst)
    { count := 1,
      dfnumber := Table.array max_id (-1),
      lowlink := Table.array max_id 0,
      onstack := Table.array max_id false,
      st := [],
      components := [] }
  pure s.components

end Graph

end SmlSharp
