/-
Components of graphs whose nodes are the keys of a map.
-/
import SmlSharp.Graph.Components

namespace SmlSharp

open Relation

/-- A graph with the node of each element. -/
abbrev SCCGraph (κ : Type) [LinearOrder κ] := Graph κ × SortedMap κ Int

namespace SCCFun

variable {κ : Type} [LinearOrder κ]

def empty : SCCGraph κ := (Graph.empty, SortedMap.empty)

def addNode (graph : SCCGraph κ) (elem : κ) : SCCGraph κ :=
  let (g, nodeId) := graph.1.addNode elem
  (g, graph.2.insert elem nodeId)

/-- The node of an end of an edge, which is added when it is missing. -/
def findNode (graph : SCCGraph κ) (elem : κ) : SCCGraph κ × Int :=
  match graph.2.find elem with
  | some id => (graph, id)
  | none =>
    let (g, nodeId) := graph.1.addNode elem
    ((g, graph.2.insert elem nodeId), nodeId)

def addEdge (graph : SCCGraph κ) (elem1 elem2 : κ) : SCCGraph κ :=
  let (graph, id1) := findNode graph elem1
  let (graph, id2) := findNode graph elem2
  (graph.1.addEdge id1 id2, graph.2)

def getElem (graph : SCCGraph κ) (id : Int) : Except GraphExn κ :=
  match graph.1.getNodeInfo id with
  | some elem => .ok elem
  | none => .error (.bug "undefined id")

def scc (graph : SCCGraph κ) : Except GraphExn (List (List κ)) := do
  let idListList ← graph.1.scc
  idListList.mapM fun idlist => idlist.mapM (getElem graph)

def elems (graph : SCCGraph κ) : List κ := graph.1.listNodes.map Prod.snd

/-- The graph has one node for each element, and its edges are the arrows between
elements. -/
structure Represents (graph : SCCGraph κ) (arrow : κ → κ → Prop) : Prop where
  wf : graph.1.Wf
  find_iff : ∀ elem id, graph.2.find elem = some id ↔
    graph.1.getNodeInfo id = some elem
  edge_iff : ∀ id elem id' elem', graph.1.getNodeInfo id = some elem →
    graph.1.getNodeInfo id' = some elem' →
    (graph.1.Edge id id' ↔ arrow elem elem')
  arrow_mem : ∀ elem elem', arrow elem elem' →
    (∃ id, graph.2.find elem = some id) ∧ ∃ id, graph.2.find elem' = some id

section Represents

variable {graph : SCCGraph κ} {arrow : κ → κ → Prop} {elem elem1 elem2 : κ}
  {id id1 id2 : Int}

theorem represents_empty : Represents (empty : SCCGraph κ) fun _ _ => False := by
  constructor
  · exact Graph.wf_empty
  · intro elem id
    simp [empty, Graph.getNodeInfo, Graph.empty, SortedMap.empty, SortedMap.find]
  · intro id elem id' elem' hid
    simp [empty, Graph.getNodeInfo, Graph.empty, SortedMap.empty, SortedMap.find] at hid
  · intro elem elem' harrow
    exact harrow.elim

theorem getNodeInfo_addNode : (addNode graph elem).1.getNodeInfo id =
    if id = graph.1.max_id + 1 then some elem else graph.1.getNodeInfo id :=
  SortedMap.find_insert _ _ _ _

theorem find_insert_addNode : (addNode graph elem1).2.find elem2 =
    if elem2 = elem1 then some (graph.1.max_id + 1) else graph.2.find elem2 :=
  SortedMap.find_insert _ _ _ _

theorem Represents.id_ne (h : Represents graph arrow)
    (hid : graph.1.getNodeInfo id = some elem) : id ≠ graph.1.max_id + 1 := by
  rintro rfl
  have hrange := h.wf.range _ (Graph.mem_nodeIds_iff.mpr ⟨elem, hid⟩)
  omega

theorem Represents.unique (h : Represents graph arrow)
    (hid1 : graph.1.getNodeInfo id1 = some elem)
    (hid2 : graph.1.getNodeInfo id2 = some elem) : id1 = id2 := by
  have hfind := (h.find_iff elem id1).mpr hid1
  rw [(h.find_iff elem id2).mpr hid2] at hfind
  exact (Option.some.inj hfind).symm

/-- A new element. -/
theorem Represents.addNode (h : Represents graph arrow)
    (hnew : graph.2.find elem = none) : Represents (addNode graph elem) arrow ∧
      (SCCFun.addNode graph elem).1.getNodeInfo (graph.1.max_id + 1) =
        some elem := by
  have hother : ∀ {e}, (∃ id, graph.2.find e = some id) → e ≠ elem := by
    rintro e ⟨id, hid⟩ rfl
    rw [hnew] at hid
    cases hid
  refine ⟨⟨h.wf.addNode elem, ?_, ?_, ?_⟩, ?_⟩
  · intro e id
    rw [getNodeInfo_addNode, find_insert_addNode]
    by_cases he : e = elem
    · by_cases hid : id = graph.1.max_id + 1
      · simp [he, hid]
      · rw [if_pos he, if_neg hid]
        constructor
        · intro heq
          exact absurd (Option.some.inj heq).symm hid
        · intro hold
          exact absurd he (hother ⟨id, (h.find_iff e id).mpr hold⟩)
    · by_cases hid : id = graph.1.max_id + 1
      · rw [if_neg he, if_pos hid]
        constructor
        · intro hold
          exact absurd hid (h.id_ne ((h.find_iff e id).mp hold))
        · intro heq
          exact absurd (Option.some.inj heq).symm he
      · rw [if_neg he, if_neg hid]
        exact h.find_iff e id
  · intro id e id' e' hid hid'
    rw [getNodeInfo_addNode] at hid hid'
    have hedge : (SCCFun.addNode graph elem).1.Edge id id' ↔
        id ≠ graph.1.max_id + 1 ∧ graph.1.Edge id id' := Graph.edge_addNode
    rw [hedge]
    by_cases hnid : id = graph.1.max_id + 1
    · rw [if_pos hnid] at hid
      obtain rfl := Option.some.inj hid
      constructor
      · intro hboth
        exact absurd hnid hboth.1
      · intro harrow
        exact absurd rfl (hother (h.arrow_mem _ _ harrow).1)
    · rw [if_neg hnid] at hid
      rw [and_iff_right hnid]
      by_cases hnid' : id' = graph.1.max_id + 1
      · rw [if_pos hnid'] at hid'
        obtain rfl := Option.some.inj hid'
        constructor
        · intro hold
          obtain ⟨e', he'⟩ := Graph.mem_nodeIds_iff.mp (h.wf.edge id id' hold).2
          exact absurd hnid' (h.id_ne he')
        · intro harrow
          exact absurd rfl (hother (h.arrow_mem _ _ harrow).2)
      · rw [if_neg hnid'] at hid'
        exact h.edge_iff id e id' e' hid hid'
  · intro e e' harrow
    have hkeep : ∀ {e}, (∃ id, graph.2.find e = some id) →
        ∃ id, (SCCFun.addNode graph elem).2.find e = some id := by
      intro e hold
      rw [find_insert_addNode, if_neg (hother hold)]
      exact hold
    exact (h.arrow_mem e e' harrow).imp hkeep hkeep
  · rw [getNodeInfo_addNode, if_pos rfl]

/-- The ends of an edge have nodes, and other elements keep theirs. -/
theorem Represents.findNode (h : Represents graph arrow) (elem : κ) :
    Represents (findNode graph elem).1 arrow ∧
      (SCCFun.findNode graph elem).1.1.getNodeInfo (SCCFun.findNode graph elem).2 =
        some elem ∧ ∀ id e, graph.1.getNodeInfo id = some e →
        (SCCFun.findNode graph elem).1.1.getNodeInfo id = some e := by
  cases hfind : graph.2.find elem with
  | some id =>
    have heq : SCCFun.findNode graph elem = (graph, id) := by
      simp only [SCCFun.findNode, hfind]
    rw [heq]
    exact ⟨h, (h.find_iff elem id).mp hfind, fun _ _ hold => hold⟩
  | none =>
    have heq : SCCFun.findNode graph elem =
        (SCCFun.addNode graph elem, graph.1.max_id + 1) := by
      simp only [SCCFun.findNode, hfind]
      rfl
    obtain ⟨hrepresents, hinfo⟩ := h.addNode hfind
    rw [heq]
    refine ⟨hrepresents, hinfo, ?_⟩
    intro id e hid
    rw [getNodeInfo_addNode, if_neg (h.id_ne hid), hid]

theorem Represents.addEdge (h : Represents graph arrow) (elem1 elem2 : κ) :
    Represents (addEdge graph elem1 elem2)
      (fun e e' => e = elem1 ∧ e' = elem2 ∨ arrow e e') := by
  obtain ⟨h1, hid1, -⟩ := h.findNode elem1
  obtain ⟨h2, hid2, hkeep⟩ := h1.findNode elem2
  have hid1' := hkeep _ _ hid1
  set graph2 := (SCCFun.findNode (SCCFun.findNode graph elem1).1 elem2).1
  set id1 := (SCCFun.findNode graph elem1).2
  set id2 := (SCCFun.findNode (SCCFun.findNode graph elem1).1 elem2).2
  have heq : SCCFun.addEdge graph elem1 elem2 = (graph2.1.addEdge id1 id2, graph2.2) := rfl
  rw [heq]
  refine ⟨h2.wf.addEdge (Graph.mem_nodeIds_iff.mpr ⟨_, hid1'⟩)
    (Graph.mem_nodeIds_iff.mpr ⟨_, hid2⟩),
    h2.find_iff, ?_, ?_⟩
  · intro id e id' e' hid hid'
    rw [Graph.edge_addEdge]
    apply or_congr
    · constructor
      · rintro ⟨rfl, rfl⟩
        exact ⟨Option.some.inj (hid.symm.trans hid1'),
          Option.some.inj (hid'.symm.trans hid2)⟩
      · rintro ⟨rfl, rfl⟩
        exact ⟨h2.unique hid hid1', h2.unique hid' hid2⟩
    · exact h2.edge_iff id e id' e' hid hid'
  · rintro e e' (⟨rfl, rfl⟩ | harrow)
    · exact ⟨⟨_, (h2.find_iff _ _).mpr hid1'⟩, ⟨_, (h2.find_iff _ _).mpr hid2⟩⟩
    · exact h2.arrow_mem e e' harrow

/-- `scc` returns the components of the arrows between the elements. -/
theorem Represents.scc (h : Represents graph arrow) :
    ∃ components, scc graph = .ok components ∧
      IsComponents arrow (elems graph) components := by
  obtain ⟨s, hrun, hinv, hall⟩ := Graph.scc_ok h.wf
  have hcomponents := hinv.isComponents hall
  rcases isEmpty_or_nonempty κ with hempty | ⟨⟨default⟩⟩
  · have hnodes : graph.1.listNodes = [] := by
      apply List.eq_nil_iff_forall_not_mem.mpr
      intro entry _
      exact hempty.false entry.2
    have hnil : s.components = [] := by
      apply List.eq_nil_iff_forall_not_mem.mpr
      intro c hc
      cases c with
      | nil => exact hcomponents.nonempty hc
      | cons id c =>
        have hid := (hcomponents.mem_flatten id).mp
          (List.mem_flatten.mpr ⟨_, hc, List.mem_cons_self⟩)
        simp [Graph.nodeIds, hnodes] at hid
    refine ⟨[], ?_, finished_nil.isComponents ?_⟩
    · rw [SCCFun.scc, hrun, hnil]
      rfl
    · intro e
      exact (hempty.false e).elim
  · let f : Int → κ := fun id => (graph.1.getNodeInfo id).getD default
    have hf : ∀ {id}, id ∈ graph.1.nodeIds → graph.1.getNodeInfo id = some (f id) := by
      intro id hid
      obtain ⟨e, he⟩ := Graph.mem_nodeIds_iff.mp hid
      simp [f, he]
    have hget : ∀ id ∈ graph.1.nodeIds, getElem graph id = .ok (f id) := by
      intro id hid
      simp only [getElem, hf hid]
    have hrenames : Renames graph.1.Edge arrow graph.1.nodeIds f := by
      constructor
      · intro id hid id' hid' heq
        exact h.unique (hf hid) (heq ▸ hf hid')
      · intro id hid id' hid'
        exact (h.edge_iff id _ id' _ (hf hid) (hf hid')).symm
      · intro id _ e harrow
        obtain ⟨-, id', hid'⟩ := h.arrow_mem _ _ harrow
        have hinfo := (h.find_iff e id').mp hid'
        refine ⟨id', Graph.mem_nodeIds_iff.mpr ⟨e, hinfo⟩, ?_⟩
        simp [f, hinfo]
      · intro id _ id' hedge
        exact (h.wf.edge id id' hedge).2
    have helems : elems graph = graph.1.nodeIds.map f := by
      rw [elems, Graph.nodeIds, List.map_map]
      apply List.map_congr_left
      intro entry hentry
      have hinfo : graph.1.getNodeInfo entry.1 = some entry.2 :=
        SortedMap.find_of_mem hentry
      simp [f, hinfo]
    refine ⟨s.components.map (List.map f), ?_, helems ▸ hcomponents.map hrenames⟩
    rw [SCCFun.scc, hrun, except_ok_bind]
    apply mapM_ok
    intro c hc
    apply mapM_ok
    intro id hid
    exact hget id ((hcomponents.mem_flatten id).mp (List.mem_flatten.mpr ⟨c, hc, hid⟩))

/-- The elements that have nodes. -/
theorem Represents.mem_elems (h : Represents graph arrow) :
    elem ∈ elems graph ↔ ∃ id, graph.2.find elem = some id := by
  constructor
  · intro hmem
    obtain ⟨entry, hentry, rfl⟩ := List.mem_map.mp hmem
    exact ⟨entry.1, (h.find_iff _ _).mpr (SortedMap.find_of_mem hentry)⟩
  · rintro ⟨id, hid⟩
    have hinfo := (h.find_iff elem id).mp hid
    exact List.mem_map.mpr ⟨(id, elem), SortedMap.mem_of_find hinfo, rfl⟩

end Represents

/-! ### Graphs that are built by the interface -/

inductive Op (κ : Type) where
  | addNode (elem : κ)
  | addEdge (elem1 elem2 : κ)

def Op.Mentions (elem : κ) : Op κ → Prop
  | .addNode elem' => elem' = elem
  | .addEdge elem1 elem2 => elem1 = elem ∨ elem2 = elem

def step (graph : SCCGraph κ) : Op κ → SCCGraph κ
  | .addNode elem => addNode graph elem
  | .addEdge elem1 elem2 => addEdge graph elem1 elem2

def run (ops : List (Op κ)) : SCCGraph κ := ops.foldl step empty

/-- An element that is added was not mentioned before. -/
def NewNodes (ops : List (Op κ)) : Prop :=
  ops.Pairwise fun before op => ∀ elem, op = .addNode elem → ¬ before.Mentions elem

theorem find_addNode (graph : SCCGraph κ) (elem e : κ) :
    (∃ id, (addNode graph elem).2.find e = some id) ↔
      elem = e ∨ ∃ id, graph.2.find e = some id := by
  rw [find_insert_addNode]
  by_cases he : e = elem
  · simp [he]
  · simp [he, Ne.symm he]

theorem find_findNode (graph : SCCGraph κ) (elem e : κ) :
    (∃ id, (findNode graph elem).1.2.find e = some id) ↔
      elem = e ∨ ∃ id, graph.2.find e = some id := by
  cases hfind : graph.2.find elem with
  | some id =>
    rw [show findNode graph elem = (graph, id) by simp only [findNode, hfind]]
    constructor
    · exact Or.inr
    · rintro (rfl | hold)
      · exact ⟨id, hfind⟩
      · exact hold
  | none =>
    have heq : (findNode graph elem).1 = addNode graph elem := by
      simp only [findNode, hfind]
      rfl
    rw [heq]
    exact find_addNode graph elem e

/-- What a run makes: the edges are those that were added, and the nodes are the
elements that were mentioned. -/
theorem run_represents (ops : List (Op κ)) (hnew : NewNodes ops) :
    Represents (run ops) (fun x y => .addEdge x y ∈ ops) ∧
      ∀ e, (∃ id, (run ops).2.find e = some id) ↔ ∃ op ∈ ops, op.Mentions e := by
  induction ops using List.reverseRecOn with
  | nil =>
    refine ⟨by simpa [run] using (represents_empty : Represents (empty : SCCGraph κ) _), ?_⟩
    simp [run, empty, SortedMap.find, SortedMap.empty]
  | append_singleton ops op ih =>
    obtain ⟨hops, -, hop⟩ := List.pairwise_append.mp hnew
    obtain ⟨h, hfind⟩ := ih hops
    have hrun : run (ops ++ [op]) = step (run ops) op := by simp [run]
    rw [hrun]
    cases op with
    | addNode elem =>
      have hnone : (run ops).2.find elem = none := by
        apply Option.eq_none_iff_forall_ne_some.mpr
        intro id hid
        obtain ⟨before, hbefore, hmention⟩ := (hfind elem).mp ⟨id, hid⟩
        exact hop before hbefore _ (List.mem_singleton.mpr rfl) elem rfl hmention
      refine ⟨by simpa [step] using (h.addNode hnone).1, fun e => ?_⟩
      rw [step, find_addNode, hfind]
      simp [Op.Mentions, or_comm]
    | addEdge elem1 elem2 =>
      refine ⟨?_, fun e => ?_⟩
      · simpa [step, or_comm] using h.addEdge elem1 elem2
      · have hedge : (∃ id, (addEdge (run ops) elem1 elem2).2.find e = some id) ↔
            elem2 = e ∨ ∃ id, (findNode (run ops) elem1).1.2.find e = some id :=
          find_findNode _ elem2 e
        have hmentions : (Op.addEdge elem1 elem2).Mentions e ↔
            elem1 = e ∨ elem2 = e := Iff.rfl
        rw [step, hedge, find_findNode, hfind]
        simp only [List.mem_append, List.mem_singleton, or_and_right, exists_or,
          exists_eq_left, hmentions]
        generalize (∃ op ∈ ops, op.Mentions e) = before
        tauto

/-- `scc` returns the strongly connected components of the edges that were added,
sources first, and every element that was mentioned is in one of them. -/
theorem run_scc (ops : List (Op κ)) (hnew : NewNodes ops) :
    ∃ components, scc (run ops) = .ok components ∧
      IsComponents (fun x y => .addEdge x y ∈ ops) (elems (run ops)) components ∧
      ∀ e, e ∈ components.flatten ↔ ∃ op ∈ ops, op.Mentions e := by
  obtain ⟨h, hfind⟩ := run_represents ops hnew
  obtain ⟨components, hscc, hcomponents⟩ := h.scc
  refine ⟨components, hscc, hcomponents, fun e => ?_⟩
  rw [hcomponents.mem_flatten, h.mem_elems, hfind]

/-- A cycle of two elements. -/
def cycle : List (Op Nat) := [.addNode 1, .addEdge 1 2, .addEdge 2 1]

/-- The second element gets its node from the edge that mentions it. -/
theorem run_scc_cycle : ∃ components, scc (run cycle) = .ok components ∧
      IsComponents (fun x y => .addEdge x y ∈ cycle) (elems (run cycle)) components ∧
      ∀ e, e ∈ components.flatten ↔ ∃ op ∈ cycle, op.Mentions e :=
  run_scc cycle (by simp [NewNodes, cycle, Op.Mentions])

end SCCFun

end SmlSharp
