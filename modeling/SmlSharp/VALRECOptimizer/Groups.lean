/-
What the optimizer makes of one group.
-/
import SmlSharp.VALRECOptimizer.Optimize

namespace SmlSharp

namespace VALRECOptimizer

variable {τ δ : Type}

/-! ### The graph of a group -/

section Graph

variable {g g' : Graph (NodeInfo δ)} {infos : List (NodeInfo δ)}

/-- The nodes of the graph are the functions, numbered from one. -/
structure Numbered (g : Graph (NodeInfo δ)) (infos : List (NodeInfo δ)) : Prop where
  wf : g.Wf
  max_id : g.max_id = infos.length
  info : ∀ i : Nat, g.getNodeInfo (i + 1) = infos[i]?
  noEdge : ∀ u v, ¬ g.Edge u v

theorem numbered_empty : Numbered (Graph.empty : Graph (NodeInfo δ)) [] :=
  ⟨Graph.wf_empty, rfl, fun _ => rfl, fun _ _ => List.not_mem_nil⟩

theorem Numbered.addNode (h : Numbered g infos) (info : NodeInfo δ) :
    Numbered (g.addNode info).1 (infos ++ [info]) := by
  constructor
  · exact h.wf.addNode info
  · simp [Graph.addNode, h.max_id]
  · intro i
    have hfind : (g.addNode info).1.getNodeInfo (i + 1) =
        if ((i : Int) + 1) = g.max_id + 1 then some info else g.getNodeInfo (i + 1) :=
      SortedMap.find_insert _ _ _ _
    rw [hfind, h.max_id, h.info, List.getElem?_append]
    by_cases hi : i = infos.length
    · subst hi
      simp
    · rw [if_neg (by omega)]
      split
      · rfl
      · next hge =>
          rw [List.getElem?_eq_none (by omega), List.getElem?_eq_none (by simp; omega)]
  · intro u v hedge
    exact h.noEdge u v (Graph.edge_addNode.mp hedge).2

theorem numbered_addNodes (infos : List (NodeInfo δ)) : Numbered (addNodes infos) infos := by
  induction infos using List.reverseRecOn with
  | nil => exact numbered_empty
  | append_singleton infos info ih =>
    rw [addNodes, List.foldl_append]
    exact ih.addNode info

/-- The function of a node. -/
def position (nid : Int) : Nat := (nid - 1).toNat

theorem Numbered.position_lt (h : Numbered g infos) {nid : Int} (hnid : nid ∈ g.nodeIds) :
    (position nid : Int) + 1 = nid ∧ position nid < infos.length := by
  have hrange := h.wf.range nid hnid
  have hmax := h.max_id
  rw [position]
  omega

theorem Numbered.getNodeInfo (h : Numbered g infos) {nid : Int} (hnid : nid ∈ g.nodeIds) :
    g.getNodeInfo nid = infos[position nid]? := by
  rw [← h.info, (h.position_lt hnid).1]

theorem Numbered.mem_nodeIds (h : Numbered g infos) {i : Nat} (hi : i < infos.length) :
    (i : Int) + 1 ∈ g.nodeIds := by
  rw [Graph.mem_nodeIds_iff]
  exact ⟨infos[i], by rw [h.info, List.getElem?_eq_getElem hi]⟩

/-- The graph has the arrows besides its edges. -/
structure Extended (g g' : Graph (NodeInfo δ)) (arrow : Int → Int → Prop) : Prop where
  wf : g'.Wf
  nodes : g'.nodes = g.nodes
  max_id : g'.max_id = g.max_id
  edge : ∀ u v, g'.Edge u v ↔ g.Edge u v ∨ arrow u v

theorem Extended.refl (hg : g.Wf) : Extended g g fun _ _ => False :=
  ⟨hg, rfl, rfl, fun _ _ => (or_iff_left id).symm⟩

theorem Extended.trans {g'' : Graph (NodeInfo δ)} {arrow arrow' : Int → Int → Prop}
    (h : Extended g g' arrow) (h' : Extended g' g'' arrow') :
    Extended g g'' fun u v => arrow u v ∨ arrow' u v :=
  ⟨h'.wf, h'.nodes.trans h.nodes, h'.max_id.trans h.max_id, fun u v => by
    rw [h'.edge, h.edge, or_assoc]⟩

theorem Extended.congr {arrow arrow' : Int → Int → Prop} (h : Extended g g' arrow)
    (hiff : ∀ u v, arrow u v ↔ arrow' u v) : Extended g g' arrow' :=
  ⟨h.wf, h.nodes, h.max_id, fun u v => by rw [h.edge, hiff]⟩

theorem Extended.nodeIds {arrow : Int → Int → Prop} (h : Extended g g' arrow) :
    g'.nodeIds = g.nodeIds := by
  rw [Graph.nodeIds, Graph.nodeIds, Graph.listNodes, Graph.listNodes, h.nodes]

theorem extended_addEdge (hg : g.Wf) {nid1 nid2 : Int} (h1 : nid1 ∈ g.nodeIds)
    (h2 : nid2 ∈ g.nodeIds) : Extended g (g.addEdge nid1 nid2) fun u v => u = nid1 ∧ v = nid2 :=
  ⟨hg.addEdge h1 h2, rfl, rfl, fun _ _ => Graph.edge_addEdge.trans or_comm⟩

/-- The edges from one node. -/
theorem extended_foldl {nid1 : Int} {ids : Finset Nat} {nodeList : List (Int × NodeInfo δ)}
    (hg : g.Wf) (h1 : nid1 ∈ g.nodeIds) (hnodes : ∀ node ∈ nodeList, node.1 ∈ g.nodeIds) :
    Extended g (nodeList.foldl (fun g (nid2, info2) =>
        if info2.functionId ∈ ids then g.addEdge nid1 nid2 else g) g)
      fun u v => nid1 = u ∧ ∃ node ∈ nodeList, node.1 = v ∧ node.2.functionId ∈ ids := by
  induction nodeList generalizing g with
  | nil => exact (Extended.refl hg).congr (by simp)
  | cons node nodeList ih =>
    obtain ⟨h2, hrest⟩ := List.forall_mem_cons.mp hnodes
    rw [List.foldl_cons]
    dsimp only
    by_cases hid : node.2.functionId ∈ ids
    · rw [if_pos hid]
      have hfirst := extended_addEdge hg h1 h2
      apply (hfirst.trans (ih hfirst.wf h1 hrest)).congr
      intro u v
      simp [hid, eq_comm]
      tauto
    · rw [if_neg hid]
      apply (ih hg h1 hrest).congr
      intro u v
      simp [hid]

theorem extended_addEdges {nodeList rest : List (Int × NodeInfo δ)} (hg : g.Wf)
    (hnodes : ∀ node ∈ nodeList, node.1 ∈ g.nodeIds)
    (hrest : ∀ node ∈ rest, node.1 ∈ g.nodeIds) :
    Extended g (rest.foldl (fun g (nid1, info1) =>
        nodeList.foldl (fun g (nid2, info2) =>
          if info2.functionId ∈ info1.dependentIds then g.addEdge nid1 nid2 else g) g) g)
      fun u v => ∃ node1 ∈ rest, node1.1 = u ∧
        ∃ node2 ∈ nodeList, node2.1 = v ∧ node2.2.functionId ∈ node1.2.dependentIds := by
  induction rest generalizing g with
  | nil => exact (Extended.refl hg).congr (by simp)
  | cons node rest ih =>
    obtain ⟨h1, hrest⟩ := List.forall_mem_cons.mp hrest
    rw [List.foldl_cons]
    have hfirst := @extended_foldl _ _ node.1 node.2.dependentIds nodeList hg h1 hnodes
    have htail := ih hfirst.wf (by rw [hfirst.nodeIds]; exact hnodes)
      (by rw [hfirst.nodeIds]; exact hrest)
    apply (hfirst.trans htail).congr
    intro u v
    simp only [List.mem_cons, exists_eq_or_imp]

/-- One function of the group mentions another one, as far as it was found. -/
def Depends (infos : List (NodeInfo δ)) (i j : Nat) : Prop :=
  ∃ info ∈ infos[i]?, ∃ info' ∈ infos[j]?, info'.functionId ∈ info.dependentIds

theorem Depends.lt {i j : Nat} (h : Depends infos i j) :
    i < infos.length ∧ j < infos.length := by
  obtain ⟨info, hi, info', hj, -⟩ := h
  exact ⟨(List.getElem?_eq_some_iff.mp hi).1, (List.getElem?_eq_some_iff.mp hj).1⟩

/-- The edges of the graph are the dependences between the functions. -/
theorem edge_iff (h : Numbered g infos) (hext : Extended g g' fun u v =>
      ∃ node1 ∈ g.listNodes, node1.1 = u ∧
        ∃ node2 ∈ g.listNodes, node2.1 = v ∧ node2.2.functionId ∈ node1.2.dependentIds)
    {u v : Int} (hu : u ∈ g.nodeIds) (hv : v ∈ g.nodeIds) :
    g'.Edge u v ↔ Depends infos (position u) (position v) := by
  have hnode : ∀ {nid info}, nid ∈ g.nodeIds →
      ((∃ node ∈ g.listNodes, node.1 = nid ∧ node.2 = info) ↔
        info ∈ infos[position nid]?) := by
    intro nid info hnid
    rw [Option.mem_def, ← h.getNodeInfo hnid]
    constructor
    · rintro ⟨node, hnode, rfl, rfl⟩
      exact SortedMap.find_of_mem hnode
    · intro hfind
      obtain ⟨node, hnode, rfl⟩ := List.mem_map.mp hnid
      have hsome : g.getNodeInfo node.1 = some node.2 := SortedMap.find_of_mem hnode
      exact ⟨node, hnode, rfl, Option.some.inj (hsome.symm.trans hfind)⟩
  rw [hext.edge, or_iff_right (h.noEdge u v)]
  constructor
  · rintro ⟨node1, hmem1, rfl, node2, hmem2, rfl, hid⟩
    exact ⟨node1.2, (hnode hu).mp ⟨node1, hmem1, rfl, rfl⟩, node2.2,
      (hnode hv).mp ⟨node2, hmem2, rfl, rfl⟩, hid⟩
  · rintro ⟨info, hi, info', hj, hid⟩
    obtain ⟨node1, hmem1, rfl, rfl⟩ := (hnode hu).mpr hi
    obtain ⟨node2, hmem2, rfl, rfl⟩ := (hnode hv).mpr hj
    exact ⟨node1, hmem1, rfl, node2, hmem2, rfl, hid⟩

/-- The components of the graph are those of the dependences. -/
theorem isComponents_positions (h : Numbered g infos) (hext : Extended g g' fun u v =>
      ∃ node1 ∈ g.listNodes, node1.1 = u ∧
        ∃ node2 ∈ g.listNodes, node2.1 = v ∧ node2.2.functionId ∈ node1.2.dependentIds)
    {components : List (List Int)} (hcomponents : IsComponents g'.Edge g'.nodeIds components) :
    IsComponents (Depends infos) (List.range infos.length)
      (components.map (List.map position)) := by
  rw [hext.nodeIds] at hcomponents
  have hrenames : Renames g'.Edge (Depends infos) g.nodeIds position := by
    constructor
    · intro u hu v hv heq
      rw [← (h.position_lt hu).1, heq, (h.position_lt hv).1]
    · intro u hu v hv
      exact (edge_iff h hext hu hv).symm
    · intro u hu j hdepends
      have hj := h.mem_nodeIds hdepends.lt.2
      exact ⟨(j : Int) + 1, hj, by simp [position]⟩
    · intro u hu v hedge
      have hnode := (hext.wf.edge u v hedge).2
      rwa [hext.nodeIds] at hnode
  apply (hcomponents.map hrenames).of_mem_iff
  intro i
  rw [List.mem_range, List.mem_map]
  constructor
  · rintro ⟨u, hu, rfl⟩
    exact (h.position_lt hu).2
  · intro hi
    exact ⟨(i : Int) + 1, h.mem_nodeIds hi, by simp [position]⟩

end Graph

/-! ### The declarations of a group -/

/-- The declaration of the functions of a component. -/
inductive Emits (recursive : List δ → Decl Unit τ) (single : δ → Decl Unit τ)
    (infos : List (NodeInfo δ)) : List Nat → Decl Unit τ → Prop
  | recursive {c : List Nat} {members : List (NodeInfo δ)} :
      List.Forall₂ (fun i info => infos[i]? = some info) c members →
      Emits recursive single infos c (recursive (members.map NodeInfo.functionDecl))
  | single {i : Nat} {info : NodeInfo δ} : infos[i]? = some info →
      info.functionId ∉ info.dependentIds →
      Emits recursive single infos [i] (single info.functionDecl)

section Split

variable {recursive : List δ → Decl Unit τ} {single : δ → Decl Unit τ}
  {infos : List (NodeInfo δ)} {g : Graph (NodeInfo δ)}

theorem emit_emits {c : List Int} (hne : c ≠ []) (hinfo : ∀ nid ∈ c, ∃ info,
      getInfo g nid = .ok info ∧ infos[position nid]? = some info) :
    ∃ out, emit recursive single g c = .ok out ∧
      Emits recursive single infos (c.map position) out := by
  match c with
  | [] => exact absurd rfl hne
  | [nid] =>
    obtain ⟨info, hget, hposition⟩ := hinfo nid List.mem_cons_self
    rw [emit, hget, except_ok_bind]
    by_cases hself : info.functionId ∈ info.dependentIds
    · rw [if_pos hself]
      exact ⟨_, rfl, @Emits.recursive _ _ recursive single infos [position nid] [info]
        (.cons hposition .nil)⟩
    · rw [if_neg hself]
      exact ⟨_, rfl, .single hposition hself⟩
  | nid :: nid' :: rest =>
    obtain ⟨members, hmembers, hall⟩ := mapM_forall₂ hinfo
    refine ⟨recursive (members.map NodeInfo.functionDecl), ?_,
      .recursive (List.forall₂_map_left_iff.mpr hall)⟩
    change ((nid :: nid' :: rest).mapM (getInfo g) >>= _) = _
    rw [hmembers]
    rfl

theorem splitGroup_emits (infos : List (NodeInfo δ)) :
    ∃ outs components, splitGroup recursive single infos = .ok outs ∧
      IsComponents (Function.swap (Depends infos)) (List.range infos.length) components ∧
      List.Forall₂ (Emits recursive single infos) components outs := by
  have hnumbered := numbered_addNodes infos
  have hnodes : ∀ node ∈ (addNodes infos).listNodes, node.1 ∈ (addNodes infos).nodeIds :=
    fun node hnode => List.mem_map_of_mem hnode
  have hext := extended_addEdges hnumbered.wf hnodes hnodes
  obtain ⟨scc, hscc, hcomponents⟩ := Graph.scc_components _ hext.wf
  have hpositions := (isComponents_positions hnumbered hext hcomponents).reverse
  have hemit : ∀ c ∈ scc.reverse.map List.reverse, ∃ out,
      emit recursive single (addEdges (addNodes infos).listNodes (addNodes infos)) c = .ok out ∧
        Emits recursive single infos (c.map position) out := by
    intro c hc
    obtain ⟨c, hmem, rfl⟩ := List.mem_map.mp hc
    rw [List.mem_reverse] at hmem
    apply emit_emits
    · intro hnil
      rw [List.reverse_eq_nil_iff] at hnil
      exact hcomponents.nonempty (hnil ▸ hmem)
    · intro nid hnid
      have hnode := (hcomponents.mem_flatten nid).mp
        (List.mem_flatten.mpr ⟨c, hmem, List.mem_reverse.mp hnid⟩)
      rw [hext.nodeIds] at hnode
      have hlt := (hnumbered.position_lt hnode).2
      have hget := hnumbered.getNodeInfo hnode
      rw [List.getElem?_eq_getElem hlt] at hget ⊢
      refine ⟨_, ?_, rfl⟩
      have hsame : (addEdges (addNodes infos).listNodes (addNodes infos)).getNodeInfo nid =
          (addNodes infos).getNodeInfo nid := by
        rw [Graph.getNodeInfo, Graph.getNodeInfo]
        exact congrArg (fun nodes => SortedMap.find nodes nid) hext.nodes
      rw [getInfo, hsame, hget]
  obtain ⟨outs, houts, hall⟩ := mapM_forall₂ hemit
  refine ⟨outs, _, ?_, hpositions, ?_⟩
  · rw [splitGroup]
    exact (congrArg (· >>= _) hscc).trans houts
  · have hmaps : (List.map (List.map position) scc).reverse.map List.reverse =
        (scc.reverse.map List.reverse).map (List.map position) := by
      simp [List.map_reverse, Function.comp_def]
    rw [hmaps]
    exact List.forall₂_map_left_iff.mpr hall

end Split

end VALRECOptimizer

end SmlSharp
