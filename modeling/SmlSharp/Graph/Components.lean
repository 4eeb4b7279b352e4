/-
`scc` returns the strongly connected components of every graph.
-/
import Mathlib.Data.Finset.Card
import SmlSharp.Graph.Search
import SmlSharp.Lib.Except

namespace SmlSharp

namespace Graph

open Relation

variable {η : Type}

/-! ### Building graphs -/

section Build

variable {g : Graph η} {nodeInfo : η} {u v a b : Int}

theorem mem_add {ns : ISet} {n n' : Int} :
    n' ∈ (ISet.add ns n).listKeys ↔ n' = n ∨ n' ∈ ns.listKeys :=
  SortedMap.mem_listKeys_insert

theorem getOutGoingNodes_addEdge : (g.addEdge u v).getOutGoingNodes a =
      if a = u then ISet.add (g.getOutGoingNodes u) v else g.getOutGoingNodes a := by
  simp only [getOutGoingNodes, addEdge, SortedMap.find_insert]
  by_cases ha : a = u
  · simp only [if_pos ha]
    cases g.edges.find u with
    | none => rfl
    | some ns => rfl
  · simp only [if_neg ha]

theorem edge_addEdge :
    (g.addEdge u v).Edge a b ↔ a = u ∧ b = v ∨ g.Edge a b := by
  unfold Edge
  rw [getOutGoingNodes_addEdge]
  by_cases ha : a = u
  · simp [ha, mem_add]
  · simp [ha]

theorem edge_addNode :
    (g.addNode nodeInfo).1.Edge a b ↔ a ≠ g.max_id + 1 ∧ g.Edge a b := by
  unfold Edge getOutGoingNodes addNode
  simp only [SortedMap.find_insert]
  by_cases ha : a = g.max_id + 1
  · simp [ha, SortedMap.empty, SortedMap.listKeys]
  · simp [ha]

theorem mem_nodeIds_iff : v ∈ g.nodeIds ↔ ∃ info, g.getNodeInfo v = some info :=
  SortedMap.mem_listKeys_iff

theorem nodeIds_addEdge : (g.addEdge u v).nodeIds = g.nodeIds := rfl

theorem mem_nodeIds_addNode :
    a ∈ (g.addNode nodeInfo).1.nodeIds ↔ a = g.max_id + 1 ∨ a ∈ g.nodeIds :=
  SortedMap.mem_listKeys_insert

theorem wf_empty : (empty : Graph η).Wf := by
  constructor
  · exact le_rfl
  · simp [nodeIds, listNodes, empty, SortedMap.empty]
  · intro u v hedge
    exact absurd hedge List.not_mem_nil

theorem Wf.addNode (h : g.Wf) (nodeInfo : η) : (g.addNode nodeInfo).1.Wf := by
  have hpos := h.max_id_nonneg
  constructor
  · simp only [Graph.addNode]
    omega
  · intro v hv
    simp only [Graph.addNode]
    rcases mem_nodeIds_addNode.mp hv with rfl | hv
    · omega
    · have hrange := h.range v hv
      omega
  · intro u v hedge
    have hold := h.edge u v (edge_addNode.mp hedge).2
    exact ⟨mem_nodeIds_addNode.mpr (Or.inr hold.1),
      mem_nodeIds_addNode.mpr (Or.inr hold.2)⟩

theorem Wf.addEdge (h : g.Wf) (hu : u ∈ g.nodeIds) (hv : v ∈ g.nodeIds) :
    (g.addEdge u v).Wf := by
  refine ⟨h.max_id_nonneg, h.range, ?_⟩
  intro a b hedge
  rw [nodeIds_addEdge]
  rcases edge_addEdge.mp hedge with ⟨rfl, rfl⟩ | hedge
  · exact ⟨hu, hv⟩
  · exact h.edge a b hedge

end Build

/-! ### Array accesses -/

section Access

variable {g : Graph η} {s : State} {v : Int}

theorem Wf.index (hg : g.Wf) (hv : v ∈ g.nodeIds) : 0 ≤ v ∧ v < g.max_id + 1 := by
  have hrange := hg.range v hv
  omega

theorem Sized.sub_dfnumber (h : Sized g s) (hg : g.Wf) (hv : v ∈ g.nodeIds) :
    s.dfnumber.sub v = .ok (s.dfn v) :=
  Table.sub_ok (h.dfnumber ▸ hg.index hv)

theorem Sized.sub_lowlink (h : Sized g s) (hg : g.Wf) (hv : v ∈ g.nodeIds) :
    s.lowlink.sub v = .ok (s.low v) :=
  Table.sub_ok (h.lowlink ▸ hg.index hv)

theorem Sized.sub_onstack (h : Sized g s) (hg : g.Wf) (hv : v ∈ g.nodeIds) :
    s.onstack.sub v = .ok (s.onstack.get v) :=
  Table.sub_ok (h.onstack ▸ hg.index hv)

theorem Sized.update_lowlink (h : Sized g s) (hg : g.Wf) (hv : v ∈ g.nodeIds)
    (x : Int) : s.lowlink.update v x = .ok (s.lowlink.set v x) :=
  Table.update_ok (h.lowlink ▸ hg.index hv) x

theorem ite_gt_eq_min (x y : Int) : (if x > y then y else x) = min x y := by
  split <;> omega

end Access

/-! ### One edge -/

section Edges

variable {g : Graph η} {s : State} {nid n : Int}
  {dfs : Int → State → Except GraphExn State}

theorem followEdge_new (hg : g.Wf) (hs : Sized g s) (hnid : nid ∈ g.nodeIds)
    (hn : n ∈ g.nodeIds) (hnew : ¬ s.Visited n) {s' : State}
    (hdfs : dfs n s = .ok s') (hs' : Sized g s') : followEdge dfs nid s n =
      .ok (s'.lower nid (min (s'.low n) (s'.low nid))) := by
  rw [State.Visited, not_not] at hnew
  simp only [followEdge, hs.sub_dfnumber hg hn, except_ok_bind, if_pos hnew, hdfs,
    hs'.sub_lowlink hg hn, hs'.sub_lowlink hg hnid, hs'.update_lowlink hg hnid,
    ite_gt_eq_min]
  rfl

theorem followEdge_old (hg : g.Wf) (hs : Sized g s) (hnid : nid ∈ g.nodeIds)
    (hn : n ∈ g.nodeIds) (hvisited : s.Visited n) : followEdge dfs nid s n =
      .ok (if s.dfn n < s.dfn nid ∧ s.onstack.get n = true
        then s.lower nid (min (s.low n) (s.low nid)) else s) := by
  simp only [followEdge, hs.sub_dfnumber hg hn, except_ok_bind,
    if_neg hvisited, hs.sub_dfnumber hg hnid, hs.sub_onstack hg hn,
    hs.sub_lowlink hg hn, hs.sub_lowlink hg hnid, hs.update_lowlink hg hnid,
    ite_gt_eq_min]
  by_cases hlt : s.dfn n < s.dfn nid
  · by_cases hon : s.onstack.get n = true
    · simp only [if_pos hlt, if_pos hon, if_pos (And.intro hlt hon)]
      rfl
    · simp only [if_pos hlt, if_neg hon, if_neg (not_and_of_not_right _ hon)]
      rfl
  · simp only [if_neg hlt, if_neg (not_and_of_not_left _ hlt)]
    rfl

theorem getComponent_append (hg : g.Wf) {above : List Int} (rest : List Int)
    {onstack : Table Bool} (hsize : onstack.size = g.max_id + 1)
    (habove : ∀ v ∈ above, v ∈ g.nodeIds ∧ v ≠ nid) (hnid : nid ∈ g.nodeIds) :
    getComponent nid (above ++ nid :: rest) onstack = .ok (above ++ [nid], rest,
        (above ++ [nid]).foldl (fun onstack n => onstack.set n false) onstack) := by
  induction above generalizing onstack with
  | nil =>
    have hupdate := Table.update_ok (hsize ▸ hg.index hnid) false
    simp only [List.nil_append, getComponent, hupdate, except_ok_bind, if_true,
      List.foldl_cons, List.foldl_nil]
    rfl
  | cons v above ih =>
    obtain ⟨⟨hv, hne⟩, habove⟩ := List.forall_mem_cons.mp habove
    have hupdate := Table.update_ok (hsize ▸ hg.index hv) false
    simp only [List.cons_append, getComponent, hupdate, except_ok_bind, if_neg hne,
      ih (show (onstack.set v false).size = _ from hsize) habove, List.foldl_cons]
    rfl

end Edges

/-! ### Calls of `dfs` -/

/-- The nodes that the search has not met. -/
def unvisited (g : Graph η) (s : State) : Finset Int :=
  g.nodeIds.toFinset.filter fun v => s.dfn v = -1

section Calls

variable {g : Graph η} {gray : List Int} {s t : State} {nid : Int}
  {seen : List Int}

theorem mem_unvisited {v : Int} :
    v ∈ unvisited g s ↔ v ∈ g.nodeIds ∧ ¬ s.Visited v := by
  simp [unvisited, State.Visited]

theorem unvisited_card_le (hmono : ∀ v, s.Visited v → t.Visited v) :
    (unvisited g t).card ≤ (unvisited g s).card := by
  apply Finset.card_le_card
  intro v hv
  rw [mem_unvisited] at hv ⊢
  exact ⟨hv.1, fun hvisited => hv.2 (hmono v hvisited)⟩

theorem Scan.unvisited_lt (h : Scan g gray s nid seen t) (hnode : nid ∈ g.nodeIds)
    (hnew : ¬ s.Visited nid) : (unvisited g t).card < (unvisited g s).card := by
  apply Finset.card_lt_card
  rw [Finset.ssubset_iff_of_subset]
  · refine ⟨nid, mem_unvisited.mpr ⟨hnode, hnew⟩, ?_⟩
    rw [mem_unvisited, not_and_not_right]
    intro _
    exact h.inv.visited_of_mem h.nid_mem
  · intro v hv
    rw [mem_unvisited] at hv ⊢
    refine ⟨hv.1, fun hvisited => hv.2 ?_⟩
    rw [State.Visited, h.dfn v hvisited]
    exact hvisited

/-- All edges of a node are followed when the search returns from every node
that it enters. -/
theorem foldlM_followEdge {fuel : Nat} {dfs : Int → State → Except GraphExn State}
    (hg : g.Wf) (hnode : nid ∈ g.nodeIds) (hnew : ¬ s.Visited nid)
    (hfuel : (unvisited g s).card ≤ fuel)
    (hdfs : ∀ t n, Inv g (nid :: gray) t → n ∈ g.nodeIds → ¬ t.Visited n →
      (∀ x ∈ nid :: gray, g.Reach x n) → (unvisited g t).card < fuel →
      ∃ t', dfs n t = .ok t' ∧ Left g (nid :: gray) t n t')
    (ns : List Int) (hns : ∀ n ∈ ns, g.Edge nid n) (h : Scan g gray s nid seen t) :
    ∃ t', ns.foldlM (followEdge dfs nid) t = .ok t' ∧
      Scan g gray s nid (ns.reverse ++ seen) t' := by
  induction ns generalizing seen t with
  | nil => exact ⟨t, rfl, h⟩
  | cons n ns ih =>
    obtain ⟨hedge, hns⟩ := List.forall_mem_cons.mp hns
    have hn := (hg.edge nid n hedge).2
    have hstep : ∃ t', followEdge dfs nid t n = .ok t' ∧
        Scan g gray s nid (n :: seen) t' := by
      by_cases hvisited : t.Visited n
      · refine ⟨_, followEdge_old hg h.inv.sized hnode hn hvisited, ?_⟩
        split
        · next hback => exact h.back hedge ((h.inv.onstack n).mp hback.2)
        · next hskip =>
            rw [h.inv.onstack n] at hskip
            exact h.skip hvisited hskip
      · have hreach : ∀ x ∈ nid :: gray, g.Reach x n := by
          intro x hx
          apply ReflTransGen.tail _ hedge
          apply h.inv.fromGray x hx nid h.nid_mem
          rcases List.mem_cons.mp hx with rfl | hx
          · exact le_rfl
          · exact (h.lt_nid (h.gray_mem x hx)).le
        have hlt := h.unvisited_lt hnode hnew
        obtain ⟨t', hrun, hleft⟩ := hdfs t n h.inv hn hvisited hreach (by omega)
        exact ⟨_, followEdge_new hg h.inv.sized hnode hn hvisited hrun hleft.inv.sized,
          h.tree hedge hvisited hleft⟩
    obtain ⟨t', hrun, hscan⟩ := hstep
    obtain ⟨t'', hrest, hscan'⟩ := ih hns hscan
    refine ⟨t'', ?_, ?_⟩
    · rw [List.foldlM_cons, hrun]
      exact hrest
    · rw [List.reverse_cons, List.append_assoc]
      exact hscan'

/-- A call of `dfs` returns, and leaves the invariant. -/
theorem dfs_left (hg : g.Wf) (fuel : Nat) : ∀ gray s nid, Inv g gray s →
    nid ∈ g.nodeIds → ¬ s.Visited nid → (∀ x ∈ gray, g.Reach x nid) →
    (unvisited g s).card < fuel →
    ∃ s', dfs g fuel nid s = .ok s' ∧ Left g gray s nid s' := by
  induction fuel with
  | zero =>
    intro gray s nid _ _ _ _ hfuel
    exact absurd hfuel (Nat.not_lt_zero _)
  | succ fuel ih =>
    intro gray s nid h hnode hnew hreach hfuel
    have hindex := hg.index hnode
    obtain ⟨t, hrun, hscan⟩ := foldlM_followEdge hg hnode hnew
      (Nat.le_of_lt_succ hfuel) (ih (nid :: gray)) _ (fun n hn => hn)
      (h.scan hnode hnew hreach)
    have hseen : ∀ w, g.Edge nid w →
        w ∈ (g.getOutGoingNodes nid).listKeys.reverse ++ [] := by
      intro w hw
      rw [List.append_nil, List.mem_reverse]
      exact hw
    have hdfs : dfs g (fuel + 1) nid s =
        if t.low nid = t.dfn nid then do
          let r ← getComponent nid t.st t.onstack
          pure { t with
            st := r.2.1, onstack := r.2.2, components := r.1 :: t.components }
        else pure t := by
      rw [dfs, Table.update_ok (h.sized.dfnumber ▸ hindex), except_ok_bind,
        Table.update_ok (h.sized.lowlink ▸ hindex), except_ok_bind,
        Table.update_ok (h.sized.onstack ▸ hindex), except_ok_bind]
      change (List.foldlM (followEdge (dfs g fuel) nid) (s.push nid) _ >>= _) = _
      rw [hrun, except_ok_bind, hscan.inv.sized.sub_lowlink hg hnode, except_ok_bind,
        hscan.inv.sized.sub_dfnumber hg hnode, except_ok_bind]
    by_cases hlow : t.low nid = t.dfn nid
    · obtain ⟨above, hst⟩ := hscan.suffix
      have habove : ∀ v ∈ above, v ∈ g.nodeIds ∧ v ≠ nid := by
        intro v hv
        have hv_st : v ∈ t.st := hst ▸ List.mem_append_left _ hv
        refine ⟨hscan.inv.node v (hscan.inv.visited_of_mem hv_st), ?_⟩
        rintro rfl
        have hsorted := hscan.inv.sorted
        rw [← hst, List.pairwise_append] at hsorted
        exact lt_irrefl _ (hsorted.2.2 v hv v List.mem_cons_self)
      refine ⟨t.pop (above ++ [nid]) s.st, ?_,
        hscan.pop hseen hlow (hscan.above hst.symm)⟩
      rw [hdfs, if_pos hlow, ← hst,
        getComponent_append hg s.st hscan.inv.sized.onstack habove hnode]
      rfl
    · refine ⟨t, ?_, hscan.keep hseen hlow⟩
      rw [hdfs, if_neg hlow]
      rfl

theorem dfsAll_visits (hg : g.Wf) (fuel : Nat) (ns : List Int)
    (hns : ∀ n ∈ ns, n ∈ g.nodeIds) (h : Inv g [] s)
    (hfuel : (unvisited g s).card < fuel) :
    ∃ s', dfsAll g fuel ns s = .ok s' ∧ Inv g [] s' ∧
      (∀ v, s.Visited v → s'.Visited v) ∧ ∀ n ∈ ns, s'.Visited n := by
  induction ns generalizing s with
  | nil => exact ⟨s, rfl, h, fun _ hv => hv, by simp⟩
  | cons n ns ih =>
    obtain ⟨hn, hns⟩ := List.forall_mem_cons.mp hns
    by_cases hvisited : s.Visited n
    · obtain ⟨s', hrun, hinv, hmono, hall⟩ := ih hns h hfuel
      refine ⟨s', ?_, hinv, hmono, List.forall_mem_cons.mpr ⟨hmono n hvisited, hall⟩⟩
      rw [dfsAll, h.sized.sub_dfnumber hg hn, except_ok_bind, if_neg hvisited]
      exact hrun
    · obtain ⟨t, hdfs, hleft⟩ := dfs_left hg fuel [] s n h hn hvisited (by simp) hfuel
      have hmono_t : ∀ v, s.Visited v → t.Visited v := fun _ => hleft.visited_mono
      obtain ⟨s', hrun, hinv, hmono, hall⟩ :=
        ih hns hleft.inv ((unvisited_card_le hmono_t).trans_lt hfuel)
      refine ⟨s', ?_, hinv, fun v hv => hmono v (hmono_t v hv),
        List.forall_mem_cons.mpr ⟨hmono n hleft.visited, hall⟩⟩
      rw [State.Visited, not_not] at hvisited
      rw [dfsAll, h.sized.sub_dfnumber hg hn, except_ok_bind, if_pos hvisited, hdfs]
      exact hrun

end Calls

/-- The state in which `scc` begins. -/
theorem inv_start (g : Graph η) :
    Inv g [] ⟨1, Table.array (g.max_id + 1) (-1), Table.array (g.max_id + 1) 0,
      Table.array (g.max_id + 1) false, [], []⟩ := by
  constructor
  · exact ⟨rfl, rfl, rfl⟩
  · exact le_rfl
  · simp [State.Visited, State.dfn, State.done, Table.array]
  · simp [State.Visited, State.dfn, Table.array]
  · simp [State.Visited, State.dfn, Table.array]
  · simp [Table.array]
  · simp
  · simp
  · exact finished_nil
  · simp
  · simp
  · simp
  · simp
  · simp
  · simp

theorem unvisited_lt (g : Graph η) (s : State) :
    (unvisited g s).card < g.listNodes.length + 1 := by
  have hcard : (unvisited g s).card ≤ g.nodeIds.toFinset.card :=
    Finset.card_filter_le _ _
  have hlength : g.nodeIds.length = g.listNodes.length := List.length_map _
  have hnodes := List.toFinset_card_le g.nodeIds
  omega

/-- Where no search is open and all nodes are visited, the components are those
of the graph. -/
theorem Inv.isComponents {g : Graph η} {s : State} (h : Inv g [] s)
    (hall : ∀ n ∈ g.nodeIds, s.Visited n) :
    IsComponents g.Edge g.nodeIds s.components := by
  apply h.finished.isComponents
  intro v
  have hclosed : v ∉ s.st := by
    intro hv
    obtain ⟨x, hx, -⟩ := h.toGray v hv
    simp at hx
  have hvisited := h.visited_iff v
  exact ⟨fun hv => h.node v (hvisited.mpr (Or.inr hv)),
    fun hv => (hvisited.mp (hall v hv)).resolve_left hclosed⟩

/-- The search ends, with every node visited. -/
theorem scc_ok {g : Graph η} (hg : g.Wf) :
    ∃ s, g.scc = .ok s.components ∧ Inv g [] s ∧ ∀ n ∈ g.nodeIds, s.Visited n := by
  obtain ⟨s, hrun, hinv, -, hall⟩ :=
    dfsAll_visits hg _ g.nodeIds (fun _ hn => hn) (inv_start g) (unvisited_lt g _)
  refine ⟨s, ?_, hinv, hall⟩
  rw [scc, ← nodeIds, hrun]
  rfl

/-- `scc` returns the strongly connected components of a graph, sources
first. -/
theorem scc_components (g : Graph η) (hg : g.Wf) :
    ∃ components, g.scc = .ok components ∧
      IsComponents g.Edge g.nodeIds components := by
  obtain ⟨s, hrun, hinv, hall⟩ := scc_ok hg
  exact ⟨s.components, hrun, hinv.isComponents hall⟩

/-- A graph with a cycle, a self loop and an edge that is added twice. -/
def cyclic : Graph String :=
  let g := ((((empty.addNode "a").1.addNode "b").1.addNode "c").1.addNode "d").1
  (((((g.addEdge 3 1).addEdge 1 2).addEdge 2 1).addEdge 4 4).addEdge 2 4).addEdge 2 4

theorem cyclic_wf : cyclic.Wf := by
  apply_rules [Wf.addEdge, Wf.addNode, wf_empty] <;> decide

/-- The cycle of two nodes is one component; the node before it comes first. -/
theorem scc_components_cyclic :
    ∃ components, cyclic.scc = .ok components ∧
      IsComponents cyclic.Edge cyclic.nodeIds components :=
  scc_components cyclic cyclic_wf

example : cyclic.scc.toOption = some [[3], [2, 1], [4]] := by decide

end Graph

end SmlSharp
