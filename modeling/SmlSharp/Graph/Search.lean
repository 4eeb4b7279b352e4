/-
The invariant of the depth-first search: what is on the stack, what the low
links are, and which components are finished.
-/
import SmlSharp.Graph.Scc
import SmlSharp.Lib.Components
import Mathlib.Tactic.Common

namespace SmlSharp

namespace Graph

open Relation

variable {η : Type}

def nodeIds (g : Graph η) : List Int := g.listNodes.map Prod.fst

def Edge (g : Graph η) (u v : Int) : Prop :=
  v ∈ (g.getOutGoingNodes u).listKeys

abbrev Reach (g : Graph η) : Int → Int → Prop := ReflTransGen g.Edge

/-- The nodes are numbered from one, and edges join nodes. -/
structure Wf (g : Graph η) : Prop where
  max_id_nonneg : 0 ≤ g.max_id
  range : ∀ v ∈ g.nodeIds, 1 ≤ v ∧ v ≤ g.max_id
  edge : ∀ u v, g.Edge u v → u ∈ g.nodeIds ∧ v ∈ g.nodeIds

/-! ### States of the search -/

section States

variable (s : State) (nid v x : Int) (c rest : List Int)

def State.dfn : Int := s.dfnumber.get v

def State.low : Int := s.lowlink.get v

def State.Visited : Prop := s.dfn v ≠ -1

/-- The nodes of finished components. -/
def State.done : List Int := s.components.flatten

/-- `dfs` begins with a node. -/
def State.push : State :=
  { s with
    count := s.count + 1,
    dfnumber := s.dfnumber.set nid s.count,
    lowlink := s.lowlink.set nid s.count,
    onstack := s.onstack.set nid true,
    st := nid :: s.st }

def State.lower : State := { s with lowlink := s.lowlink.set nid x }

/-- The nodes above the rest of the stack become a component. -/
def State.pop : State :=
  { s with
    st := rest,
    onstack := c.foldl (fun onstack n => onstack.set n false) s.onstack,
    components := c :: s.components }

@[simp]
theorem State.st_push : (s.push nid).st = nid :: s.st := rfl

@[simp]
theorem State.count_push : (s.push nid).count = s.count + 1 := rfl

@[simp]
theorem State.done_push : (s.push nid).done = s.done := rfl

@[simp]
theorem State.dfn_push :
    (s.push nid).dfn v = if v = nid then s.count else s.dfn v :=
  Table.get_set s.dfnumber nid v s.count

@[simp]
theorem State.low_push :
    (s.push nid).low v = if v = nid then s.count else s.low v :=
  Table.get_set s.lowlink nid v s.count

@[simp]
theorem State.st_lower : (s.lower nid x).st = s.st := rfl

@[simp]
theorem State.dfn_lower : (s.lower nid x).dfn v = s.dfn v := rfl

@[simp]
theorem State.low_lower : (s.lower nid x).low v = if v = nid then x else s.low v :=
  Table.get_set s.lowlink nid v x

@[simp]
theorem State.st_pop : (s.pop c rest).st = rest := rfl

@[simp]
theorem State.dfn_pop : (s.pop c rest).dfn v = s.dfn v := rfl

@[simp]
theorem State.low_pop : (s.pop c rest).low v = s.low v := rfl

@[simp]
theorem State.done_pop : (s.pop c rest).done = c ++ s.done := rfl

variable {s nid}

theorem State.visited_push (hcount : 1 ≤ s.count) :
    (s.push nid).Visited v ↔ v = nid ∨ s.Visited v := by
  by_cases hv : v = nid
  · have hne : s.count ≠ -1 := by omega
    simp [State.Visited, hv, hne]
  · simp [State.Visited, hv]

end States

structure Sized (g : Graph η) (s : State) : Prop where
  dfnumber : s.dfnumber.size = g.max_id + 1
  lowlink : s.lowlink.size = g.max_id + 1
  onstack : s.onstack.size = g.max_id + 1

/-- The invariant.  The `gray` nodes are those that the search has not left. -/
structure Inv (g : Graph η) (gray : List Int) (s : State) : Prop where
  sized : Sized g s
  count_pos : 1 ≤ s.count
  visited_iff : ∀ v, s.Visited v ↔ v ∈ s.st ∨ v ∈ s.done
  node : ∀ v, s.Visited v → v ∈ g.nodeIds
  number : ∀ v, s.Visited v → 1 ≤ s.dfn v ∧ s.dfn v < s.count
  onstack : ∀ v, s.onstack.get v = true ↔ v ∈ s.st
  sorted : s.st.Pairwise fun v w => s.dfn w < s.dfn v
  disjoint : ∀ v ∈ s.st, v ∉ s.done
  finished : Finished g.Edge s.components
  gray_mem : ∀ x ∈ gray, x ∈ s.st
  fromGray : ∀ x ∈ gray, ∀ y ∈ s.st, s.dfn x ≤ s.dfn y → g.Reach x y
  toGray : ∀ y ∈ s.st, ∃ x ∈ gray, s.dfn x ≤ s.dfn y ∧ g.Reach y x
  expanded : ∀ v ∈ s.st, v ∉ gray → ∀ w, g.Edge v w → s.Visited w
  low_eq : ∀ v ∈ s.st, ∃ w ∈ s.st, s.low v = s.dfn w ∧ g.Reach v w
  low_le : ∀ v ∈ s.st, s.low v ≤ s.dfn v

section Steps

variable {g : Graph η} {gray : List Int} {s : State} {nid : Int}

theorem Inv.unvisited (h : Inv g gray s) (hnew : ¬ s.Visited nid) :
    nid ∉ s.st ∧ nid ∉ s.done := by
  rw [h.visited_iff, not_or] at hnew
  exact hnew

theorem Inv.visited_of_mem (h : Inv g gray s) {v : Int} (hv : v ∈ s.st) :
    s.Visited v := (h.visited_iff v).mpr (Or.inl hv)

/-- A new node that all gray nodes reach. -/
theorem Inv.push (h : Inv g gray s) (hnode : nid ∈ g.nodeIds)
    (hnew : ¬ s.Visited nid) (hreach : ∀ x ∈ gray, g.Reach x nid) :
    Inv g (nid :: gray) (s.push nid) := by
  obtain ⟨hst, hdone⟩ := h.unvisited hnew
  have hne : ∀ {v}, v ∈ s.st → v ≠ nid := by
    rintro v hv rfl
    exact hst hv
  have hlt : ∀ {v}, v ∈ s.st → s.dfn v < s.count := fun hv =>
    (h.number _ (h.visited_of_mem hv)).2
  have hpos := h.count_pos
  constructor
  · exact ⟨h.sized.dfnumber, h.sized.lowlink, h.sized.onstack⟩
  · rw [State.count_push]
    omega
  · intro v
    rw [State.visited_push v hpos, h.visited_iff, State.st_push, List.mem_cons,
      or_assoc, State.done_push]
  · intro v hv
    rcases (State.visited_push v hpos).mp hv with rfl | hv
    · exact hnode
    · exact h.node v hv
  · intro v hv
    rw [State.dfn_push, State.count_push]
    split
    · omega
    · next hv' =>
        have hold := ((State.visited_push v hpos).mp hv).resolve_left hv'
        have hnumber := h.number v hold
        omega
  · intro v
    rw [State.st_push, List.mem_cons, ← h.onstack v]
    simp [State.push]
  · rw [State.st_push, List.pairwise_cons]
    constructor
    · intro w hw
      simpa [hne hw] using hlt hw
    · apply h.sorted.imp_of_mem
      intro v w hv hw hvw
      simpa [hne hv, hne hw] using hvw
  · intro v hv
    rcases List.mem_cons.mp hv with rfl | hv
    · exact hdone
    · exact h.disjoint v hv
  · exact h.finished
  · intro x hx
    rcases List.mem_cons.mp hx with rfl | hx
    · exact List.mem_cons_self
    · exact List.mem_cons_of_mem _ (h.gray_mem x hx)
  · intro x hx y hy hle
    rw [State.st_push, List.mem_cons] at hy
    rcases List.mem_cons.mp hx with rfl | hgray
    · rcases hy with rfl | hy
      · exact ReflTransGen.refl
      · simp only [State.dfn_push, if_true, if_neg (hne hy)] at hle
        exact absurd (hlt hy) (not_lt.mpr hle)
    · have hx' := h.gray_mem x hgray
      rcases hy with rfl | hy
      · exact hreach x hgray
      · simp only [State.dfn_push, if_neg (hne hx'), if_neg (hne hy)] at hle
        exact h.fromGray x hgray y hy hle
  · intro y hy
    rcases List.mem_cons.mp hy with rfl | hy
    · exact ⟨y, List.mem_cons_self, le_rfl, ReflTransGen.refl⟩
    · obtain ⟨x, hx, hle, hyx⟩ := h.toGray y hy
      refine ⟨x, List.mem_cons_of_mem _ hx, ?_, hyx⟩
      simpa [hne hy, hne (h.gray_mem x hx)] using hle
  · intro v hv hgray w hedge
    rw [List.mem_cons, not_or] at hgray
    have hold := (List.mem_cons.mp hv).resolve_left hgray.1
    exact (State.visited_push w hpos).mpr
      (Or.inr (h.expanded v hold hgray.2 w hedge))
  · intro v hv
    rcases List.mem_cons.mp hv with rfl | hv
    · refine ⟨v, List.mem_cons_self, ?_, ReflTransGen.refl⟩
      simp
    · obtain ⟨w, hw, hlow, hvw⟩ := h.low_eq v hv
      refine ⟨w, List.mem_cons_of_mem _ hw, ?_, hvw⟩
      simpa [hne hv, hne hw] using hlow
  · intro v hv
    rcases List.mem_cons.mp hv with rfl | hv
    · simp
    · simpa [hne hv] using h.low_le v hv

/-- A low link becomes the number of a node that is reached. -/
theorem Inv.lower (h : Inv g gray s) {x : Int} (hle : x ≤ s.dfn nid)
    (hreach : ∃ w ∈ s.st, x = s.dfn w ∧ g.Reach nid w) :
    Inv g gray (s.lower nid x) := by
  obtain ⟨w, hw, hx, hnid⟩ := hreach
  refine ⟨⟨h.sized.dfnumber, h.sized.lowlink, h.sized.onstack⟩, h.count_pos,
    h.visited_iff, h.node, h.number, h.onstack, h.sorted, h.disjoint, h.finished,
    h.gray_mem, h.fromGray, h.toGray, h.expanded, ?_, ?_⟩
  · intro v hv
    by_cases heq : v = nid
    · refine ⟨w, hw, ?_, heq ▸ hnid⟩
      simpa [heq] using hx
    · simpa [heq] using h.low_eq v hv
  · intro v hv
    by_cases heq : v = nid
    · simpa [heq] using hle
    · simpa [heq] using h.low_le v hv

end Steps

/-! ### The loop over the edges of a node -/

/-- What a call of `dfs` for `nid` has done to the state `s`. -/
structure Left (g : Graph η) (gray : List Int) (s : State) (nid : Int)
    (s' : State) : Prop where
  inv : Inv g gray s'
  suffix : s.st <:+ s'.st
  dfn : ∀ v, s.Visited v → s'.dfn v = s.dfn v
  low : ∀ v ∈ s.st, s'.low v = s.low v
  count : s.count ≤ s'.count
  visited : s'.Visited nid
  fresh : s.count ≤ s'.dfn nid
  top : nid ∈ s'.st ∨ s'.dfn nid ≤ s'.low nid
  crossing : ∀ v ∈ s'.st, v ∉ s.st → ∀ w ∈ s.st, g.Edge v w →
    s'.low nid ≤ s'.dfn w

/-- The state in the call of `dfs` for `nid` in the state `s`, when the edges to
`seen` have been followed. -/
structure Scan (g : Graph η) (gray : List Int) (s : State) (nid : Int)
    (seen : List Int) (t : State) : Prop where
  inv : Inv g (nid :: gray) t
  gray_mem : ∀ x ∈ gray, x ∈ s.st
  suffix : nid :: s.st <:+ t.st
  dfn : ∀ v, s.Visited v → t.dfn v = s.dfn v
  low : ∀ v ∈ s.st, t.low v = s.low v
  count : s.count ≤ t.count
  dfn_nid : t.dfn nid = s.count
  crossing : ∀ v ∈ t.st, v ∉ s.st → v ≠ nid → ∀ w ∈ s.st, g.Edge v w →
    t.low nid ≤ t.dfn w
  visited : ∀ w ∈ seen, t.Visited w
  seen_le : ∀ w ∈ seen, w ∈ s.st → t.low nid ≤ t.dfn w

section Loop

variable {g : Graph η} {gray : List Int} {s t : State} {nid n : Int}
  {seen : List Int}

theorem Left.visited_mono {s' : State} (h : Left g gray s nid s') {v : Int}
    (hv : s.Visited v) : s'.Visited v := by
  rw [State.Visited, h.dfn v hv]
  exact hv

theorem Scan.nid_mem (h : Scan g gray s nid seen t) : nid ∈ t.st :=
  h.inv.gray_mem nid List.mem_cons_self

theorem Scan.mem_of_mem (h : Scan g gray s nid seen t) {v : Int} (hv : v ∈ s.st) :
    v ∈ t.st := h.suffix.subset (List.mem_cons_of_mem _ hv)

theorem Scan.lt_nid (h : Scan g gray s nid seen t) {w : Int} (hw : w ∈ s.st) :
    t.dfn w < t.dfn nid :=
  (List.pairwise_cons.mp (h.inv.sorted.sublist h.suffix.sublist)).1 w hw

theorem Scan.nid_not_mem (h : Scan g gray s nid seen t) : nid ∉ s.st :=
  fun hmem => lt_irrefl _ (h.lt_nid hmem)

theorem Inv.scan (h : Inv g gray s) (hnode : nid ∈ g.nodeIds)
    (hnew : ¬ s.Visited nid) (hreach : ∀ x ∈ gray, g.Reach x nid) :
    Scan g gray s nid [] (s.push nid) := by
  have hne : ∀ {v}, s.Visited v → v ≠ nid := by
    rintro v hv rfl
    exact hnew hv
  refine ⟨h.push hnode hnew hreach, h.gray_mem, List.suffix_rfl, ?_, ?_, ?_, ?_, ?_,
    ?_, ?_⟩
  · intro v hv
    simp [hne hv]
  · intro v hv
    simp [hne (h.visited_of_mem hv)]
  · rw [State.count_push]
    omega
  · simp
  · intro v hv hnot hv_nid
    exact absurd ((List.mem_cons.mp hv).resolve_left hv_nid) hnot
  · simp
  · simp

/-- The low link of `nid` becomes smaller. -/
theorem Scan.lower (h : Scan g gray s nid seen t) {x : Int}
    (hx : x ≤ t.low nid) (hreach : ∃ w ∈ t.st, x = t.dfn w ∧ g.Reach nid w) :
    Scan g gray s nid seen (t.lower nid x) := by
  have hle := hx.trans (h.inv.low_le nid h.nid_mem)
  refine ⟨h.inv.lower hle hreach, h.gray_mem, h.suffix, h.dfn, ?_, h.count, h.dfn_nid,
    ?_, h.visited, ?_⟩
  · intro v hv
    have hne : v ≠ nid := fun heq => h.nid_not_mem (heq ▸ hv)
    simpa [hne] using h.low v hv
  · intro v hv hnot hne w hw hedge
    simpa using hx.trans (h.crossing v hv hnot hne w hw hedge)
  · intro w hw hmem
    simpa using hx.trans (h.seen_le w hw hmem)

theorem Scan.see (h : Scan g gray s nid seen t) (hvisited : t.Visited n)
    (hle : n ∈ s.st → t.low nid ≤ t.dfn n) : Scan g gray s nid (n :: seen) t :=
  { h with
    visited := List.forall_mem_cons.mpr ⟨hvisited, h.visited⟩
    seen_le := List.forall_mem_cons.mpr ⟨hle, h.seen_le⟩ }

/-- The low link of a new node, or the old one of `nid`, is the number of a node
that `nid` reaches. -/
theorem Scan.min_reach (h : Scan g gray s nid seen t) (hedge : g.Edge nid n)
    {t' : State} (hleft : Left g (nid :: gray) t n t') :
    ∃ w ∈ t'.st, min (t'.low n) (t'.low nid) = t'.dfn w ∧ g.Reach nid w := by
  have hnid := hleft.inv.gray_mem nid List.mem_cons_self
  rcases le_or_gt (t'.low nid) (t'.low n) with hle | hlt
  · rw [min_eq_right hle]
    exact hleft.inv.low_eq nid hnid
  · rw [min_eq_left hlt.le]
    have hn : n ∈ t'.st := by
      apply hleft.top.resolve_right
      have hnid_le := hleft.inv.low_le nid hnid
      have hdfn := hleft.dfn nid (h.inv.visited_of_mem h.nid_mem)
      have hcount := h.inv.number nid (h.inv.visited_of_mem h.nid_mem)
      have hfresh := hleft.fresh
      omega
    obtain ⟨w, hw, hlow, hreach⟩ := hleft.inv.low_eq n hn
    exact ⟨w, hw, hlow, ReflTransGen.head hedge hreach⟩

/-- The edge led to a new node, and the search has returned from it. -/
theorem Scan.tree (h : Scan g gray s nid seen t) (hedge : g.Edge nid n)
    (hnew : ¬ t.Visited n) {t' : State} (hleft : Left g (nid :: gray) t n t') :
    Scan g gray s nid (n :: seen)
      (t'.lower nid (min (t'.low n) (t'.low nid))) := by
  have hnid := hleft.inv.gray_mem nid List.mem_cons_self
  have hlow_nid := hleft.low nid h.nid_mem
  have hdfn : ∀ {w}, w ∈ s.st → t'.dfn w = t.dfn w := fun hw =>
    hleft.dfn _ (h.inv.visited_of_mem (h.mem_of_mem hw))
  have hmin_n := min_le_left (t'.low n) (t'.low nid)
  have hmin_nid := min_le_right (t'.low n) (t'.low nid)
  have hreach := h.min_reach hedge hleft
  set x := min (t'.low n) (t'.low nid)
  have hseen : ∀ w ∈ seen, w ∈ s.st → x ≤ t'.dfn w := by
    intro w hw hmem
    have hold := h.seen_le w hw hmem
    rw [hdfn hmem]
    omega
  refine ⟨hleft.inv.lower (hmin_nid.trans (hleft.inv.low_le nid hnid)) hreach,
    h.gray_mem, h.suffix.trans hleft.suffix, ?_, ?_, h.count.trans hleft.count, ?_, ?_,
    ?_, ?_⟩
  · intro v hv
    have hv' : t.Visited v := by
      rw [State.Visited, h.dfn v hv]
      exact hv
    rw [State.dfn_lower, hleft.dfn v hv', h.dfn v hv]
  · intro v hv
    have hne : v ≠ nid := fun heq => h.nid_not_mem (heq ▸ hv)
    rw [State.low_lower, if_neg hne, hleft.low v (h.mem_of_mem hv), h.low v hv]
  · rw [State.dfn_lower, hleft.dfn nid (h.inv.visited_of_mem h.nid_mem), h.dfn_nid]
  · intro v hv hnot hne w hw hvw
    rw [State.low_lower, if_pos rfl, State.dfn_lower]
    by_cases hold : v ∈ t.st
    · have hcross := h.crossing v hold hnot hne w hw hvw
      rw [hdfn hw]
      omega
    · exact hmin_n.trans (hleft.crossing v hv hold w (h.mem_of_mem hw) hvw)
  · intro w hw
    rcases List.mem_cons.mp hw with rfl | hw
    · exact hleft.visited
    · exact hleft.visited_mono (h.visited w hw)
  · intro w hw hmem
    rw [State.low_lower, if_pos rfl, State.dfn_lower]
    rcases List.mem_cons.mp hw with rfl | hw
    · exact absurd (h.inv.visited_of_mem (h.mem_of_mem hmem)) hnew
    · exact hseen w hw hmem

/-- The edge led to a node that is below `nid` on the stack. -/
theorem Scan.back (h : Scan g gray s nid seen t) (hedge : g.Edge nid n)
    (hn : n ∈ t.st) :
    Scan g gray s nid (n :: seen) (t.lower nid (min (t.low n) (t.low nid))) := by
  have hreach : ∃ w ∈ t.st, min (t.low n) (t.low nid) = t.dfn w ∧ g.Reach nid w := by
    rcases le_total (t.low n) (t.low nid) with hle | hle
    · rw [min_eq_left hle]
      obtain ⟨w, hw, hlow, hnw⟩ := h.inv.low_eq n hn
      exact ⟨w, hw, hlow, ReflTransGen.head hedge hnw⟩
    · rw [min_eq_right hle]
      exact h.inv.low_eq nid h.nid_mem
  apply (h.lower (min_le_right _ _) hreach).see
  · exact h.inv.visited_of_mem hn
  · intro _
    rw [State.low_lower, if_pos rfl, State.dfn_lower]
    exact (min_le_left _ _).trans (h.inv.low_le n hn)

/-- The edge led to a finished node, or to one that is not below `nid`. -/
theorem Scan.skip (h : Scan g gray s nid seen t) (hvisited : t.Visited n)
    (hskip : ¬ (t.dfn n < t.dfn nid ∧ n ∈ t.st)) :
    Scan g gray s nid (n :: seen) t := by
  apply h.see hvisited
  intro hn
  exact absurd ⟨h.lt_nid hn, h.mem_of_mem hn⟩ hskip

/-! ### The end of a call -/

/-- `nid` stays on the stack, since it reaches a node below. -/
theorem Scan.keep (h : Scan g gray s nid seen t)
    (hseen : ∀ w, g.Edge nid w → w ∈ seen) (hlow : t.low nid ≠ t.dfn nid) :
    Left g gray s nid t := by
  have hlt : t.low nid < t.dfn nid :=
    lt_of_le_of_ne (h.inv.low_le nid h.nid_mem) hlow
  obtain ⟨w, hw, hlow_w, hreach⟩ := h.inv.low_eq nid h.nid_mem
  obtain ⟨x, hx, hx_w, hwx⟩ := h.inv.toGray w hw
  have hx_gray : x ∈ gray := by
    apply (List.mem_cons.mp hx).resolve_left
    rintro rfl
    omega
  refine ⟨{ h.inv with
      gray_mem := fun y hy => h.mem_of_mem (h.gray_mem y hy)
      fromGray := fun y hy => h.inv.fromGray y (List.mem_cons_of_mem _ hy)
      toGray := ?_
      expanded := ?_ }, (List.suffix_cons nid s.st).trans h.suffix, h.dfn, h.low, h.count,
    h.inv.visited_of_mem h.nid_mem, h.dfn_nid.ge, Or.inl h.nid_mem, ?_⟩
  · intro y hy
    obtain ⟨z, hz, hle, hyz⟩ := h.inv.toGray y hy
    rcases List.mem_cons.mp hz with rfl | hz
    · exact ⟨x, hx_gray, by omega, (hyz.trans hreach).trans hwx⟩
    · exact ⟨z, hz, hle, hyz⟩
  · intro v hv hgray w hedge
    by_cases hne : v = nid
    · exact h.visited w (hseen w (hne ▸ hedge))
    · exact h.inv.expanded v hv (List.not_mem_cons_of_ne_of_not_mem hne hgray) w hedge
  · intro v hv hnot w hw hedge
    by_cases hne : v = nid
    · exact h.seen_le w (hseen w (hne ▸ hedge)) hw
    · exact h.crossing v hv hnot hne w hw hedge

/-- The part of the stack down to `nid`. -/
structure Above (s t : State) (nid : Int) (c : List Int) : Prop where
  stack : t.st = c ++ s.st
  dfn_le : ∀ v ∈ c, t.dfn nid ≤ t.dfn v
  nid_mem : nid ∈ c
  disjoint : ∀ v ∈ c, v ∉ s.st

theorem Scan.above (h : Scan g gray s nid seen t) {above : List Int}
    (hst : t.st = above ++ nid :: s.st) : Above s t nid (above ++ [nid]) := by
  have hsorted := h.inv.sorted
  rw [hst, List.pairwise_append] at hsorted
  refine ⟨by simp [hst], ?_, by simp, ?_⟩
  · intro v hv
    rcases List.mem_append.mp hv with hv | hv
    · exact (hsorted.2.2 v hv nid List.mem_cons_self).le
    · rw [List.mem_singleton.mp hv]
  · intro v hv hmem
    rcases List.mem_append.mp hv with hv | hv
    · exact lt_irrefl _ (hsorted.2.2 v hv v (List.mem_cons_of_mem _ hmem))
    · exact h.nid_not_mem (List.mem_singleton.mp hv ▸ hmem)

/-- When no edge leads below `nid`, its part of the stack only leads to itself
and to finished components. -/
theorem Scan.above_closed (h : Scan g gray s nid seen t)
    (hseen : ∀ w, g.Edge nid w → w ∈ seen) (hlow : t.low nid = t.dfn nid)
    {c : List Int} (hc : Above s t nid c) :
    ∀ v ∈ c, ∀ w, g.Edge v w → w ∈ c ∨ w ∈ t.done := by
  intro v hv w hedge
  have hv_st : v ∈ t.st := hc.stack ▸ List.mem_append_left _ hv
  have hvisited : t.Visited w := by
    by_cases hne : v = nid
    · exact h.visited w (hseen w (hne ▸ hedge))
    · apply h.inv.expanded v hv_st (List.not_mem_cons_of_ne_of_not_mem hne _) w hedge
      exact fun hgray => hc.disjoint v hv (h.gray_mem v hgray)
  rcases (h.inv.visited_iff w).mp hvisited with hw | hw
  · rw [hc.stack, List.mem_append] at hw
    apply hw.imp_right
    intro hw
    have hlt := h.lt_nid hw
    by_cases hne : v = nid
    · have hle := h.seen_le w (hseen w (hne ▸ hedge)) hw
      omega
    · have hle := h.crossing v hv_st (hc.disjoint v hv) hne w hw hedge
      omega
  · exact Or.inr hw

/-- The part of the stack down to `nid` is strongly connected. -/
theorem Scan.above_finished (h : Scan g gray s nid seen t)
    (hseen : ∀ w, g.Edge nid w → w ∈ seen) (hlow : t.low nid = t.dfn nid)
    {c : List Int} (hc : Above s t nid c) : Finished g.Edge (c :: t.components) := by
  have hmem : ∀ {v}, v ∈ c → v ∈ t.st := fun hv =>
    hc.stack ▸ List.mem_append_left _ hv
  have hclosed := h.above_closed hseen hlow hc
  have hfrom : ∀ v ∈ c, g.Reach nid v := fun v hv =>
    h.inv.fromGray nid List.mem_cons_self v (hmem hv) (hc.dfn_le v hv)
  have hto : ∀ v ∈ c, g.Reach v nid := by
    intro v hv
    obtain ⟨x, hx, -, hvx⟩ := h.inv.toGray v (hmem hv)
    rcases List.mem_cons.mp hx with rfl | hx
    · exact hvx
    · have hx_st := h.gray_mem x hx
      rcases h.inv.finished.reach_or hclosed hv hvx with hx_c | hx_done
      · exact absurd hx_st (hc.disjoint x hx_c)
      · exact absurd hx_done (h.inv.disjoint x (h.mem_of_mem hx_st))
  have hnodup : t.st.Nodup := h.inv.sorted.imp fun hlt heq => by
    rw [heq] at hlt
    exact lt_irrefl _ hlt
  apply h.inv.finished.cons
  · exact List.ne_nil_of_mem hc.nid_mem
  · rw [hc.stack] at hnodup
    exact (List.nodup_append.mp hnodup).1
  · intro v hv
    exact h.inv.disjoint v (hmem hv)
  · intro v hv w hw
    exact (hto v hv).trans (hfrom w hw)
  · exact hclosed

theorem get_foldl_set {α : Type} (c : List Int) (x : α) (table : Table α) (v : Int) :
    (c.foldl (fun table n => table.set n x) table).get v =
      if v ∈ c then x else table.get v := by
  induction c generalizing table with
  | nil => simp
  | cons n c ih =>
    rw [List.foldl_cons, ih]
    by_cases hv : v ∈ c
    · simp [hv]
    · by_cases hn : v = n
      · simp [hn]
      · simp [hv, hn]

theorem size_foldl_set {α : Type} (c : List Int) (x : α) (table : Table α) :
    (c.foldl (fun table n => table.set n x) table).size = table.size := by
  induction c generalizing table with
  | nil => rfl
  | cons n c ih => rw [List.foldl_cons, ih, Table.size_set]

/-- `nid` leaves the stack, with its component. -/
theorem Scan.pop (h : Scan g gray s nid seen t)
    (hseen : ∀ w, g.Edge nid w → w ∈ seen) (hlow : t.low nid = t.dfn nid)
    {c : List Int} (hc : Above s t nid c) : Left g gray s nid (t.pop c s.st) := by
  have hmem : ∀ v, v ∈ t.st ↔ v ∈ c ∨ v ∈ s.st := by
    intro v
    rw [hc.stack, List.mem_append]
  have hold : ∀ {v}, v ∈ t.st → t.dfn v < t.dfn nid → v ∈ s.st := by
    intro v hv hlt
    apply ((hmem v).mp hv).resolve_left
    intro hv_c
    exact absurd (hc.dfn_le v hv_c) (not_le.mpr hlt)
  have hvisited : t.Visited nid := h.inv.visited_of_mem h.nid_mem
  refine ⟨?_, List.suffix_rfl, h.dfn, h.low, h.count, hvisited, h.dfn_nid.ge,
    Or.inr hlow.ge, fun v hv hnot => absurd hv hnot⟩
  constructor
  · refine ⟨h.inv.sized.dfnumber, h.inv.sized.lowlink, ?_⟩
    exact (size_foldl_set c false t.onstack).trans h.inv.sized.onstack
  · exact h.inv.count_pos
  · intro v
    rw [State.st_pop, State.done_pop, List.mem_append, or_left_comm, ← or_assoc,
      ← hmem v]
    exact h.inv.visited_iff v
  · exact h.inv.node
  · exact h.inv.number
  · intro v
    have hget : (t.pop c s.st).onstack.get v = if v ∈ c then false else t.onstack.get v :=
      get_foldl_set c false t.onstack v
    rw [hget, State.st_pop]
    by_cases hv : v ∈ c
    · simp [hv, hc.disjoint v hv]
    · rw [if_neg hv, h.inv.onstack v, hmem v, or_iff_right hv]
  · exact h.inv.sorted.sublist ((List.suffix_cons nid s.st).trans h.suffix).sublist
  · intro v hv
    rw [State.done_pop, List.mem_append, not_or]
    exact ⟨fun hv_c => hc.disjoint v hv_c hv, h.inv.disjoint v (h.mem_of_mem hv)⟩
  · exact h.above_finished hseen hlow hc
  · exact h.gray_mem
  · intro x hx y hy hle
    exact h.inv.fromGray x (List.mem_cons_of_mem _ hx) y (h.mem_of_mem hy) hle
  · intro y hy
    obtain ⟨x, hx, hle, hyx⟩ := h.inv.toGray y (h.mem_of_mem hy)
    refine ⟨x, (List.mem_cons.mp hx).resolve_left ?_, hle, hyx⟩
    rintro rfl
    exact absurd (h.lt_nid hy) (not_lt.mpr hle)
  · intro v hv hgray w hedge
    have hne : v ≠ nid := fun heq => h.nid_not_mem (heq ▸ hv)
    exact h.inv.expanded v (h.mem_of_mem hv)
      (List.not_mem_cons_of_ne_of_not_mem hne hgray) w hedge
  · intro v hv
    obtain ⟨w, hw, hlow_v, hvw⟩ := h.inv.low_eq v (h.mem_of_mem hv)
    refine ⟨w, hold hw ?_, hlow_v, hvw⟩
    have hle := h.inv.low_le v (h.mem_of_mem hv)
    have hlt := h.lt_nid hv
    omega
  · intro v hv
    exact h.inv.low_le v (h.mem_of_mem hv)

end Loop

end Graph

end SmlSharp
