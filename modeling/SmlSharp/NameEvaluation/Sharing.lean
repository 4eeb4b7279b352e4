/-
Sharing constraints identify what they name, as long as no list tears a type
name from the class an earlier list put it in or makes an eqtype denote a type
name that does not admit equality.
-/
import SmlSharp.NameEvaluation.SharedClasses

namespace SmlSharp.NameEvaluation

variable {list : List PathTfv} {heap : Heap} {c : Tfv} {v : TypeVariable} {x s t r : Tfv}
  {specEnv : Env}

theorem firstTfv_mem {datatypes : List PathTfv} {first : Tfv}
    (hsub : ∀ entry ∈ datatypes, entry ∈ list) (hfirst : firstTfv list datatypes = some first) :
    first ∈ tfvsOf list := by
  unfold firstTfv at hfirst
  split at hfirst
  · split at hfirst
    · simp at hfirst
    · cases hfirst
      exact List.mem_cons_self
  · cases hfirst
    exact List.mem_map_of_mem (hsub _ List.mem_cons_self)

/-- The first member of the list in a heap. -/
def FirstMember (heap : Heap) (list : List PathTfv) (first root : Tfv) : Prop :=
  firstTfv list (datatypeMembers heap list) = some first ∧ Denotes heap first root

theorem FirstMember.mem {first root : Tfv}
    (h : FirstMember heap list first root) : first ∈ tfvsOf list :=
  firstTfv_mem (fun _ hmem => (List.mem_filter.1 hmem).1) h.1

/-- The heaps before and after one list. -/
def ListStep (list : List PathTfv) (first root : Tfv) (before after : Heap) : Prop :=
  FirstMember before list first root ∧
    ∃ middle, Kept before middle ∧ RedirectedTo first root (tfvsOf list) middle after

theorem checkArity_keeps (fuel : Nat) (list : List PathTfv) : Keeps (checkArity fuel list) := by
  refine Keeps.bind (Keeps.onHeap _) fun arityList => ?_
  cases arityList with
  | nil => exact Keeps.pure _
  | cons h t => exact Keeps.ite (Keeps.pure _) (Keeps.throw _)

theorem checkEqtype_keeps (fuel : Nat) (list datatypes : List PathTfv) :
    Keeps (checkEqtype fuel list datatypes) := by
  refine Keeps.bind (Keeps.onHeap _) fun isEqtype => Keeps.ite ?_ (Keeps.pure _)
  cases datatypes with
  | nil => exact Keeps.pure _
  | cons entry rest =>
    refine Keeps.bind Keeps.get fun state => ?_
    split
    · exact Keeps.ite (Keeps.pure _) (Keeps.throw _)
    · exact Keeps.throw _

theorem checkDatatypes_keeps (typIdEquiv : TypIdEquiv) (fuel : Nat) (formals : Formals)
    (conSpec : ConSpec) (rest : List PathTfv) (errorPathList : List Longsymbol) :
    Keeps (checkDatatypes typIdEquiv fuel formals conSpec rest errorPathList) := by
  induction rest generalizing errorPathList with
  | nil => exact Keeps.pure _
  | cons entry rest ih =>
    refine Keeps.bind Keeps.get fun state => ?_
    split
    · refine Keeps.bind (checkConSpec_keeps _ _ _ _ _ _) fun same => ?_
      exact Keeps.ite (ih _) (ih _)
    · exact Keeps.throw _

theorem errorPaths_keeps (typIdEquiv : TypIdEquiv) (fuel : Nat) (datatypes : List PathTfv) :
    Keeps (errorPaths typIdEquiv fuel datatypes) := by
  fun_cases errorPaths typIdEquiv fuel datatypes
  · exact Keeps.pure _
  · exact Keeps.pure _
  · refine Keeps.bind Keeps.get fun state => ?_
    split
    · exact checkDatatypes_keeps _ _ _ _ _ _
    · exact Keeps.throw _

theorem processShareList_step {typIdEquiv : TypIdEquiv} {fuel : Nat}
    {state state' : NormState} (hdistinct : DistinctIds state.heap)
    (hmembers : ∀ t ∈ tfvsOf list, ∃ r, Denotes state.heap t r)
    (hrun : processShareList typIdEquiv fuel list state = .ok ((), state')) :
    ∃ first root, ListStep list first root state.heap state'.heap := by
  obtain ⟨_, _, hget, hrun⟩ := stateT_bind_ok.1 hrun
  cases stateT_get_ok.1 hget
  split at hrun
  · exact absurd hrun stateT_throw_ok
  · obtain ⟨_, state1, harity, hrun⟩ := stateT_bind_ok.1 hrun
    obtain ⟨_, state2, heqtype, hrun⟩ := stateT_bind_ok.1 hrun
    obtain ⟨errors, state3, herrors, hrun⟩ := stateT_bind_ok.1 hrun
    have hkept : Kept state.heap state3.heap :=
      ((checkArity_keeps _ _ _ _ _ harity).trans (checkEqtype_keeps _ _ _ _ _ _ heqtype)).trans
        (errorPaths_keeps _ _ _ _ _ _ herrors)
    split at hrun
    · cases hfirst : firstTfv list (datatypeMembers state.heap list) with
      | none =>
        simp only [hfirst] at hrun
        exact absurd hrun stateT_throw_ok
      | some first =>
        simp only [hfirst] at hrun
        obtain ⟨firstId, state4, hid, hredirect⟩ := stateT_bind_ok.1 hrun
        obtain ⟨hid, rfl⟩ := onHeap_ok.1 hid
        obtain ⟨root, hroot⟩ := hmembers first
          (firstTfv_mem (fun _ hmem => (List.mem_filter.1 hmem).1) hfirst)
        have hroot' := hkept.denotes hroot
        obtain ⟨v, hv, hvid⟩ := tfvId_of_denotes hroot' hid
        refine ⟨first, root, ⟨hfirst, hroot⟩, state4.heap, hkept, ?_⟩
        refine redirectMembers_redirects hvid list state4 state' ?_ hroot' hv
          (fun entry hentry => ?_) hredirect
        · exact hdistinct.mono fun c v hv => (hkept.typeVariable c).symm.trans hv
        · obtain ⟨r, hr⟩ := hmembers entry.2 (List.mem_map_of_mem hentry)
          exact ⟨r, hkept.denotes hr⟩
    · exact absurd hrun stateT_throw_ok

namespace ListStep

variable {list : List PathTfv} {first root : Tfv} {before after : Heap}

theorem first_mem (h : ListStep list first root before after) : first ∈ tfvsOf list :=
  h.1.mem

theorem typeVariable (h : ListStep list first root before after)
    (hv : (after c).typeVariable = some v) : (before c).typeVariable = some v := by
  obtain ⟨_, middle, hkept, hredirected⟩ := h
  rw [← hkept.typeVariable]
  rcases hredirected.same c with hc | ⟨_, hlink⟩
  · rwa [hc] at hv
  · rw [Heap.link, Tfunkind.link_of_not_realized (Tfunkind.not_realized_of_typeVariable hv)]
      at hlink
    simp at hlink

theorem denotes_of_root {middle : Heap}
    (hredirected : RedirectedTo first root (tfvsOf list) middle after) {z : Tfv}
    (hx : Root (Heap.link after) x z) (hz : Denotes middle z z) : Denotes after x z := by
  refine ⟨hx, ?_⟩
  rcases hredirected.same z with hsame | ⟨_, hlink⟩
  · rw [hsame]
    exact hz.2
  · rw [hx.link_root] at hlink
    simp at hlink

theorem or_root (h : ListStep list first root before after)
    (hx : Denotes before x s) : Denotes after x s ∨ Denotes after x root := by
  obtain ⟨⟨_, hfirst⟩, middle, hkept, hredirected⟩ := h
  rcases hredirected.links.or_root (hkept.denotes hfirst).1 (hkept.denotes hx).1 with hx' | hx'
  · exact Or.inl (denotes_of_root hredirected hx' (hkept.denotes_self hx))
  · exact Or.inr (denotes_of_root hredirected hx' (hkept.denotes_self hfirst))

theorem of_root (h : ListStep list first root before after)
    (hx : Denotes before x root) : Denotes after x root :=
  (h.or_root hx).elim id id

theorem member (h : ListStep list first root before after) (ht : t ∈ tfvsOf list) :
    Denotes after t root := by
  obtain ⟨⟨_, hfirst⟩, middle, hkept, hredirected⟩ := h
  exact denotes_of_root hredirected
    (hredirected.links.member (hkept.denotes hfirst).1 t ht) (hkept.denotes_self hfirst)

theorem of_member (h : ListStep list first root before after)
    (hx : Denotes before x s) (hs : s ∈ tfvsOf list) : Denotes after x root := by
  obtain ⟨⟨_, hfirst⟩, middle, hkept, hredirected⟩ := h
  exact denotes_of_root hredirected
    (hredirected.links.of_member (hkept.denotes hfirst).1 (hkept.denotes hx).1 hs)
    (hkept.denotes_self hfirst)

theorem of_other (h : ListStep list first root before after)
    (hx : Denotes before x s) (hs : s ≠ root)
    (hmembers : ∀ t ∈ tfvsOf list, ∃ r, Denotes before t r ∧ r ≠ s) : Denotes after x s := by
  obtain ⟨⟨_, hfirst⟩, middle, hkept, hredirected⟩ := h
  refine denotes_of_root hredirected (hredirected.links.of_other (hkept.denotes hfirst).1
    (hkept.denotes hx).1 hs fun t ht => ?_) (hkept.denotes_self hx)
  obtain ⟨r, hr, hne⟩ := hmembers t ht
  exact ⟨r, (hkept.denotes hr).1, hne⟩

/-- The links of cells that are no members. -/
theorem link_of_not_mem (h : ListStep list first root before after)
    (hc : c ∉ tfvsOf list) (hr : Denotes before c r) :
    Heap.link after c = Heap.link before c ∨ Heap.link after c = some r := by
  obtain ⟨_, middle, hkept, hredirected⟩ := h
  rcases hredirected.same c with hsame | ⟨hmem, _⟩
  · rw [Heap.link, hsame]
    exact hkept.link c r hr
  · exact absurd hmem hc

theorem denotes_of_not_mem (h : ListStep list first root before after)
    (hr : Denotes before r r) (hmem : r ∉ tfvsOf list) : Denotes after r r := by
  obtain ⟨_, middle, hkept, hredirected⟩ := h
  exact denotes_of_root hredirected
    (hredirected.links.root_of_not_mem (hkept.denotes_self hr).1 hmem) (hkept.denotes_self hr)

end ListStep

/-- What holds of the cells after some lists, whatever the lists are. -/
structure Sound (start : Heap) (done : List (List PathTfv)) (heap : Heap) : Prop where
  distinct : DistinctIds heap
  typeVariable : ∀ c v, (heap c).typeVariable = some v → (start c).typeVariable = some v
  alive : ∀ c t, Denotes start c t → ∃ s, Denotes heap c s
  chain : ∀ c t s, Denotes start c t → Denotes heap c s → Chain done t s
  /-- A cell whose type name has not been redirected still leads to it. -/
  link : ∀ c t v, Denotes start c t → (heap t).typeVariable = some v →
    c = t ∨ Heap.link heap c = Heap.link start c ∨ Heap.link heap c = some t

theorem Sound.start {start : Heap} (hdistinct : DistinctIds start) : Sound start [] start where
  distinct := hdistinct
  typeVariable := fun _ _ hv => hv
  alive := fun c t ht => ⟨t, ht⟩
  chain := fun c t s ht hs => by
    rw [ht.unique hs]
    exact .refl s
  link := fun _ _ _ _ _ => Or.inr (Or.inl rfl)

theorem Sound.denotes {start : Heap} {done : List (List PathTfv)}
    (h : Sound start done heap) (ht : Denotes start c t)
    (hv : (heap t).typeVariable = some v) : Denotes heap c t := by
  have hself : Denotes heap t t := denotes_self hv
  obtain ⟨hroot, hvar⟩ := ht
  induction hroot with
  | here _ => exact hself
  | @next c d t hlink hroot ih =>
    rcases h.link c t v ⟨.next hlink hroot, hvar⟩ hv with rfl | hlink' | hlink'
    · exact hself
    · exact ⟨.next (hlink'.trans hlink) (ih hv hself hvar).1, hself.2⟩
    · exact ⟨.next hlink' hself.1, hself.2⟩

section Step

variable {start before after : Heap} {done : List (List PathTfv)} {list : List PathTfv}
  {first root : Tfv}

/-- The members of the list were type names at the start. -/
def Starting (start : Heap) (list : List PathTfv) : Prop :=
  ∀ t ∈ tfvsOf list, Denotes start t t

theorem Sound.chain_self (h : Sound start done before) (ht : Denotes start t t)
    (hs : Denotes before t s) : Chain done t s :=
  h.chain t t s ht hs

/-- A class that the list leaves alone, or that a member belongs to. -/
theorem ListStep.class_cases (hstep : ListStep list first root before after)
    (hmembers : ∀ t ∈ tfvsOf list, ∃ r, Denotes before t r) (s : Tfv) :
    (∀ x, Denotes before x s → Denotes after x s) ∨ ∃ m ∈ tfvsOf list, Denotes before m s := by
  by_cases hmember : ∃ m ∈ tfvsOf list, Denotes before m s
  · exact Or.inr hmember
  · refine Or.inl fun x hx => ?_
    by_cases hs : s = root
    · subst hs
      exact hstep.of_root hx
    · refine hstep.of_other hx hs fun t ht => ?_
      obtain ⟨r, hr⟩ := hmembers t ht
      refine ⟨r, hr, ?_⟩
      rintro rfl
      exact hmember ⟨t, ht, hr⟩

theorem Sound.members (h : Sound start done before) (hstarting : Starting start list) :
    ∀ t ∈ tfvsOf list, ∃ r, Denotes before t r :=
  fun t ht => h.alive t t (hstarting t ht)

theorem Sound.step (h : Sound start done before) (hstarting : Starting start list)
    (hstep : ListStep list first root before after) : Sound start (done ++ [list]) after := by
  have hfirst : Denotes before first root := hstep.1.2
  have hlast : list ∈ done ++ [list] := List.mem_append_right _ (List.mem_singleton.2 rfl)
  refine ⟨h.distinct.mono fun c v hv => hstep.typeVariable hv,
    fun c v hv => h.typeVariable c v (hstep.typeVariable hv), fun c t ht => ?_,
    fun c t s ht hs => ?_, fun c t v ht hv => ?_⟩
  · obtain ⟨s, hs⟩ := h.alive c t ht
    rcases hstep.or_root hs with hs' | hs'
    · exact ⟨s, hs'⟩
    · exact ⟨root, hs'⟩
  · obtain ⟨s0, hs0⟩ := h.alive c t ht
    have hchain : Chain (done ++ [list]) t s0 := (h.chain c t s0 ht hs0).append _
    rcases hstep.class_cases (h.members hstarting) s0 with hkeep | ⟨m, hm, hms⟩
    · rwa [hs.unique (hkeep c hs0)]
    · -- the class of a member goes on in the class of the first one
      have hmember : Chain (done ++ [list]) m s0 :=
        (h.chain_self (hstarting m hm) hms).append _
      have hroot : Chain (done ++ [list]) first root :=
        (h.chain_self (hstarting first hstep.first_mem) hfirst).append _
      have hlist : Chain (done ++ [list]) m first := Chain.of_mem hlast hm hstep.first_mem
      rcases hstep.or_root hs0 with hs' | hs'
      · rwa [hs.unique hs']
      · rw [hs.unique hs']
        exact hchain.trans _ _ _ (hmember.symm.trans _ _ _ (hlist.trans _ _ _ hroot))
  · have hv' := hstep.typeVariable hv
    by_cases hct : c = t
    · exact Or.inl hct
    · have hnot : c ∉ tfvsOf list := fun hc => hct ((hstarting c hc).unique ht)
      have hbefore : Denotes before c t := h.denotes ht hv'
      rcases hstep.link_of_not_mem hnot hbefore with hlink | hlink
      · rw [hlink]
        exact h.link c t v ht hv'
      · exact Or.inr (Or.inr hlink)

end Step

/-- Every member that earlier lists have redirected denotes what the first member
denotes, or what it denotes is a member too. -/
def KeepsClasses (heap : Heap) (list : List PathTfv) : Prop :=
  ∀ first root, FirstMember heap list first root →
    ∀ t ∈ tfvsOf list, ∀ r, Denotes heap t r → r = root ∨ r ∈ tfvsOf list

/-- If the class of a member holds a type specified as an eqtype, then what the
first member denotes admits equality. -/
def KeepsEqtypes (start : Heap) (specEnv : Env) (done : List (List PathTfv)) (heap : Heap)
    (list : List PathTfv) : Prop :=
  ∀ first root, FirstMember heap list first root →
    ∀ p ∈ pathsOf list, ∀ q u, PathChain start specEnv done q p →
      PathDenotes start specEnv q u → SpecifiedEq (start u) → AdmitsEq (heap root)

/-- Two paths denote the same type name iff they are connected, no cell that
leads to a type name is on a cycle of realisations, and the class of an eqtype
admits equality. -/
structure Identifies (start : Heap) (specEnv : Env) (done : List (List PathTfv))
    (heap : Heap) : Prop where
  same_iff : ∀ p q t u, PathDenotes start specEnv p t → PathDenotes start specEnv q u →
    ((∃ s, PathDenotes heap specEnv p s ∧ PathDenotes heap specEnv q s) ↔
      PathChain start specEnv done p q)
  acyclic : ∀ c t, Denotes start c t → (∃ s, Denotes heap c s) ∧
    ¬ Relation.TransGen (fun a b => Heap.link heap a = some b) c c
  eqtype : ∀ p t, PathDenotes start specEnv p t → SpecifiedEq (start t) →
    ∀ s, PathDenotes heap specEnv p s → AdmitsEq (heap s)

/-- What holds of the cells as long as every list keeps the classes. -/
structure Merged (start : Heap) (specEnv : Env) (done : List (List PathTfv))
    (heap : Heap) : Prop where
  representative : ∀ c t s, Denotes start c t → Denotes heap c s → Denotes heap t s
  complete : ∀ t u, Chain done t u → ∀ s, Denotes heap t s ↔ Denotes heap u s
  eqtype : ∀ p t, PathDenotes start specEnv p t → SpecifiedEq (start t) →
    ∀ s, Denotes heap t s → AdmitsEq (heap s)

theorem Merged.start {start : Heap} : Merged start specEnv [] start where
  representative := fun c t s ht hs => by
    rw [← ht.unique hs]
    exact ⟨ht.1.root, ht.2⟩
  complete := fun t u h s => by
    rcases h.eq_or_mem with rfl | ⟨⟨list, hlist, _⟩, _⟩
    · rfl
    · simp at hlist
  eqtype := fun p t _ heq s hs => by
    rw [hs.eq_of_typeVariable heq.admitsEq.choose_spec.1]
    exact heq.admitsEq

theorem PathDenotes.cell {path : Longsymbol}
    (h : PathDenotes heap specEnv path t) :
    ∃ c, Denotes heap c t ∧ ∀ heap' s, PathDenotes heap' specEnv path s ↔ Denotes heap' c s := by
  obtain ⟨tstr, c, hfind, htfun, hc⟩ := h
  refine ⟨c, hc, fun heap' s => ⟨?_, fun hs => ⟨tstr, c, hfind, htfun, hs⟩⟩⟩
  rintro ⟨tstr', c', hfind', htfun', hs⟩
  rw [hfind] at hfind'
  cases hfind'
  rw [htfun] at htfun'
  cases htfun'
  exact hs

theorem Denotes.self (h : Denotes heap c t) : Denotes heap t t :=
  ⟨h.1.root, h.2⟩

theorem Resolved.starting {start : Heap} {lists : List (List PathTfv)}
    (h : Resolved start specEnv lists) (hlist : list ∈ lists) :
    Starting start list := by
  intro t ht
  obtain ⟨path, hpath⟩ := pairsOf_tfv ht
  obtain ⟨c, hc, _⟩ := (h list hlist _ hpath).cell
  exact hc.self

section Identify

variable {start before after : Heap} {specEnv : Env} {done : List (List PathTfv)}
  {list : List PathTfv} {first root : Tfv}

/-- A class whose type name is the first member's, or is a member itself, follows
the first member as a whole. -/
theorem ListStep.class_moves (hstep : ListStep list first root before after)
    (hmembers : ∀ t ∈ tfvsOf list, ∃ r, Denotes before t r)
    (hkeeps : KeepsClasses before list) (hx : Denotes before x s) :
    Denotes after x (if s = root ∨ s ∈ tfvsOf list then root else s) := by
  split
  · next hmoves =>
      rcases hmoves with rfl | hs
      · exact hstep.of_root hx
      · exact hstep.of_member hx hs
  · next hstays =>
      refine hstep.of_other hx (fun hs => hstays (Or.inl hs)) fun t ht => ?_
      obtain ⟨r, hr⟩ := hmembers t ht
      refine ⟨r, hr, ?_⟩
      rintro rfl
      exact hstays (hkeeps first root hstep.1 t ht r hr)

theorem ListStep.admitsEq_iff (hstep : ListStep list first root before after)
    (hs : Denotes after x s) : AdmitsEq (after s) ↔ AdmitsEq (before s) := by
  obtain ⟨v, hv⟩ := hs.2
  have hv' := hstep.typeVariable hv
  simp only [AdmitsEq, hv, hv']

theorem Merged.step (h : Merged start specEnv done before) (hsound : Sound start done before)
    (hresolved : Resolved start specEnv (done ++ [list]))
    (hstep : ListStep list first root before after) (hclasses : KeepsClasses before list)
    (heqtypes : KeepsEqtypes start specEnv done before list) :
    Merged start specEnv (done ++ [list]) after := by
  have hlast : list ∈ done ++ [list] := List.mem_append_right _ (List.mem_singleton.2 rfl)
  have hstarting := hresolved.starting hlast
  have hmembers := hsound.members hstarting
  have hmoves : ∀ {x s}, Denotes before x s →
      Denotes after x (if s = root ∨ s ∈ tfvsOf list then root else s) :=
    fun hx => hstep.class_moves hmembers hclasses hx
  refine ⟨fun c t s ht hs => ?_, fun t u hchain => ?_, fun p t hp heq s hs => ?_⟩
  · obtain ⟨s0, hs0⟩ := hsound.alive c t ht
    rw [hs.unique (hmoves hs0)]
    exact hmoves (h.representative c t s0 ht hs0)
  · induction hchain with
    | rel t u hrel =>
      obtain ⟨list', hlist', ht, hu⟩ := hrel
      have hboth : ∃ s, Denotes after t s ∧ Denotes after u s := by
        rcases List.mem_append.1 hlist' with hdone | hlast'
        · obtain ⟨s, hs⟩ := hsound.alive t t (hresolved.starting hlist' t ht)
          have hu' := (h.complete t u (Chain.of_mem hdone ht hu) s).1 hs
          exact ⟨_, hmoves hs, hmoves hu'⟩
        · rw [List.mem_singleton.1 hlast'] at ht hu
          exact ⟨root, hstep.member ht, hstep.member hu⟩
      obtain ⟨s, hts, hus⟩ := hboth
      intro z
      constructor
      · intro hz
        rwa [hz.unique hts]
      · intro hz
        rwa [hz.unique hus]
    | refl t => exact fun _ => Iff.rfl
    | symm t u _ ih => exact fun s => (ih s).symm
    | trans t u w _ _ ih ih' => exact fun s => (ih s).trans (ih' s)
  · obtain ⟨c, hc, _⟩ := hp.cell
    obtain ⟨s0, hs0⟩ := hsound.alive t t hc.self
    rw [hstep.admitsEq_iff hs, hs.unique (hmoves hs0)]
    have hchain := hsound.chain_self hc.self hs0
    have hdone : Resolved start specEnv done :=
      hresolved.mono fun list hmem => List.mem_append_left _ hmem
    -- a class that moves has a member, and its eqtypes are the first member's
    have hmoved : ∀ m ∈ tfvsOf list, Chain done t m → AdmitsEq (before root) := by
      intro m hm hchain
      obtain ⟨path, hpath⟩ := pairsOf_tfv hm
      exact heqtypes first root hstep.1 path (List.mem_map_of_mem hpath) p t
        (hchain.pathChain hdone hp (hresolved list hlast _ hpath)) hp heq
    split
    · next hmoves =>
        rcases hmoves with rfl | hs
        · exact hmoved first hstep.first_mem (hchain.trans _ _ _
            (hsound.chain_self (hstarting first hstep.first_mem) hstep.1.2).symm)
        · exact hmoved s0 hs hchain
    · exact h.eqtype p t hp heq s0 hs0

theorem Merged.identifies (h : Merged start specEnv done before)
    (hsound : Sound start done before) (hresolved : Resolved start specEnv done) :
    Identifies start specEnv done before := by
  refine ⟨fun p q t u hp hq => ?_, fun c t ht => ?_, fun p t hp heq s hs => ?_⟩
  · rw [pathChain_iff hresolved hp hq]
    obtain ⟨c, hc, hpath⟩ := hp.cell
    obtain ⟨d, hd, hpath'⟩ := hq.cell
    simp only [hpath, hpath']
    constructor
    · rintro ⟨s, hs, hs'⟩
      exact (hsound.chain c t s hc hs).trans _ _ _ (hsound.chain d u s hd hs').symm
    · intro hchain
      obtain ⟨s, hs⟩ := hsound.alive c t hc
      obtain ⟨s', hs'⟩ := hsound.alive d u hd
      have ht := h.representative c t s hc hs
      have hu := h.representative d u s' hd hs'
      have heq : s = s' := ((h.complete t u hchain s).1 ht).unique hu
      subst heq
      exact ⟨s, hs, hs'⟩
  · obtain ⟨s, hs⟩ := hsound.alive c t ht
    exact ⟨⟨s, hs⟩, hs.1.acyclic⟩
  · obtain ⟨c, hc, hpath⟩ := hp.cell
    exact h.eqtype p t hp heq s (h.representative c t s hc ((hpath _ _).1 hs))

/-- A type name that a chain of the lists reaches from a member, and that is not
redirected, is still denoted by the path of some list. -/
theorem Sound.path_of_chain (hsound : Sound start (done ++ [list]) after)
    (hresolved : Resolved start specEnv (done ++ [list])) {m : Tfv}
    (hm : m ∈ tfvsOf list) (hchain : Chain done m r)
    (hv : (after r).typeVariable = some v) :
    ∃ p, PathDenotes start specEnv p r ∧ PathDenotes after specEnv p r := by
  have hlast : list ∈ done ++ [list] := List.mem_append_right _ (List.mem_singleton.2 rfl)
  have hlisted : ∃ list' ∈ done ++ [list], r ∈ tfvsOf list' := by
    rcases hchain.eq_or_mem with rfl | ⟨_, list', hlist', hr⟩
    · exact ⟨list, hlast, hm⟩
    · exact ⟨list', List.mem_append_left _ hlist', hr⟩
  obtain ⟨list', hlist', hr⟩ := hlisted
  obtain ⟨p, hp⟩ := pairsOf_tfv hr
  have hstart := hresolved list' hlist' _ hp
  obtain ⟨c, hc, hpath⟩ := hstart.cell
  exact ⟨p, hstart, (hpath _ _).2 (hsound.denotes hc hv)⟩

/-- A list that tears a class, or an eqtype, shows in what the paths denote. -/
theorem Identifies.keeps (h : Identifies start specEnv (done ++ [list]) after)
    (hsound : Sound start done before) (hresolved : Resolved start specEnv (done ++ [list]))
    (hstep : ListStep list first root before after) :
    KeepsClasses before list ∧ KeepsEqtypes start specEnv done before list := by
  have hlast : list ∈ done ++ [list] := List.mem_append_right _ (List.mem_singleton.2 rfl)
  have hstarting := hresolved.starting hlast
  have hsound' := hsound.step hstarting hstep
  have hdone : Resolved start specEnv done :=
    hresolved.mono fun list hmem => List.mem_append_left _ hmem
  have hfirst : Chain done first root :=
    hsound.chain_self (hstarting first hstep.first_mem) hstep.1.2
  obtain ⟨v, hv⟩ := (hstep.of_root hstep.1.2.self).2
  obtain ⟨pRoot, hpRoot, hpRoot'⟩ :=
    hsound'.path_of_chain hresolved hstep.first_mem hfirst hv
  have hunique : ∀ {first' root'}, FirstMember before list first' root' → root' = root := by
    intro first' root' hfirst'
    obtain ⟨hsome, hroot'⟩ := hfirst'
    rw [hstep.1.1] at hsome
    cases hsome
    exact hroot'.unique hstep.1.2
  refine ⟨fun first' root' hfirst' t ht r hr => ?_,
    fun first' root' hfirst' p hp q u hchain hq heq => ?_⟩
  · rw [hunique hfirst']
    by_contra hnot
    rw [not_or] at hnot
    obtain ⟨hne, hnot⟩ := hnot
    obtain ⟨w, hw⟩ := (hstep.denotes_of_not_mem hr.self hnot).2
    have hchain : Chain done t r := hsound.chain_self (hstarting t ht) hr
    obtain ⟨p, hp, hp'⟩ := hsound'.path_of_chain hresolved ht hchain hw
    have hconnected : Chain (done ++ [list]) r root :=
      (hchain.append _).symm.trans _ _ _
        ((Chain.of_mem hlast ht hstep.first_mem).trans _ _ _ (hfirst.append _))
    obtain ⟨s, hs, hs'⟩ := (h.same_iff p pRoot r root hp hpRoot).2
      (hconnected.pathChain hresolved hp hpRoot)
    exact hne ((hp'.unique hs).trans (hs'.unique hpRoot'))
  · rw [hunique hfirst']
    obtain ⟨⟨_, t⟩, hpt, rfl⟩ := List.mem_map.1 hp
    have hpt' := hresolved list hlast _ hpt
    have hqt : Chain done u t := (pathChain_iff hdone hq hpt').1 hchain
    have hconnected : Chain (done ++ [list]) u root :=
      (hqt.append _).trans _ _ _ ((Chain.of_mem hlast (List.mem_map_of_mem hpt)
        hstep.first_mem).trans _ _ _ (hfirst.append _))
    obtain ⟨s, hs, hs'⟩ := (h.same_iff q pRoot u root hq hpRoot).2
      (hconnected.pathChain hresolved hq hpRoot)
    have hroot : s = root := hs'.unique hpRoot'
    subst hroot
    obtain ⟨c, _, hpath⟩ := hq.cell
    exact (hstep.admitsEq_iff ((hpath _ _).1 hs)).1 (h.eqtype q u hq heq s hs)

end Identify

end SmlSharp.NameEvaluation
