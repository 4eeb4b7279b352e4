/-
The run of a sharing specification over its path lists, and exactly when it
identifies what it names after every list.
-/
import SmlSharp.NameEvaluation.Sharing
import SmlSharp.Lib.Except
import Mathlib.Data.List.Induction

namespace SmlSharp.NameEvaluation

theorem getTfvTfun_denotes {heap : Heap} {fuel : Nat} {tfun : Tfun} {id : TypId} {root : Tfv}
    (hget : getTfvTfun heap fuel tfun = .ok (id, root)) :
    ∃ tfv, tfun = .tfunVar tfv ∧ Denotes heap tfv root := by
  induction fuel generalizing tfun with
  | zero => simp [getTfvTfun] at hget
  | succ fuel ih =>
    cases tfun with
    | tfunDef admitsEq formals realizerTy => simp [getTfvTfun] at hget
    | tfunVar tfv =>
      refine ⟨tfv, rfl, ?_⟩
      rw [getTfvTfun] at hget
      cases hcell : heap tfv with
      | tfvSpec id' admitsEq formals =>
        simp only [hcell, Except.ok.injEq, Prod.mk.injEq] at hget
        obtain ⟨_, rfl⟩ := hget
        exact denotes_self (v := ⟨false, id', admitsEq, formals⟩) (by rw [hcell]; rfl)
      | tfvDty id' admitsEq formals conSpec liftedTys =>
        simp only [hcell, Except.ok.injEq, Prod.mk.injEq] at hget
        obtain ⟨_, rfl⟩ := hget
        exact denotes_self (v := ⟨true, id', admitsEq, formals⟩) (by rw [hcell]; rfl)
      | realized id' tfun =>
        simp only [hcell] at hget
        obtain ⟨d, rfl, hroot, hvar⟩ := ih hget
        exact ⟨.next (Tfunkind.link_eq_some.2 ⟨id', hcell⟩) hroot, hvar⟩
      | tfunDty | instantiated | funDty => simp [hcell] at hget

theorem reportImproper_ok {α : Type} {result : Except Failure α} {value : α} :
    reportImproper result = .ok value ↔ result = .ok value := by
  fun_cases reportImproper result <;> simp_all

theorem getTfv_denotes {heap : Heap} {fuel : Nat} {specEnv : Env} {path : Longsymbol}
    {id : TypId} {root : Tfv} (hget : getTfv heap fuel specEnv path = .ok (id, root)) :
    PathDenotes heap specEnv path root := by
  obtain ⟨found, hfind, hget⟩ := except_bind_ok.1 hget
  cases found with
  | none => simp at hget
  | some tstr =>
    obtain ⟨tfv, htfun, hdenotes⟩ := getTfvTfun_denotes hget
    exact ⟨tstr, tfv, hfind, htfun, hdenotes⟩

theorem resolvePaths_denotes {heap : Heap} {fuel : Nat} {specEnv : Env} :
    ∀ {paths : List Longsymbol} {list : List PathTfv} {ids : List TypId},
      resolvePaths heap fuel specEnv paths = .ok (list, ids) →
      ∀ entry ∈ list, PathDenotes heap specEnv entry.1 entry.2
  | [], list, ids, hresolve => by
      cases except_pure_ok.1 hresolve
      simp
  | path :: rest, list, ids, hresolve => by
      rw [resolvePaths] at hresolve
      obtain ⟨⟨rest', ids'⟩, hrest, hresolve⟩ := except_bind_ok.1 hresolve
      obtain ⟨⟨id, tfv⟩, hget, hresolve⟩ := except_bind_ok.1 hresolve
      cases except_pure_ok.1 hresolve
      intro entry hentry
      rcases List.mem_cons.1 hentry with rfl | hentry
      · exact getTfv_denotes (reportImproper_ok.1 hget)
      · exact resolvePaths_denotes hrest entry hentry

theorem resolveLists_resolved {heap : Heap} {fuel : Nat} {specEnv : Env} :
    ∀ {pathLists : List (List Longsymbol)} {lists : List (List PathTfv)}
      {ids : List (List TypId)},
      resolveLists heap fuel specEnv pathLists = .ok (lists, ids) →
      Resolved heap specEnv lists
  | [], lists, ids, hresolve => by
      cases except_pure_ok.1 hresolve
      simp [Resolved]
  | paths :: rest, lists, ids, hresolve => by
      rw [resolveLists] at hresolve
      obtain ⟨⟨rest', ids'⟩, hrest, hresolve⟩ := except_bind_ok.1 hresolve
      obtain ⟨⟨list, idList⟩, hlist, hresolve⟩ := except_bind_ok.1 hresolve
      cases except_pure_ok.1 hresolve
      intro list' hmem
      rcases List.mem_cons.1 hmem with rfl | hmem
      · exact resolvePaths_denotes hlist
      · exact resolveLists_resolved hrest list' hmem

theorem processShareLists_append {typIdEquiv : TypIdEquiv} {fuel : Nat}
    {done todo : List (List PathTfv)} {start final : NormState} :
    processShareLists typIdEquiv fuel (done ++ todo) start = .ok ((), final) ↔
      ∃ middle, processShareLists typIdEquiv fuel done start = .ok ((), middle) ∧
        processShareLists typIdEquiv fuel todo middle = .ok ((), final) := by
  induction done generalizing start with
  | nil =>
    constructor
    · intro hrun
      exact ⟨start, rfl, hrun⟩
    · rintro ⟨middle, hdone, htodo⟩
      cases stateT_pure_ok.1 hdone
      exact htodo
  | cons list done ih =>
    rw [List.cons_append, processShareLists, stateT_bind_ok]
    constructor
    · rintro ⟨_, state1, hlist, hrest⟩
      obtain ⟨middle, hdone, htodo⟩ := ih.1 hrest
      refine ⟨middle, ?_, htodo⟩
      rw [processShareLists, stateT_bind_ok]
      exact ⟨_, state1, hlist, hdone⟩
    · rintro ⟨middle, hrun, htodo⟩
      rw [processShareLists] at hrun
      obtain ⟨_, state1, hlist, hdone⟩ := stateT_bind_ok.1 hrun
      exact ⟨_, state1, hlist, ih.2 ⟨middle, hdone, htodo⟩⟩

theorem processShareLists_single {typIdEquiv : TypIdEquiv} {fuel : Nat}
    {list : List PathTfv} {start final : NormState} :
    processShareLists typIdEquiv fuel [list] start = .ok ((), final) ↔
      processShareList typIdEquiv fuel list start = .ok ((), final) := by
  rw [processShareLists, stateT_bind_ok]
  constructor
  · rintro ⟨_, state1, hlist, hrest⟩
    cases stateT_pure_ok.1 hrest
    exact hlist
  · intro hlist
    exact ⟨_, final, hlist, rfl⟩

/-- The run of the specification has processed the lists `done`; the lists
`todo` are left. -/
def Processed (fuel : Nat) (specEnv : Env) (spec : ShareSpec) (start : NormState)
    (done todo : List (List PathTfv)) (state : NormState) : Prop :=
  ∃ longsymbolListList idListList, spec.pathLists specEnv = .ok longsymbolListList ∧
    resolveLists start.heap fuel specEnv longsymbolListList = .ok (done ++ todo, idListList) ∧
    processShareLists (makeTypIdEquiv idListList) fuel done start = .ok ((), state)

theorem evalShare_ok {fuel : Nat} {specEnv : Env} {spec : ShareSpec}
    {start final : NormState} :
    evalShare fuel specEnv spec start = .ok ((), final) ↔
      ∃ lists, Processed fuel specEnv spec start lists [] final := by
  rw [evalShare, stateT_bind_ok]
  constructor
  · rintro ⟨pathLists, _, hpaths, hshare⟩
    obtain ⟨hpathLists, rfl⟩ := onHeap_ok.1 hpaths
    rw [processShare] at hshare
    obtain ⟨⟨lists, ids⟩, _, hresolve, hrun⟩ := stateT_bind_ok.1 hshare
    obtain ⟨hlists, rfl⟩ := onHeap_ok.1 hresolve
    exact ⟨lists, pathLists, ids, hpathLists, by rwa [List.append_nil], hrun⟩
  · rintro ⟨lists, pathLists, ids, hpaths, hresolve, hrun⟩
    rw [List.append_nil] at hresolve
    refine ⟨pathLists, start, onHeap_ok.2 ⟨hpaths, rfl⟩, ?_⟩
    rw [processShare, stateT_bind_ok]
    exact ⟨(lists, ids), start, onHeap_ok.2 ⟨hresolve, rfl⟩, hrun⟩

section Runs

variable {fuel : Nat} {specEnv : Env} {spec : ShareSpec} {start state : NormState}
  {done todo : List (List PathTfv)} {list : List PathTfv}

theorem Processed.resolved (h : Processed fuel specEnv spec start done todo state) :
    Resolved start.heap specEnv (done ++ todo) := by
  obtain ⟨_, _, _, hresolve, _⟩ := h
  exact resolveLists_resolved hresolve

/-- The last list that has been processed. -/
theorem Processed.last (h : Processed fuel specEnv spec start (done ++ [list]) todo state) :
    ∃ before typIdEquiv, Processed fuel specEnv spec start done (list :: todo) before ∧
      processShareList typIdEquiv fuel list before = .ok ((), state) := by
  obtain ⟨pathLists, ids, hpaths, hresolve, hrun⟩ := h
  obtain ⟨before, hdone, hlist⟩ := processShareLists_append.1 hrun
  refine ⟨before, makeTypIdEquiv ids, ⟨pathLists, ids, hpaths, ?_, hdone⟩,
    processShareLists_single.1 hlist⟩
  rwa [List.append_cons]

theorem Processed.sound (hdistinct : DistinctIds start.heap)
    (h : Processed fuel specEnv spec start done todo state) :
    Sound start.heap done state.heap := by
  induction done using List.reverseRecOn generalizing todo state with
  | nil =>
    obtain ⟨_, _, _, _, hrun⟩ := h
    cases stateT_pure_ok.1 hrun
    exact Sound.start hdistinct
  | append_singleton done list ih =>
    obtain ⟨before, typIdEquiv, hbefore, hrun⟩ := h.last
    have hsound := ih hbefore
    have hstarting : Starting start.heap list :=
      hbefore.resolved.starting (List.mem_append_right _ List.mem_cons_self)
    obtain ⟨first, root, hstep⟩ :=
      processShareList_step hsound.distinct (hsound.members hstarting) hrun
    exact hsound.step hstarting hstep

/-- Every list, in the heap it is processed in, keeps the classes and the
eqtypes. -/
def ListsKeep (fuel : Nat) (specEnv : Env) (spec : ShareSpec) (start : NormState) : Prop :=
  ∀ done list todo before, Processed fuel specEnv spec start done (list :: todo) before →
    KeepsClasses before.heap list ∧ KeepsEqtypes start.heap specEnv done before.heap list

theorem Processed.merged (hdistinct : DistinctIds start.heap)
    (hkeep : ListsKeep fuel specEnv spec start)
    (h : Processed fuel specEnv spec start done todo state) :
    Merged start.heap specEnv done state.heap := by
  induction done using List.reverseRecOn generalizing todo state with
  | nil =>
    obtain ⟨_, _, _, _, hrun⟩ := h
    cases stateT_pure_ok.1 hrun
    exact Merged.start
  | append_singleton done list ih =>
    obtain ⟨before, typIdEquiv, hbefore, hrun⟩ := h.last
    have hsound := hbefore.sound hdistinct
    have hresolved : Resolved start.heap specEnv (done ++ [list]) :=
      h.resolved.mono fun _ hmem => List.mem_append_left _ hmem
    have hstarting : Starting start.heap list :=
      hresolved.starting (List.mem_append_right _ List.mem_cons_self)
    obtain ⟨first, root, hstep⟩ :=
      processShareList_step hsound.distinct (hsound.members hstarting) hrun
    obtain ⟨hclasses, heqtypes⟩ := hkeep done list todo before hbefore
    exact (ih hbefore).step hsound hresolved hstep hclasses heqtypes

end Runs

/-- After every list of an accepted specification the paths denote what the
lists so far and the earlier sharing connect, without cycles and with the
eqtypes kept, exactly if every list keeps the classes and the eqtypes in the
heap it is processed in. -/
theorem evalShare_identifies_iff {fuel : Nat} {specEnv : Env} {spec : ShareSpec}
    {start final : NormState} (hdistinct : DistinctIds start.heap)
    (haccepted : evalShare fuel specEnv spec start = .ok ((), final)) :
    (∃ lists, Processed fuel specEnv spec start lists [] final) ∧
      ((∀ done todo state, Processed fuel specEnv spec start done todo state →
          Identifies start.heap specEnv done state.heap) ↔
        ListsKeep fuel specEnv spec start) := by
  obtain ⟨lists, hall⟩ := evalShare_ok.1 haccepted
  refine ⟨⟨lists, hall⟩, fun hidentifies done list todo before hbefore => ?_,
    fun hkeep done todo state hstate => ?_⟩
  · have hsound := hbefore.sound hdistinct
    have hresolved : Resolved start.heap specEnv (done ++ [list]) :=
      hbefore.resolved.mono fun list' hmem => by
        rw [List.append_cons]
        exact List.mem_append_left _ hmem
    have hstarting : Starting start.heap list :=
      hresolved.starting (List.mem_append_right _ List.mem_cons_self)
    obtain ⟨pathLists, ids, hpaths, hresolve, hrun⟩ := hbefore
    obtain ⟨pathLists', ids', hpaths', hresolve', hrun'⟩ := hall
    rw [List.append_nil] at hresolve'
    cases hpaths.symm.trans hpaths'
    obtain ⟨rfl, rfl⟩ : lists = done ++ list :: todo ∧ ids' = ids := by
      have heq := hresolve'.symm.trans hresolve
      simpa using heq
    obtain ⟨before', hdone, hlist⟩ := processShareLists_append.1 hrun'
    cases hrun.symm.trans hdone
    obtain ⟨_, after, hlist, _⟩ := stateT_bind_ok.1 hlist
    obtain ⟨first, root, hstep⟩ :=
      processShareList_step hsound.distinct (hsound.members hstarting) hlist
    refine Identifies.keeps (hidentifies (done ++ [list]) todo after ?_) hsound hresolved hstep
    refine ⟨pathLists, ids', hpaths, ?_, ?_⟩
    · rwa [← List.append_cons]
    · exact processShareLists_append.2 ⟨before, hdone, processShareLists_single.2 hlist⟩
  · have hresolved : Resolved start.heap specEnv done :=
      hstate.resolved.mono fun list hmem => List.mem_append_left _ hmem
    exact (hstate.merged hdistinct hkeep).identifies (hstate.sound hdistinct) hresolved

section TornClass

/-- `structure P : sig type t type u end` whose types are shared already, and
`structure Q : sig type t type u end`. -/
def sharedHeap : Heap
  | 0 => .tfvSpec 0 false []
  | 1 => .realized 1 (.tfunVar 0)
  | 2 => .tfvSpec 2 false []
  | tfv => .tfvSpec tfv false []

def sharedEnv : Env :=
  .env [] [("P", .env [("t", .tstr (.tfunVar 0)), ("u", .tstr (.tfunVar 1))] []),
    ("Q", .env [("t", .tstr (.tfunVar 2)), ("u", .tstr (.tfunVar 3))] [])]

theorem sharedHeap_distinct : DistinctIds sharedHeap := by
  have hid : ∀ c v, (sharedHeap c).typeVariable = some v → v.id = c := by
    intro c v hv
    fun_cases sharedHeap c <;> simp_all [sharedHeap, Tfunkind.typeVariable] <;> simp [← hv]
  intro c d v w hv hw hvw
  rw [← hid c v hv, ← hid d w hw, hvw]

/-- `sharing P = Q` joins all four types. -/
theorem evalShare_identifies_iff_shared :
    ∃ final, evalShare 5 sharedEnv (.plspecShareStr [["P"], ["Q"]]) ⟨sharedHeap, []⟩ =
        .ok ((), final) ∧
      ((∀ done todo state,
          Processed 5 sharedEnv (.plspecShareStr [["P"], ["Q"]]) ⟨sharedHeap, []⟩ done todo state →
          Identifies sharedHeap sharedEnv done state.heap) ↔
        ListsKeep 5 sharedEnv (.plspecShareStr [["P"], ["Q"]]) ⟨sharedHeap, []⟩) := by
  have hrun : okAnd (evalShare 5 sharedEnv (.plspecShareStr [["P"], ["Q"]]) ⟨sharedHeap, []⟩)
      (fun _ => true) = true := by decide +kernel
  obtain ⟨⟨_, final⟩, hrun, _⟩ := okAnd_iff.1 hrun
  exact ⟨final, hrun, (evalShare_identifies_iff sharedHeap_distinct hrun).2⟩

/-- `sharing Q = P` leaves `Q.t` apart: its list redirects `P.t` to it, and the
list of the `u`s redirects the same cell once more. -/
theorem sharing_tears_class :
    ¬ ∀ (fuel : Nat) (specEnv : Env) (spec : ShareSpec) (start final : NormState)
      (lists : List (List PathTfv)), DistinctIds start.heap →
      evalShare fuel specEnv spec start = .ok ((), final) →
      Processed fuel specEnv spec start lists [] final →
      Identifies start.heap specEnv lists final.heap := by
  intro hclaim
  have hrun : okAnd (evalShare 5 sharedEnv (.plspecShareStr [["Q"], ["P"]]) ⟨sharedHeap, []⟩)
      (fun result => decide (Heap.link result.2.heap 2 = none ∧
        Heap.link result.2.heap 3 = none)) = true := by decide +kernel
  obtain ⟨⟨_, final⟩, hrun, hlinks⟩ := okAnd_iff.1 hrun
  obtain ⟨hlink2, hlink3⟩ := of_decide_eq_true hlinks
  obtain ⟨lists, hall⟩ := evalShare_ok.1 hrun
  have hidentifies := hclaim 5 sharedEnv _ _ final lists sharedHeap_distinct hrun hall
  have hlists : lists = [[(["Q", "t"], 2), (["P", "t"], 0)],
      [(["Q", "u"], 3), (["P", "u"], 0)]] := by
    obtain ⟨pathLists, ids, hpaths, hresolve, _⟩ := hall
    have hpaths' : okAnd (ShareSpec.pathLists sharedEnv (.plspecShareStr [["Q"], ["P"]]))
        (fun pathLists => decide (pathLists = [[["Q", "t"], ["P", "t"]],
          [["Q", "u"], ["P", "u"]]])) = true := by decide +kernel
    obtain ⟨pathLists', hpaths', heq⟩ := okAnd_iff.1 hpaths'
    cases hpaths'.symm.trans hpaths
    rw [of_decide_eq_true heq, List.append_nil] at hresolve
    cases hresolve
    rfl
  have hstart : ∀ {path c t}, findTstr sharedEnv path = .ok (some (.tstr (.tfunVar c))) →
      Denotes sharedHeap c t → PathDenotes sharedHeap sharedEnv path t :=
    fun hfind hc => ⟨_, _, hfind, rfl, hc⟩
  have hname : ∀ {c v}, (sharedHeap c).typeVariable = some v → Denotes sharedHeap c c :=
    denotes_self
  have hPt : PathDenotes sharedHeap sharedEnv ["P", "t"] 0 := hstart rfl (hname rfl)
  have hPu : PathDenotes sharedHeap sharedEnv ["P", "u"] 0 :=
    hstart rfl ⟨.next (d := 0) rfl (hname rfl).1, (hname rfl).2⟩
  have hQt : PathDenotes sharedHeap sharedEnv ["Q", "t"] 2 := hstart rfl (hname rfl)
  have hQu : PathDenotes sharedHeap sharedEnv ["Q", "u"] 3 := hstart rfl (hname rfl)
  have hchain : PathChain sharedHeap sharedEnv lists ["Q", "t"] ["Q", "u"] := by
    rw [hlists]
    refine .trans _ ["P", "t"] _ (.rel _ _ (Or.inl ⟨_, List.mem_cons_self, ?_⟩))
      (.trans _ ["P", "u"] _ (.rel _ _ (Or.inr ⟨0, hPt, hPu⟩))
        (.rel _ _ (Or.inl ⟨_, List.mem_cons_of_mem _ List.mem_cons_self, ?_⟩)))
    · simp [pathsOf]
    · simp [pathsOf]
  obtain ⟨s, hs, hs'⟩ := (hidentifies.same_iff _ _ 2 3 hQt hQu).2 hchain
  obtain ⟨tstr, tfv, hfind, htfun, hdenotes⟩ := hs
  obtain ⟨tstr', tfv', hfind', htfun', hdenotes'⟩ := hs'
  cases hfind
  cases htfun
  cases hfind'
  cases htfun'
  have h2 : s = 2 := hdenotes.1.eq_of_none hlink2
  have h3 : s = 3 := hdenotes'.1.eq_of_none hlink3
  rw [h2] at h3
  exact absurd h3 (by decide)

end TornClass

end SmlSharp.NameEvaluation
