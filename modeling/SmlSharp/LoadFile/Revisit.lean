/-
Revisiting a dependency graph that was loaded in mode `all`: following its
edges in another mode visits the files that loading in that mode visits, in the
same order, and gives the same graph.
-/
import SmlSharp.LoadFile.NodeGraph

namespace SmlSharp

namespace LoadFile

open InterfaceName

variable {T I : Type}

/-! ### The traversal -/

/-- The mode in which `revisit` follows an edge, if it does. -/
def revisitMode : FileLoadMode → FileDependencyEdgeType → FilePlace →
    Option FileLoadMode
  | .all, _, _ => some .all
  | mode, .include, _ => some mode
  | mode, .provide, _ => some mode
  | .allUserpath, .require, _ => some .allUserpath
  | .allUserpath, .localRequire, .stdpath => none
  | .allUserpath, .localRequire, .userpath => some .allUserpath
  | .allUserpath, .localUse, .stdpath => none
  | .allUserpath, .localUse, .userpath => some .allUserpath
  | .allUserpath, .use, _ => some .allUserpath
  | .nolocal, .require, _ => some .nolocal
  | .nolocal, .localRequire, _ => none
  | .nolocal, .localUse, _ => none
  | .nolocal, .use, _ => some .nolocal
  | .compile, .require, _ => some .nolocal
  | .compile, .localRequire, _ => some .nolocal
  | .compile, .localUse, _ => some .nolocal
  | .compile, .use, _ => some .nolocal
  | .link, .require, _ => some .link
  | .link, .localRequire, _ => some .link
  | .link, .localUse, _ => none
  | .link, .use, _ => none
  | .compileAndLink, .require, _ => some .link
  | .compileAndLink, .localRequire, _ => some .link
  | .compileAndLink, .localUse, _ => some .nolocal
  | .compileAndLink, .use, _ => some .nolocal

mutual

def revisitEdgeList (visited : Assoc Filename FileDependencyNode)
    (place : FilePlace) (mode : FileLoadMode) :
    List FileDependencyEdge →
      Assoc Filename FileDependencyNode × List FileDependencyEdge
  | [] => (visited, [])
  | .edge edgeType node loc :: edges =>
    match revisitMode mode edgeType place with
    | none => revisitEdgeList visited place mode edges
    | some next =>
      let (visited, node) := revisitNode visited next node
      let (visited, edges) := revisitEdgeList visited place mode edges
      (visited, .edge edgeType node loc :: edges)

def revisitNode (visited : Assoc Filename FileDependencyNode)
    (mode : FileLoadMode) :
    FileDependencyNode → Assoc Filename FileDependencyNode × FileDependencyNode
  | .file source fileType edges =>
    match visited.find source.2 with
    | some result => (visited, result)
    | none =>
      let (visited, edges) := revisitEdgeList visited source.1 mode edges
      let node := .file source fileType edges
      (visited.append source.2 node, node)

end

def rootPlace : FileDependencyRootFileType → FilePlace
  | .rootSml (some (place, _)) => place
  | .rootSml none => .userpath
  | .rootIncludes => .userpath

def revisit (root : FileDependencyRoot) : FileDependency :=
  let (visited, edges) :=
    revisitEdgeList .empty (rootPlace root.fileType) root.mode root.edges
  ⟨visited.listItems, { root with edges := edges }⟩

variable {visited : Assoc Filename FileDependencyNode} {node : FileDependencyNode}
  {place : FilePlace} {state : LoadState T I} {filename : Filename} {state' : LoadState T I}
  {doneAll : Entries T I} {loader : Loader} {allow : AllowUse} {tops : List (Top T)}
  {result : TopsResult T} {P : FileLoadMode → Prop} {require : RequireFn (LoadState T I) T I}
  {fs : FileSystem T I} {loadPath : List Source} {stateAll : LoadState T I} {fuel fuelAll : Nat}

theorem revisitNode_visited {found : FileDependencyNode} (mode : FileLoadMode)
    (hfind : visited.find node.filename = some found) :
    revisitNode visited mode node = (visited, found) := by
  cases node with
  | file source fileType edges =>
    have hfind : visited.find source.2 = some found := hfind
    simp only [revisitNode, hfind]

theorem revisitNode_new {visited' : Assoc Filename FileDependencyNode}
    {source : Source} {fileType : FileType}
    {edges edges' : List FileDependencyEdge} {mode : FileLoadMode}
    (hfind : visited.find source.2 = none)
    (hedges : revisitEdgeList visited source.1 mode edges = (visited', edges')) :
    revisitNode visited mode (.file source fileType edges) =
      (visited'.append source.2 (.file source fileType edges'),
        .file source fileType edges') := by
  simp only [revisitNode, hfind, hedges]

theorem revisitEdgeList_skip {mode : FileLoadMode} {edgeType : FileDependencyEdgeType}
    (node : FileDependencyNode) (loc : Loc) (edges : List FileDependencyEdge)
    (hmode : revisitMode mode edgeType place = none) :
    revisitEdgeList visited place mode (.edge edgeType node loc :: edges) =
      revisitEdgeList visited place mode edges := by
  rw [revisitEdgeList, hmode]

theorem revisitEdgeList_follow
    {visited₁ visited₂ : Assoc Filename FileDependencyNode} {mode next : FileLoadMode}
    {edgeType : FileDependencyEdgeType} {node' : FileDependencyNode}
    {loc : Loc} {edges edges' : List FileDependencyEdge}
    (hmode : revisitMode mode edgeType place = some next)
    (hnode : revisitNode visited next node = (visited₁, node'))
    (hedges : revisitEdgeList visited₁ place mode edges = (visited₂, edges')) :
    revisitEdgeList visited place mode (.edge edgeType node loc :: edges) =
      (visited₂, .edge edgeType node' loc :: edges') := by
  rw [revisitEdgeList, hmode]
  simp only [hnode, hedges]

/-! ### Modes of the two traversals

`revisitMode` follows an edge exactly when the loader follows the reference, and
in the mode in which the loader loads the file. -/

theorem revisitMode_include (mode : FileLoadMode) (place : FilePlace) :
    revisitMode mode .include place = some mode := by
  cases mode <;> rfl

theorem revisitMode_provide (mode : FileLoadMode) (place : FilePlace) :
    revisitMode mode .provide place = some mode := by
  cases mode <;> rfl

theorem revisitMode_require (mode : FileLoadMode) (place : FilePlace) :
    revisitMode mode .require place = some (nextMode mode) := by
  cases mode <;> rfl

theorem revisitMode_localRequire (mode : FileLoadMode) (place : FilePlace) :
    revisitMode mode .localRequire place =
      if followsLocalRequire mode place then some (nextMode mode) else none := by
  cases mode <;> cases place <;> rfl

/-- The modes in which the edges of source files are followed. -/
def FollowsUse (mode : FileLoadMode) : Prop :=
  ∀ place, revisitMode mode .use place = some mode

theorem followsUse_use {mode : FileLoadMode} (hmode : mode ≠ .link)
    (place : FilePlace) :
    ∃ next, revisitMode mode .use place = some next ∧ FollowsUse next := by
  cases mode with
  | link => exact absurd rfl hmode
  | nolocal => exact ⟨.nolocal, rfl, fun _ => rfl⟩
  | compile => exact ⟨.nolocal, rfl, fun _ => rfl⟩
  | compileAndLink => exact ⟨.nolocal, rfl, fun _ => rfl⟩
  | allUserpath => exact ⟨.allUserpath, rfl, fun _ => rfl⟩
  | all => exact ⟨.all, rfl, fun _ => rfl⟩

theorem followsUse_localUse {mode : FileLoadMode}
    (hfollow : followsLocalUse mode place = true) :
    ∃ next, revisitMode mode .localUse place = some next ∧ FollowsUse next := by
  cases mode with
  | link => cases hfollow
  | nolocal => cases hfollow
  | compile => exact ⟨.nolocal, rfl, fun _ => rfl⟩
  | compileAndLink => exact ⟨.nolocal, rfl, fun _ => rfl⟩
  | allUserpath =>
    cases place with
    | stdpath => cases hfollow
    | userpath => exact ⟨.allUserpath, rfl, fun _ => rfl⟩
  | all => exact ⟨.all, rfl, fun _ => rfl⟩

theorem revisitMode_localUse_none {mode : FileLoadMode}
    (hfollow : followsLocalUse mode place = false) :
    revisitMode mode .localUse place = none := by
  cases mode <;> cases place <;> first | rfl | cases hfollow

/-! ### What relates the two traversals -/

def EvalResult.source? (result : EvalResult T I) : Option Source :=
  result.fileNode?.map FileDependencyNode.source

/-- The nodes of the completed entries under their file names. -/
def nodeEntries (done : Entries T I) : List (Filename × FileDependencyNode) :=
  done.filterMap fun entry => entry.2.fileNode?.map (entry.1, ·)

/-- The nodes visited so far are those of the completed entries. -/
def VisitedDone (visited : Assoc Filename FileDependencyNode)
    (state : LoadState T I) : Prop :=
  visited.entries = nodeEntries state.done

theorem VisitedDone.find {visited : Assoc Filename FileDependencyNode}
    {state : LoadState T I} (hvisited : VisitedDone visited state)
    {filename : Filename} {result : EvalResult T I} {node : FileDependencyNode}
    (hfind : state.loaded.find filename = some result)
    (hnode : result.fileNode? = some node) :
    visited.find filename = some node := by
  have hresult : result.isCycle = false := by
    cases result <;> first | rfl | cases hnode
  rw [← Assoc.mem_entries_iff, hvisited, nodeEntries, List.mem_filterMap]
  exact ⟨(filename, result), (state.mem_done_iff _ _).mpr ⟨hfind, hresult⟩,
    by simp [hnode]⟩

theorem VisitedDone.find_none (hvisited : VisitedDone visited state)
    (hnone : filename ∉ state.done.map Prod.fst) :
    visited.find filename = none := by
  rw [Option.eq_none_iff_forall_ne_some]
  intro node hfind
  rw [← Assoc.mem_entries_iff, hvisited, nodeEntries, List.mem_filterMap]
    at hfind
  obtain ⟨entry, hentry, hnode⟩ := hfind
  simp only [Option.map_eq_some_iff, Prod.mk.injEq] at hnode
  obtain ⟨-, -, rfl, -⟩ := hnode
  exact hnone (List.mem_map.mpr ⟨entry, hentry, rfl⟩)

/-- Completing a file is appending its node. -/
theorem VisitedDone.append {visited : Assoc Filename FileDependencyNode}
    {state state' : LoadState T I} (hvisited : VisitedDone visited state)
    {filename : Filename} {result : EvalResult T I} {node : FileDependencyNode}
    (hdone : state'.done = state.done ++ [(filename, result)])
    (hnode : result.fileNode? = some node) :
    VisitedDone (visited.append filename node) state' := by
  have hnodup := state'.done_keys_nodup
  rw [hdone, List.map_append, List.nodup_append] at hnodup
  have hnone : filename ∉ state.done.map Prod.fst := fun hmem =>
    hnodup.2.2 filename hmem filename (by simp) rfl
  rw [VisitedDone, Assoc.entries_append_new _ _ (hvisited.find_none hnone),
    hvisited, nodeEntries, nodeEntries, hdone, List.filterMap_append]
  simp [hnode]

/-- The names of the required interfaces, from which the hash is made. -/
def requiredNames (requires : Assoc Filename (InterfaceDec I × Loc)) :
    List (Filename × InterfaceName) :=
  (requires.map fun entry => entry.1.interfaceName).entries

/-- The completed interface files require the same interfaces as in the load
`doneAll`. -/
def NamesAgree (done doneAll : Entries T I) : Prop :=
  ∀ filename result, (filename, .smi result) ∈ done →
    ∃ resultAll, findDone doneAll filename = some (.smi resultAll) ∧
      requiredNames result.requires = requiredNames resultAll.requires

/-- The completed files were found at the same places as in the load
`doneAll`. -/
def PlacesAgree (done doneAll : Entries T I) : Prop :=
  ∀ filename result resultAll, (filename, result) ∈ done →
    findDone doneAll filename = some resultAll →
    result.source? = resultAll.source?

theorem PlacesAgree.of_prefix {pre done : Entries T I}
    (hplaces : PlacesAgree done doneAll) (hpre : pre <+: done) :
    PlacesAgree pre doneAll := fun filename result resultAll hmem hfind =>
  hplaces filename result resultAll (hpre.subset hmem) hfind

theorem map_concatWith_second {α β : Type} (g : α → β)
    (left right : Assoc Filename α) :
    (Assoc.concatWith second left right).map g =
      .concatWith second (left.map g) (right.map g) :=
  Assoc.map_concatWith g second second (fun _ _ => rfl) left right

theorem requiredNames_concatWith {left left' right right' : Assoc Filename (InterfaceDec I × Loc)}
    (hleft : requiredNames left = requiredNames left')
    (hright : requiredNames right = requiredNames right') :
    requiredNames (.concatWith second left right) =
      requiredNames (.concatWith second left' right') := by
  simp only [requiredNames, map_concatWith_second]
  exact Assoc.entries_concatWith_congr _ hleft hright

theorem requiredNames_concatWith_empty (requires : Assoc Filename (InterfaceDec I × Loc)) :
    requiredNames (.concatWith second .empty requires) =
      requiredNames requires := by
  simp only [requiredNames, map_concatWith_second]
  exact Assoc.entries_concatWith_empty _ _

/-- The hash depends on the names of the required interfaces only. -/
theorem interfaceHash_congr (fs : FileSystem T I) (filename : Filename)
    (provide : List I) {requires requires' : Assoc Filename (InterfaceDec I × Loc)}
    (hnames : requiredNames requires = requiredNames requires') :
    interfaceHash fs filename provide requires =
      interfaceHash fs filename provide requires' := by
  have hcollect : ∀ requires : Assoc Filename (InterfaceDec I × Loc),
      requires.collect (fun entry => entry.1.interfaceName) =
        (requiredNames requires).map Prod.snd :=
    fun requires => (Assoc.listItems_map _ requires).symm
  simp only [interfaceHash, hcollect, hnames]

/-! ### The simulation

A load in some mode and `revisit` in that mode go through the same files.  The
graph that is revisited comes from the completed entries `doneAll` of a load in
mode `all`. -/

section Simulation

variable {fs : FileSystem T I} {loadPath : List Source} {doneAll : Entries T I}

/-- How the traversals correspond between two files. -/
structure Simulated (doneAll : Entries T I)
    (visited : Assoc Filename FileDependencyNode) (state : LoadState T I) :
    Prop where
  visitedDone : VisitedDone visited state
  namesAgree : NamesAgree state.done doneAll

def UseSim (fs : FileSystem T I) (loadPath : List Source)
    (doneAll : Entries T I) (use : UseFn (LoadState T I) T) : Prop :=
  ∀ state loader pathLoc state' result visited mode resultAll,
    use state loader pathLoc = .ok (state', result) →
    lookupUse fs doneAll () loader pathLoc = .ok ((), resultAll) →
    FollowsUse mode →
    Invariant fs loadPath (fun _ => True) state →
    Simulated doneAll visited state →
    PlacesAgree state'.done doneAll →
    ∃ visited', revisitNode visited mode resultAll.node =
        (visited', result.node) ∧
      Simulated doneAll visited' state' ∧ result.loc = resultAll.loc

def RequireSim (fs : FileSystem T I) (loadPath : List Source)
    (doneAll : Entries T I) (require : RequireFn (LoadState T I) T I) : Prop :=
  ∀ state loader mode filePathLoc state' result visited resultAll,
    require state loader mode filePathLoc = .ok (state', result) →
    lookupRequire fs doneAll () loader .all filePathLoc = .ok ((), resultAll) →
    loader.loadPath = loadPath →
    Invariant fs loadPath (fun _ => True) state →
    Simulated doneAll visited state →
    PlacesAgree state'.done doneAll →
    ∃ visited', revisitNode visited mode resultAll.node =
        (visited', result.node) ∧
      Simulated doneAll visited' state' ∧ result.loc = resultAll.loc ∧
      requiredNames result.requires = requiredNames resultAll.requires

theorem evalTopList_sim {use : UseFn (LoadState T I) T}
    (huse : UseOk fs loadPath (fun _ => True) use)
    (hsim : UseSim fs loadPath doneAll use) {allow' : AllowUse} {resultAll : TopsResult T}
    {mode next : FileLoadMode}
    (heval : evalTopList use state loader allow tops = .ok (state', result))
    (hall : evalTopList (lookupUse fs doneAll) () loader allow' tops =
      .ok ((), resultAll))
    (hmode : revisitMode mode .use place = some next) (hnext : FollowsUse next)
    (hinv : Invariant fs loadPath (fun _ => True) state)
    (hvisited : Simulated doneAll visited state)
    (hplaces : PlacesAgree state'.done doneAll) :
    ∃ visited', revisitEdgeList visited place mode resultAll.edges =
        (visited', result.edges) ∧ Simulated doneAll visited' state' := by
  induction tops generalizing state result resultAll visited with
  | nil =>
    cases heval
    cases hall
    exact ⟨visited, rfl, hvisited⟩
  | cons top tops ih =>
    simp only [evalTopList, except_bind_ok, except_pure_ok] at heval hall
    obtain ⟨⟨state₁, first⟩, hfirst, ⟨state₂, rest⟩, hrest, hresult⟩ := heval
    obtain ⟨⟨⟨⟩, firstAll⟩, hfirstAll, ⟨⟨⟩, restAll⟩, hrestAll, hresultAll⟩ :=
      hall
    cases hresult
    cases hresultAll
    cases top with
    | topdec topdecs =>
      cases hfirst
      cases hfirstAll
      have hedges := ih hrest hrestAll hinv hvisited
      exact hedges
    | use path loc =>
      obtain ⟨hstep₁, -, -⟩ := evalTop_ok huse hfirst hinv
      obtain ⟨hstep₂, -, -⟩ := evalTopList_ok huse hrest hstep₁.inv
      simp only [evalTop, except_bind_ok, except_pure_ok] at hfirst hfirstAll
      obtain ⟨⟨state₁', used⟩, hload, ⟨⟩, -, hresult⟩ := hfirst
      obtain ⟨⟨⟨⟩, usedAll⟩, hloadAll, ⟨⟩, -, hresultAll⟩ := hfirstAll
      cases hresult
      cases hresultAll
      obtain ⟨visited₁, hnode, hvisited₁, hloc⟩ := hsim _ _ _ _ _ _ _ _ hload
        hloadAll hnext hinv hvisited
        (hplaces.of_prefix hstep₂.extends_.done)
      obtain ⟨visited₂, hedges, hvisited₂⟩ :=
        ih hrest hrestAll hstep₁.inv hvisited₁
      refine ⟨visited₂, ?_, hvisited₂⟩
      rw [hloc]
      exact revisitEdgeList_follow hmode hnode hedges

theorem evalUnit_sim {use : UseFn (LoadState T I) T} (place : FilePlace)
    (huse : UseOk fs loadPath (fun _ => True) use)
    (hsim : UseSim fs loadPath doneAll use)
    {abunit : UnitParseResult T} {resultAll : TopsResult T} {mode : FileLoadMode}
    (heval : evalUnit use state loader abunit = .ok (state', result))
    (hall : evalUnit (lookupUse fs doneAll) () loader abunit =
      .ok ((), resultAll)) (hmode : FollowsUse mode)
    (hinv : Invariant fs loadPath (fun _ => True) state)
    (hvisited : Simulated doneAll visited state)
    (hplaces : PlacesAgree state'.done doneAll) :
    ∃ visited', revisitEdgeList visited place mode resultAll.edges =
        (visited', result.edges) ∧ Simulated doneAll visited' state' := by
  match abunit with
  | .eof =>
    cases heval
    cases hall
    exact ⟨visited, rfl, hvisited⟩
  | .unit ⟨.interface path loc, _, _⟩ => cases heval
  | .unit ⟨.nointerface, tops, _⟩ =>
    exact evalTopList_sim huse hsim heval hall (hmode place) hmode hinv
      hvisited hplaces

/-- A file that is found completed was visited. -/
theorem Simulated.loaded (hvisited : Simulated doneAll visited state)
    (hclosed : Closed fs loadPath P doneAll)
    {found foundAll : EvalResult T I} {nodeAll : FileDependencyNode}
    (hfind : state.loaded.find filename = some found)
    (hnode : found.fileNode? = some node)
    (hfindAll : findDone doneAll filename = some foundAll)
    (hnodeAll : foundAll.fileNode? = some nodeAll) (mode : FileLoadMode) :
    revisitNode visited mode nodeAll = (visited, node) := by
  obtain ⟨pre, -, hentry⟩ := hclosed.entry hfindAll
  apply revisitNode_visited
  rw [hentry.filename hnodeAll]
  exact hvisited.visitedDone.find hfind hnode

theorem Simulated.start {visited : Assoc Filename FileDependencyNode}
    {state : LoadState T I} (hvisited : Simulated doneAll visited state)
    {filename : Filename} (hnew : state.loaded.find filename = none) :
    Simulated doneAll visited (state.start filename) := by
  have hdone := state.start_done hnew
  refine ⟨?_, ?_⟩
  · rw [VisitedDone, hdone]
    exact hvisited.visitedDone
  · rw [hdone]
    exact hvisited.namesAgree

theorem VisitedDone.find_none_of_new (hvisited : VisitedDone visited state)
    (hnew : state.loaded.find filename = none) :
    visited.find filename = none := by
  apply hvisited.find_none
  rw [← findDone_eq_none_iff, Option.eq_none_iff_forall_ne_some]
  intro result hfind
  rw [LoadState.findDone_done, hnew] at hfind
  cases hfind.1

theorem loadUse_sim (hclosed : Closed fs loadPath (· = .all) doneAll)
    (fuel : Nat) : UseSim fs loadPath doneAll (loadUse fs fuel) := by
  induction fuel with
  | zero =>
    intro state loader pathLoc state' result visited mode resultAll hload
    cases hload
  | succ fuel ih =>
    rintro state loader ⟨path, loc⟩ state' result visited mode resultAll hload
      hall hmode hinv hvisited hplaces
    obtain ⟨fuel', source, hfuel, hvisit, hcase⟩ := loadUse_cases hload
    cases hfuel
    obtain ⟨loader', sourceAll, foundAll, hvisitAll, hfindAll, rfl⟩ :=
      lookupUse_ok.mp hall
    rw [hvisit] at hvisitAll
    cases hvisitAll
    rcases hcase with ⟨found, hfind, rfl, rfl⟩ |
      ⟨hnew, abunit, state₁, tops, hparse, heval, rfl, hfinish⟩
    · exact ⟨visited, hvisited.loaded hclosed hfind rfl hfindAll rfl mode,
        hvisited, rfl⟩
    · obtain ⟨hstep, -, hlookup⟩ := evalUnit_ok
        (loadUse_ok fs loadPath (fun _ => True) fuel) heval (hinv.start hnew)
      obtain ⟨hok, hfound, hdone⟩ := finish_ok hnew hstep rfl le_rfl
        (by intro dec hsome; cases hsome) rfl
        (EntryOk.sml loc hparse hlookup) hfinish
      obtain ⟨pre, hpre, hentry⟩ := hclosed.entry hfindAll
      obtain ⟨sourceAll, abunitAll, topsAll, hfile, hparseAll, hevalAll,
        hfoundAll⟩ := hentry.sml_inv
      rw [hparse] at hparseAll
      cases hparseAll
      have hsource := hplaces source.2 _ _ (mem_of_findDone hfound) hfindAll
      rw [hfoundAll] at hsource
      cases hsource
      obtain ⟨visited₁, hedges, hvisited₁⟩ := evalUnit_sim source.1
        (loadUse_ok fs loadPath (fun _ => True) fuel) ih heval
        (evalUnit_mono (lookupUse_mono fs hpre) hevalAll) hmode
        (hinv.start hnew) (hvisited.start hnew)
        (hplaces.of_prefix (hdone ▸ List.prefix_append _ _))
      refine ⟨_, ?_, ⟨hvisited₁.visitedDone.append hdone rfl, ?_⟩, rfl⟩
      · rw [hfoundAll]
        exact revisitNode_new (hvisited.visitedDone.find_none_of_new hnew)
          hedges
      · intro filename result hmem
        rw [hdone, List.mem_append] at hmem
        rcases hmem with hmem | hmem
        · exact hvisited₁.namesAgree filename result hmem
        · simp at hmem

theorem revisitEdgeList_append (place : FilePlace) (mode : FileLoadMode)
    (left right : List FileDependencyEdge) :
    revisitEdgeList visited place mode (left ++ right) =
      let first := revisitEdgeList visited place mode left
      let rest := revisitEdgeList first.1 place mode right
      (rest.1, first.2 ++ rest.2) := by
  induction left generalizing visited with
  | nil => rfl
  | cons edge left ih =>
    obtain ⟨edgeType, node, loc⟩ := edge
    rw [List.cons_append, revisitEdgeList, revisitEdgeList]
    cases hmode : revisitMode mode edgeType place with
    | none => exact ih
    | some next => simp only [ih, List.cons_append]

/-- A reference that is followed in mode `all` and maybe not in the other. -/
theorem evalIrequire_sim {use : UseFn (LoadState T I) T}
    (hreqSim : RequireSim fs loadPath doneAll require)
    (huseSim : UseSim fs loadPath doneAll use) {mode : FileLoadMode}
    {irequire : Irequire} {result resultAll : Option (RequiresResult T I)}
    (heval : evalIrequire require use state loader mode irequire =
      .ok (state', result))
    (hall : evalIrequire (lookupRequire fs doneAll) (lookupUse fs doneAll) ()
      loader .all irequire = .ok ((), resultAll))
    (hpath : loader.loadPath = loadPath)
    (hinv : Invariant fs loadPath (fun _ => True) state)
    (hvisited : Simulated doneAll visited state)
    (hplaces : PlacesAgree state'.done doneAll) :
    ∃ visited' evaluatedAll, resultAll = some evaluatedAll ∧
      revisitEdgeList visited (baseDirPlace loader) mode evaluatedAll.edges =
        (visited', (result.getD .empty).edges) ∧
      Simulated doneAll visited' state' ∧
      requiredNames (result.getD .empty).requires =
        requiredNames evaluatedAll.requires := by
  cases irequire with
  | require path options loc =>
    simp only [evalIrequire, except_bind_ok, except_pure_ok] at heval hall
    obtain ⟨⟨state₁, loaded⟩, hload, evaluated, hoptions, hresult⟩ := heval
    obtain ⟨⟨⟨⟩, loadedAll⟩, hloadAll, evaluatedAll, hoptionsAll, hresultAll⟩ :=
      hall
    cases hresult
    cases hresultAll
    obtain ⟨visited', hnode, hvisited', -, hnames⟩ := hreqSim _ _ _ _ _ _ _ _
      hload hloadAll hpath hinv hvisited hplaces
    refine ⟨visited', _, rfl, ?_, hvisited', ?_⟩
    · apply revisitEdgeList_follow (revisitMode_require _ _) ?_ rfl
      rw [evalRequireOptions_node hoptions,
        evalRequireOptions_node hoptionsAll]
      exact hnode
    · simpa [evalRequireOptions_requires hoptions,
        evalRequireOptions_requires hoptionsAll] using hnames
  | localRequire path options loc =>
    simp only [evalIrequire, followsLocalRequire, ↓reduceIte, except_bind_ok,
      except_pure_ok] at hall
    obtain ⟨⟨⟨⟩, loadedAll⟩, hloadAll, evaluatedAll, hoptionsAll, hresultAll⟩ :=
      hall
    cases hresultAll
    have hmode := revisitMode_localRequire mode (baseDirPlace loader)
    simp only [evalIrequire] at heval
    by_cases hfollow : followsLocalRequire mode (baseDirPlace loader) = true
    · simp only [hfollow, ↓reduceIte, except_bind_ok, except_pure_ok]
        at heval hmode
      obtain ⟨⟨state₁, loaded⟩, hload, evaluated, hoptions, hresult⟩ := heval
      cases hresult
      obtain ⟨visited', hnode, hvisited', -, -⟩ := hreqSim _ _ _ _ _ _ _ _
        hload hloadAll hpath hinv hvisited hplaces
      refine ⟨visited', _, rfl, ?_, hvisited', rfl⟩
      apply revisitEdgeList_follow hmode ?_ rfl
      rw [evalRequireOptions_node hoptions,
        evalRequireOptions_node hoptionsAll]
      exact hnode
    · simp only [hfollow, Bool.false_eq_true, ↓reduceIte] at heval hmode
      cases heval
      exact ⟨visited, _, rfl, revisitEdgeList_skip _ _ _ hmode, hvisited, rfl⟩
  | localUse path loc =>
    simp only [evalIrequire, followsLocalUse, ↓reduceIte, except_bind_ok,
      except_pure_ok] at hall
    obtain ⟨⟨⟨⟩, usedAll⟩, hloadAll, hresultAll⟩ := hall
    cases hresultAll
    simp only [evalIrequire] at heval
    by_cases hfollow : followsLocalUse mode (baseDirPlace loader) = true
    · simp only [hfollow, ↓reduceIte, except_bind_ok, except_pure_ok] at heval
      obtain ⟨⟨state₁, used⟩, hload, hresult⟩ := heval
      cases hresult
      obtain ⟨next, hmode, hnext⟩ := followsUse_localUse hfollow
      obtain ⟨visited', hnode, hvisited', hloc⟩ := huseSim _ _ _ _ _ _ _ _
        hload hloadAll hnext hinv hvisited hplaces
      refine ⟨visited', _, rfl, ?_, hvisited', rfl⟩
      rw [hloc]
      exact revisitEdgeList_follow hmode hnode rfl
    · simp only [hfollow, Bool.false_eq_true, ↓reduceIte] at heval
      cases heval
      have hmode := revisitMode_localUse_none (by simpa using hfollow)
      exact ⟨visited, _, rfl, revisitEdgeList_skip _ _ _ hmode, hvisited, rfl⟩

theorem evalIrequireList_sim {use : UseFn (LoadState T I) T}
    (hreq : RequireOk fs loadPath (fun _ => True) require)
    (huse : UseOk fs loadPath (fun _ => True) use)
    (hreqSim : RequireSim fs loadPath doneAll require)
    (huseSim : UseSim fs loadPath doneAll use) {mode : FileLoadMode}
    {irequires : List Irequire} {result resultAll : RequiresResult T I}
    (heval : evalIrequireList require use state loader mode irequires =
      .ok (state', result))
    (hall : evalIrequireList (lookupRequire fs doneAll) (lookupUse fs doneAll)
      () loader .all irequires = .ok ((), resultAll))
    (hpath : loader.loadPath = loadPath)
    (hinv : Invariant fs loadPath (fun _ => True) state)
    (hvisited : Simulated doneAll visited state)
    (hplaces : PlacesAgree state'.done doneAll) :
    ∃ visited', revisitEdgeList visited (baseDirPlace loader) mode
        resultAll.edges = (visited', result.edges) ∧
      Simulated doneAll visited' state' ∧
      requiredNames result.requires = requiredNames resultAll.requires := by
  induction irequires generalizing state result resultAll visited with
  | nil =>
    cases heval
    cases hall
    exact ⟨visited, rfl, hvisited, rfl⟩
  | cons irequire irequires ih =>
    simp only [evalIrequireList, except_bind_ok] at heval hall
    obtain ⟨⟨state₁, first⟩, hfirst, ⟨state₂, rest⟩, hrest, hresult⟩ := heval
    obtain ⟨⟨⟨⟩, firstAll⟩, hfirstAll, ⟨⟨⟩, restAll⟩, hrestAll, hresultAll⟩ :=
      hall
    have hstate : state₂ = state' := by
      cases first <;> simp_all [except_pure_ok]
    subst hstate
    obtain ⟨hstep₁, -⟩ := evalIrequire_ok hreq huse hfirst hpath trivial hinv
    obtain ⟨hstep₂, -⟩ :=
      evalIrequireList_ok hreq huse hrest hpath trivial hstep₁.inv
    obtain ⟨visited₁, evaluatedAll, rfl, hedges₁, hvisited₁, hnames₁⟩ :=
      evalIrequire_sim hreqSim huseSim hfirst hfirstAll hpath hinv hvisited
        (hplaces.of_prefix hstep₂.extends_.done)
    obtain ⟨visited₂, hedges₂, hvisited₂, hnames₂⟩ :=
      ih hrest hrestAll hstep₁.inv hvisited₁
    simp only [except_pure_ok, Prod.mk.injEq, true_and] at hresultAll
    subst hresultAll
    refine ⟨visited₂, ?_, hvisited₂, ?_⟩
    · simp only [RequiresResult.merge, revisitEdgeList_append, hedges₁, hedges₂]
      cases first with
      | none =>
        cases hresult
        rfl
      | some first =>
        cases hresult
        rfl
    · have hmerged := requiredNames_concatWith hnames₁ hnames₂
      cases first with
      | none =>
        cases hresult
        exact (requiredNames_concatWith_empty _).symm.trans hmerged
      | some first =>
        cases hresult
        exact hmerged

theorem loadRequireList_sim (hreq : RequireOk fs loadPath (fun _ => True) require)
    (hreqSim : RequireSim fs loadPath doneAll require) {mode : FileLoadMode}
    {pathLocs : List (FileOrPath × Loc)} {result resultAll : IncludesResult T I} (place : FilePlace)
    (heval : loadRequireList require state loader mode pathLocs =
      .ok (state', result))
    (hall : loadRequireList (lookupRequire fs doneAll) () loader .all pathLocs =
      .ok ((), resultAll)) (hpath : loader.loadPath = loadPath)
    (hinv : Invariant fs loadPath (fun _ => True) state)
    (hvisited : Simulated doneAll visited state)
    (hplaces : PlacesAgree state'.done doneAll) :
    ∃ visited', revisitEdgeList visited place mode
        (includeEdges resultAll.nodes resultAll.locs) =
          (visited', includeEdges result.nodes result.locs) ∧
      Simulated doneAll visited' state' ∧
      requiredNames result.requires = requiredNames resultAll.requires := by
  induction pathLocs generalizing state result resultAll visited with
  | nil =>
    cases heval
    cases hall
    exact ⟨visited, rfl, hvisited, rfl⟩
  | cons pathLoc pathLocs ih =>
    simp only [loadRequireList, except_bind_ok, except_pure_ok] at heval hall
    obtain ⟨⟨state₁, first⟩, hfirst, ⟨state₂, rest⟩, hrest, hresult⟩ := heval
    obtain ⟨⟨⟨⟩, firstAll⟩, hfirstAll, ⟨⟨⟩, restAll⟩, hrestAll, hresultAll⟩ :=
      hall
    cases hresult
    cases hresultAll
    obtain ⟨hstep₁, -⟩ := hreq _ _ _ _ _ _ hfirst hpath trivial hinv
    obtain ⟨hstep₂, -⟩ :=
      loadRequireList_ok hreq hrest hpath trivial hstep₁.inv
    obtain ⟨visited₁, hnode, hvisited₁, hloc, hnames₁⟩ :=
      hreqSim _ _ _ _ _ _ _ _ hfirst hfirstAll hpath hinv hvisited
        (hplaces.of_prefix hstep₂.extends_.done)
    obtain ⟨visited₂, hedges, hvisited₂, hnames₂⟩ :=
      ih hrest hrestAll hstep₁.inv hvisited₁
    refine ⟨visited₂, ?_, hvisited₂,
      requiredNames_concatWith hnames₁ hnames₂⟩
    simp only [includeEdges, List.zip_cons_cons, List.map_cons, hloc]
    exact revisitEdgeList_follow (revisitMode_include mode place) hnode hedges

/-- Completing an interface file that was loaded anew. -/
theorem Simulated.finishSmi (hvisited : Simulated doneAll visited state)
    {result resultAll : SmiResult T I}
    (hdone : state'.done = state.done ++ [(filename, .smi result)])
    (hfindAll : findDone doneAll filename = some (.smi resultAll))
    (hnames : requiredNames result.requires =
      requiredNames resultAll.requires) :
    Simulated doneAll (visited.append filename result.node) state' := by
  refine ⟨hvisited.visitedDone.append hdone rfl, ?_⟩
  intro filename' result' hmem
  rw [hdone, List.mem_append] at hmem
  rcases hmem with hmem | hmem
  · exact hvisited.namesAgree filename' result' hmem
  · simp only [List.mem_singleton, Prod.mk.injEq, EvalResult.smi.injEq] at hmem
    obtain ⟨rfl, rfl⟩ := hmem
    exact ⟨resultAll, hfindAll, hnames⟩

theorem loadRequire_sim (hclosed : Closed fs loadPath (· = .all) doneAll)
    (fuel : Nat) : RequireSim fs loadPath doneAll (loadRequire fs fuel) := by
  induction fuel with
  | zero =>
    intro state loader mode filePathLoc state' result visited resultAll hload
    cases hload
  | succ fuel ih =>
    intro state loader mode filePathLoc state' result visited resultAll hload
      hall hpath hinv hvisited hplaces
    obtain ⟨fuel', source, hfuel, hvisit, hcase⟩ := loadRequire_cases hload
    cases hfuel
    subst hpath
    have hP : ∀ mode : FileLoadMode, True → True := fun _ h => h
    have hreq := loadRequire_ok fs loader.loadPath (fun _ => True) hP fuel
    have huse := loadUse_ok fs loader.loadPath (fun _ => True) fuel
    obtain ⟨loader', sourceAll, foundAll, hvisitAll, hfindAll, rfl⟩ :=
      lookupRequire_ok.mp hall
    rw [hvisit] at hvisitAll
    cases hvisitAll
    obtain ⟨pre, hpre, hentry⟩ := hclosed.entry hfindAll
    obtain ⟨sourceAll, modeAll, hfile, hmodeAll, hcaseAll⟩ := hentry.smi_inv
    subst hmodeAll
    rcases hcase with ⟨found, hfind, rfl, rfl⟩ |
      ⟨hnew, includes, topdecs, state₁, evaluated, hparse, heval, rfl,
        hfinish⟩ |
      ⟨hnew, requires, provide, state₁, evaluated, hparse, heval, rfl,
        hfinish⟩
    · have hmem := (state'.mem_done_iff source.2 (.smi found)).mpr ⟨hfind, rfl⟩
      obtain ⟨foundAll', hfindAll', hnames⟩ :=
        hvisited.namesAgree source.2 found hmem
      rw [hfindAll] at hfindAll'
      cases hfindAll'
      exact ⟨visited, hvisited.loaded hclosed hfind rfl hfindAll rfl mode,
        hvisited, rfl, hnames⟩
    · obtain ⟨hstep, hlookup⟩ :=
        loadRequireList_ok hreq heval rfl trivial (hinv.start hnew)
      obtain ⟨hok, hfound, hdone⟩ := finish_ok hnew hstep rfl le_rfl
        (by intro dec hsome; cases hsome) rfl
        (EntryOk.includes filePathLoc.2 hparse trivial hlookup) hfinish
      rcases hcaseAll with ⟨includesAll, topdecsAll, evaluatedAll, hparseAll,
        hevalAll, hfoundAll⟩ | ⟨_, _, _, _, hparseAll, -, -⟩
      · rw [hparse] at hparseAll
        cases hparseAll
        have hsource := hplaces source.2 _ _ (mem_of_findDone hfound) hfindAll
        rw [hfoundAll] at hsource
        cases hsource
        obtain ⟨visited₁, hedges, hvisited₁, hnames⟩ := loadRequireList_sim
          hreq ih source.1 heval
          (loadRequireList_mono (lookupRequire_mono fs hpre) hevalAll) rfl
          (hinv.start hnew) (hvisited.start hnew)
          (hplaces.of_prefix (hdone ▸ List.prefix_append _ _))
        have hrequires : requiredNames (includesResult source filePathLoc.2
            topdecs evaluated).requires = requiredNames foundAll.requires := by
          rw [hfoundAll]
          exact hnames
        refine ⟨_, ?_, hvisited₁.finishSmi hdone hfindAll hrequires, rfl,
          hrequires⟩
        rw [hfoundAll]
        exact revisitNode_new (hvisited.visitedDone.find_none_of_new hnew)
          hedges
      · rw [hparse] at hparseAll
        cases hparseAll
    · obtain ⟨hstep, hlookup⟩ := evalIrequireList_ok hreq huse heval rfl
        trivial (hinv.start hnew)
      have hnext : { state₁ with nextId := state₁.nextId + 1 }.loaded =
        state₁.loaded := rfl
      obtain ⟨hok, hfound, hdone⟩ := finish_ok hnew hstep hnext
        (Nat.le_succ _)
        (by
          intro dec hsome
          cases hsome
          exact ⟨rfl, Nat.lt_succ_self _⟩) rfl
        (EntryOk.interface state₁.nextId filePathLoc.2 hparse trivial hlookup)
        hfinish
      rcases hcaseAll with ⟨_, _, _, hparseAll, -, -⟩ |
        ⟨requiresAll, provideAll, evaluatedAll, idAll, hparseAll, hevalAll,
          hfoundAll⟩
      · rw [hparse] at hparseAll
        cases hparseAll
      · rw [hparse] at hparseAll
        cases hparseAll
        have hsource := hplaces source.2 _ _ (mem_of_findDone hfound) hfindAll
        rw [hfoundAll] at hsource
        cases hsource
        obtain ⟨visited₁, hedges, hvisited₁, hnames⟩ := evalIrequireList_sim
          hreq huse ih (loadUse_sim hclosed fuel) heval
          (evalIrequireList_mono (lookupRequire_mono fs hpre)
            (lookupUse_mono fs hpre) hevalAll) rfl
          (hinv.start hnew) (hvisited.start hnew)
          (hplaces.of_prefix (hdone ▸ List.prefix_append _ _))
        have hhash := interfaceHash_congr fs source.2 provide hnames
        have hrequires : requiredNames (interfaceResult fs state₁.nextId source
            filePathLoc.2 provide evaluated).requires =
              requiredNames foundAll.requires := by
          rw [hfoundAll]
          simp only [interfaceResult, interfaceDec, requiredNames,
            Assoc.map_singleton, hhash]
        refine ⟨_, ?_, hvisited₁.finishSmi hdone hfindAll hrequires, rfl,
          hrequires⟩
        rw [hfoundAll]
        simp only [interfaceResult, interfaceDec, hhash]
        exact revisitNode_new (hvisited.visitedDone.find_none_of_new hnew)
          hedges

end Simulation

/-! ### Revisiting a whole graph -/

/-- Every file of the first graph is found at the place at which the second
graph has it. -/
def SamePlaces (nodes nodesAll : List FileDependencyNode) : Prop :=
  ∀ node ∈ nodes, ∀ nodeAll ∈ nodesAll, node.filename = nodeAll.filename →
    node.source = nodeAll.source

instance (nodes nodesAll : List FileDependencyNode) :
    Decidable (SamePlaces nodes nodesAll) :=
  inferInstanceAs (Decidable (∀ node ∈ nodes, ∀ nodeAll ∈ nodesAll,
    node.filename = nodeAll.filename → node.source = nodeAll.source))

/-- A source file makes no `_use`. -/
def NoUse (tops : List (Top T)) : Prop :=
  ∀ path loc, .use path loc ∉ tops

theorem placesAgree_of_samePlaces {Q : FileLoadMode → Prop}
    (hclosed : Closed fs loadPath P state.done)
    (hclosedAll : Closed fs loadPath Q stateAll.done)
    (hplaces : SamePlaces (nodesOf state.done) (nodesOf stateAll.done)) :
    PlacesAgree state.done stateAll.done := by
  intro filename result resultAll hmem hfindAll
  have hmemAll := mem_of_findDone hfindAll
  obtain ⟨node, hnode⟩ := LoadState.fileNode_of_mem_done hmem
  obtain ⟨nodeAll, hnodeAll⟩ := LoadState.fileNode_of_mem_done hmemAll
  have hfind := findDone_of_mem state.done_keys_nodup hmem
  obtain ⟨pre, -, hentry⟩ := hclosed.entry hfind
  obtain ⟨preAll, -, hentryAll⟩ := hclosedAll.entry hfindAll
  have hsame : node.filename = nodeAll.filename := by
    rw [hentry.filename hnode, hentryAll.filename hnodeAll]
  have hsource := hplaces node (List.mem_filterMap.mpr ⟨_, hmem, hnode⟩)
    nodeAll (List.mem_filterMap.mpr ⟨_, hmemAll, hnodeAll⟩) hsame
  simp [EvalResult.source?, hnode, hnodeAll, hsource]

theorem VisitedDone.listItems {visited : Assoc Filename FileDependencyNode}
    {state : LoadState T I} (hvisited : VisitedDone visited state) :
    visited.listItems = nodesOf state.done := by
  rw [Assoc.listItems, hvisited, nodeEntries, List.map_filterMap, nodesOf]
  apply List.filterMap_congr
  intro entry _
  simp [Function.comp_def]

theorem simulated_nil (hdone : state.done = []) : Simulated doneAll .empty state := by
  refine ⟨?_, ?_⟩
  · rw [VisitedDone, hdone]
    rfl
  · rw [hdone]
    intro filename result hmem
    cases hmem

/-- A source file that may not `_use` anything. -/
theorem evalTopList_noUse {use : UseFn (LoadState T I) T}
    (heval : evalTopList use state loader allow tops = .ok (state', result))
    (hnone : NoUse tops) : state' = state ∧ result.edges = [] := by
  induction tops generalizing state result with
  | nil =>
    cases heval
    exact ⟨rfl, rfl⟩
  | cons top tops ih =>
    simp only [evalTopList, except_bind_ok, except_pure_ok] at heval
    obtain ⟨⟨state₁, first⟩, hfirst, ⟨state₂, rest⟩, hrest, hresult⟩ := heval
    cases hresult
    cases top with
    | topdec topdecs =>
      cases hfirst
      have htail : NoUse tops := fun path loc hmem =>
        hnone path loc (List.mem_cons_of_mem _ hmem)
      obtain ⟨hstate, hedges⟩ := ih hrest htail
      exact ⟨hstate, hedges⟩
    | use path loc => exact absurd List.mem_cons_self (hnone path loc)

theorem noUse_of_allowOnly_nil {use : UseFn (LoadState T I) T}
    (heval : evalTopList use state loader (.allowOnly []) tops =
      .ok (state', result)) : NoUse tops := by
  induction tops generalizing state result with
  | nil =>
    intro path loc hmem
    cases hmem
  | cons top tops ih =>
    simp only [evalTopList, except_bind_ok, except_pure_ok] at heval
    obtain ⟨⟨state₁, first⟩, hfirst, ⟨state₂, rest⟩, hrest, hresult⟩ := heval
    cases hresult
    intro path loc hmem
    rcases List.mem_cons.mp hmem with rfl | hmem
    · simp only [evalTop, except_bind_ok] at hfirst
      obtain ⟨_, -, ⟨⟩, hallow, -⟩ := hfirst
      simp [checkAllowed] at hallow
    · have htail : NoUse tops := ih hrest
      exact htail path loc hmem

/-- In mode `link` no interface file refers to source files. -/
theorem evalIrequireList_link {require : RequireFn Unit T I}
    {use : UseFn Unit T} {irequires : List Irequire}
    {result : RequiresResult T I}
    (heval : evalIrequireList require use () loader .link irequires =
      .ok ((), result)) : ∀ edge ∈ result.edges, edge.edgeType ≠ .localUse := by
  induction irequires generalizing result with
  | nil =>
    cases heval
    simp [RequiresResult.empty]
  | cons irequire irequires ih =>
    simp only [evalIrequireList, except_bind_ok] at heval
    obtain ⟨⟨⟨⟩, first⟩, hfirst, ⟨⟨⟩, rest⟩, hrest, hresult⟩ := heval
    cases irequire with
    | require path options loc =>
      simp only [evalIrequire, except_bind_ok, except_pure_ok] at hfirst
      obtain ⟨_, -, _, -, hfirst⟩ := hfirst
      cases hfirst
      cases hresult
      simpa [RequiresResult.merge, FileDependencyEdge.edgeType] using ih hrest
    | localRequire path options loc =>
      simp only [evalIrequire, followsLocalRequire, ↓reduceIte,
        except_bind_ok, except_pure_ok] at hfirst
      obtain ⟨_, -, _, -, hfirst⟩ := hfirst
      cases hfirst
      cases hresult
      simpa [RequiresResult.merge, FileDependencyEdge.edgeType] using ih hrest
    | localUse path loc =>
      cases hfirst
      cases hresult
      exact ih hrest

/-- Nothing may be `_use`d in mode `link` by a file with a base name. -/
theorem allowUse_link (hP : ∀ mode, P mode → P (nextMode mode))
    {interfaceFile : Option (FileOrPath × Loc)} {provided : ProvideResult T I}
    {base : Filename}
    (hload : loadProvideInterface fs fuel state loader .link interfaceFile =
      .ok (state', provided)) (hmode : P .link) (hnone : state.done = []) :
    allowUse (some base) provided.node = .allowOnly [] := by
  cases interfaceFile with
  | none =>
    cases hload
    rfl
  | some filePathLoc =>
    obtain ⟨state₁, source, requires, provide, evaluated, interface, -, -, -,
      -, heval, -, -, -, hnode, -⟩ :=
      loadProvideInterface_spec hP hload hmode hnone
    rw [hnode]
    have hedges := evalIrequireList_link heval
    simp only [allowUse, AllowUse.allowOnly.injEq, List.filterMap_eq_nil_iff]
    intro edge hedge
    have hlocal := hedges edge hedge
    obtain ⟨edgeType, node, loc⟩ := edge
    cases edgeType with
    | localUse => exact absurd rfl hlocal
    | _ => rfl

/-- The two traversals through the provided interface. -/
theorem loadProvideInterface_sim (hclosed : Closed fs loadPath (· = .all) doneAll)
    {stateAll' : LoadState T I} {mode : FileLoadMode}
    {interfaceFile : Option (FileOrPath × Loc)}
    {provided providedAll : ProvideResult T I} (place : FilePlace) (loc : Loc)
    (hload : loadProvideInterface fs fuel state loader mode interfaceFile =
      .ok (state', provided))
    (hloadAll : loadProvideInterface fs fuelAll stateAll loader .all
      interfaceFile = .ok (stateAll', providedAll))
    (hpath : loader.loadPath = loadPath)
    (hnone : state.done = []) (hnoneAll : stateAll.done = [])
    (hpre : stateAll'.done <+: doneAll)
    (hplaces : PlacesAgree state'.done doneAll) :
    provided.baseDir = providedAll.baseDir ∧
      ∃ visited', revisitEdgeList .empty place mode
          (providedAll.node.map fun node =>
            FileDependencyEdge.edge .provide node loc).toList =
          (visited', (provided.node.map fun node =>
            FileDependencyEdge.edge .provide node loc).toList) ∧
        Simulated doneAll visited' state' := by
  subst hpath
  have hP : ∀ mode : FileLoadMode, True → True := fun _ h => h
  have hPAll : ∀ mode : FileLoadMode, mode = .all → nextMode mode = .all := by
    rintro mode rfl
    rfl
  cases interfaceFile with
  | none =>
    cases hload
    cases hloadAll
    exact ⟨rfl, .empty, rfl, simulated_nil hnone⟩
  | some filePathLoc =>
    obtain ⟨_, source, _, _, _, _, hvisit, -, -, -, -, -, -, -, -, hbase, -⟩ :=
      loadProvideInterface_spec (P := fun _ => True) hP hload trivial hnone
    obtain ⟨_, sourceAll, _, _, _, _, hvisitAll, -, -, -, -, -, -, -, -,
      hbaseAll, -⟩ := loadProvideInterface_spec (P := (· = .all)) hPAll
        hloadAll rfl hnoneAll
    have hsame : source = sourceAll := by
      have hok := hvisit.symm.trans hvisitAll
      simp only [Except.ok.injEq, Prod.mk.injEq] at hok
      exact hok.2
    refine ⟨hbase.trans (hsame ▸ hbaseAll.symm), ?_⟩
    obtain ⟨result, _, _, _, hrequire, -, -, hnode, -⟩ :=
      loadProvideInterface_some hload
    obtain ⟨resultAll, _, _, _, hrequireAll, -, -, hnodeAll, -⟩ :=
      loadProvideInterface_some hloadAll
    have hinv : Invariant fs loader.loadPath (fun _ => True) state :=
      invariant_of_done_nil hnone
    have hinvAll : Invariant fs loader.loadPath (· = .all) stateAll :=
      invariant_of_done_nil hnoneAll
    obtain ⟨-, hlookup⟩ := loadRequire_ok fs loader.loadPath _ hPAll fuelAll _ _
      _ _ _ _ hrequireAll rfl rfl hinvAll
    obtain ⟨visited', hrevisit, hvisited, -⟩ := loadRequire_sim hclosed fuel _ _
      _ _ _ _ _ _ hrequire (lookupRequire_mono fs hpre _ _ _ _ hlookup) rfl
      hinv (simulated_nil hnone) hplaces
    refine ⟨visited', ?_, hvisited⟩
    rw [hnode, hnodeAll]
    exact revisitEdgeList_follow (revisitMode_provide mode place) hrevisit rfl

/-- An interactive root that is loaded in mode `link` makes no `_use`. -/
def NoInteractiveLinkUse (mode : FileLoadMode) (baseFilename : Option Filename)
    (tops : List (Top T)) : Prop :=
  mode = .link → baseFilename = none → NoUse tops

theorem revisit_load {nextId nextIdAll : Nat}
    {options : LoadOptions} {unit : SmlUnit T}
    {result resultAll : LoadResult T I}
    (hload : load fs fuel nextId options unit = .ok result)
    (hloadAll : load fs fuelAll nextIdAll { options with loadMode := .all } unit =
      .ok resultAll)
    (huse : NoInteractiveLinkUse options.loadMode options.baseFilename unit.tops)
    (hplaces : SamePlaces result.dependency.allNodes
      resultAll.dependency.allNodes) :
    revisit { resultAll.dependency.root with mode := options.loadMode } =
      result.dependency := by
  have hP : ∀ mode : FileLoadMode, True → True := fun _ h => h
  have hPAll : ∀ mode : FileLoadMode, mode = .all → nextMode mode = .all := by
    rintro mode rfl
    rfl
  obtain ⟨interfaceFile, base, state₁, provided, state₂, state₃, tops,
    hinterface, hbase, hprovide, hremove, htops, hnodes, hroot, -⟩ :=
    load_stages hload
  obtain ⟨interfaceFileAll, baseAll, state₁All, providedAll, state₂All,
    state₃All, topsAll, hinterfaceAll, hbaseAll, hprovideAll, hremoveAll,
    htopsAll, hnodesAll, hrootAll, -⟩ := load_stages hloadAll
  have hsameFile : interfaceFileAll = interfaceFile := by
    have hok := hinterfaceAll.symm.trans hinterface
    exact Except.ok.inj hok
  have hsameBase : baseAll = base := by
    have hok := hbaseAll.symm.trans hbase
    exact Except.ok.inj hok
  subst hsameFile
  subst hsameBase
  obtain ⟨hdone₂, hinv₂, hstep₃, -⟩ :=
    load_states (P := fun _ => True) hP hprovide hremove htops trivial
  obtain ⟨hdone₂All, -, hstep₃All, hlookupAll⟩ :=
    load_states (P := (· = .all)) hPAll hprovideAll hremoveAll htopsAll rfl
  have hclosedAll := hstep₃All.inv.closed
  obtain ⟨hallNodes, -⟩ := listNodes_ok hnodes
  obtain ⟨hallNodesAll, -⟩ := listNodes_ok hnodesAll
  rw [hallNodes, hallNodesAll] at hplaces
  have hagree := placesAgree_of_samePlaces hstep₃.inv.closed hclosedAll hplaces
  -- the provided interface
  obtain ⟨hbaseDir, visited₁, hrevisit₁, hvisited₁⟩ :=
    loadProvideInterface_sim hclosedAll .userpath unit.loc hprovide hprovideAll
      rfl (initialState_done _ _) (initialState_done _ _)
      (hdone₂All ▸ hstep₃All.extends_.done)
      (hagree.of_prefix (hdone₂ ▸ hstep₃.extends_.done))
  have hvisited₂ : Simulated state₃All.done visited₁ state₂ := by
    refine ⟨?_, ?_⟩
    · rw [VisitedDone, hdone₂]
      exact hvisited₁.visitedDone
    · rw [hdone₂]
      exact hvisited₁.namesAgree
  -- the files that the root uses
  have htopsSim : ∃ visited₂, revisitEdgeList visited₁ .userpath options.loadMode
      topsAll.edges = (visited₂, tops.edges) ∧
      Simulated state₃All.done visited₂ state₃ := by
    by_cases hlink : options.loadMode = .link
    · have hnoUse : NoUse unit.tops := by
        cases hfile : options.baseFilename with
        | none => exact huse hlink hfile
        | some file =>
          rw [hlink] at hprovide
          have hallow : allowUse (some file) provided.node = .allowOnly [] :=
            allowUse_link (P := fun _ => True) hP hprovide trivial
              (initialState_done _ _)
          rw [hfile, hallow] at htops
          exact noUse_of_allowOnly_nil htops
      obtain ⟨hstate, hedges⟩ := evalTopList_noUse htops hnoUse
      obtain ⟨-, hedgesAll⟩ := evalTopList_noUse htopsAll hnoUse
      refine ⟨visited₁, ?_, hstate ▸ hvisited₂⟩
      rw [hedges, hedgesAll, revisitEdgeList]
    · obtain ⟨next, hmode, hnext⟩ := followsUse_use hlink .userpath
      rw [← hbaseDir] at hlookupAll
      exact evalTopList_sim (loadUse_ok fs options.loadPath _ fuel)
        (loadUse_sim hclosedAll fuel) htops hlookupAll hmode hnext hinv₂
        hvisited₂ hagree
  obtain ⟨visited₂, hrevisit₂, hvisited₃⟩ := htopsSim
  have hplace : revisitEdgeList .empty .userpath options.loadMode
      resultAll.dependency.root.edges =
        (visited₂, result.dependency.root.edges) := by
    rw [hroot, hrootAll]
    simp only [revisitEdgeList_append, hrevisit₁, hrevisit₂]
  have hrootPlace : rootPlace resultAll.dependency.root.fileType = .userpath := by
    rw [hrootAll]
    cases options.baseFilename <;> rfl
  have hitems : visited₂.listItems = result.dependency.allNodes :=
    hvisited₃.visitedDone.listItems.trans hallNodes.symm
  have hrootEdges : { resultAll.dependency.root with
      mode := options.loadMode
      edges := result.dependency.root.edges } = result.dependency.root := by
    rw [hroot, hrootAll]
  simp only [revisit, hrootPlace, hplace, hitems, hrootEdges]

theorem revisit_loadInterfaceFiles {nextId nextIdAll : Nat}
    {loadMode : FileLoadMode} {sources : List Source}
    {result resultAll : InterfaceFilesResult T I}
    (hload : loadInterfaceFiles fs fuel nextId loadPath loadMode sources =
      .ok result)
    (hloadAll : loadInterfaceFiles fs fuelAll nextIdAll loadPath .all sources =
      .ok resultAll)
    (hplaces : SamePlaces result.dependency.allNodes
      resultAll.dependency.allNodes) :
    revisit { resultAll.dependency.root with mode := loadMode } =
      result.dependency := by
  have hP : ∀ mode : FileLoadMode, True → True := fun _ h => h
  have hPAll : ∀ mode : FileLoadMode, mode = .all → nextMode mode = .all := by
    rintro mode rfl
    rfl
  obtain ⟨state, evaluated, heval, hnodes, hroot, -⟩ :=
    loadInterfaceFiles_stages hload
  obtain ⟨stateAll, evaluatedAll, hevalAll, hnodesAll, hrootAll, -⟩ :=
    loadInterfaceFiles_stages hloadAll
  have hempty : (⟨.empty, nextId⟩ : LoadState T I).done = [] := rfl
  have hreq := loadRequire_ok fs loadPath (fun _ => True) hP fuel
  obtain ⟨hstep, -⟩ := loadRequireList_ok hreq heval rfl trivial
    (invariant_of_done_nil hempty)
  obtain ⟨hstepAll, hlookupAll⟩ := loadRequireList_ok
    (loadRequire_ok fs loadPath (· = .all) hPAll fuelAll) hevalAll rfl rfl
    (invariant_of_done_nil rfl)
  have hclosedAll := hstepAll.inv.closed
  obtain ⟨hallNodes, -⟩ := listNodes_ok hnodes
  obtain ⟨hallNodesAll, -⟩ := listNodes_ok hnodesAll
  rw [hallNodes, hallNodesAll] at hplaces
  have hagree := placesAgree_of_samePlaces hstep.inv.closed hclosedAll hplaces
  obtain ⟨visited, hrevisit, hvisited, -⟩ := loadRequireList_sim hreq
    (loadRequire_sim hclosedAll fuel) .userpath heval hlookupAll rfl
    (invariant_of_done_nil hempty) (simulated_nil hempty) hagree
  have hedges : revisitEdgeList .empty .userpath loadMode
      resultAll.dependency.root.edges =
        (visited, result.dependency.root.edges) := by
    rw [hroot, hrootAll]
    exact hrevisit
  have hrootPlace : rootPlace resultAll.dependency.root.fileType = .userpath := by
    rw [hrootAll]
    rfl
  have hitems : visited.listItems = result.dependency.allNodes :=
    hvisited.visitedDone.listItems.trans hallNodes.symm
  have hrootEdges : { resultAll.dependency.root with
      mode := loadMode
      edges := result.dependency.root.edges } = result.dependency.root := by
    rw [hroot, hrootAll]
  simp only [revisit, hrootPlace, hedges, hitems, hrootEdges]

/-! ### When the two graphs differ -/

mutual

/-- What `revisit` visits are the files of the graph it is given. -/
theorem revisitEdgeList_sources {nodes : List FileDependencyNode}
    (hnodes : ∀ node ∈ nodes, ∀ edge ∈ node.edges, edge.node ∈ nodes)
    (visited : Assoc Filename FileDependencyNode) (place : FilePlace)
    (mode : FileLoadMode) :
    (edges : List FileDependencyEdge) → (∀ edge ∈ edges, edge.node ∈ nodes) →
    (∀ filename node, visited.find filename = some node →
      ∃ nodeAll ∈ nodes, node.source = nodeAll.source) →
    ∀ filename node,
      (revisitEdgeList visited place mode edges).1.find filename = some node →
      ∃ nodeAll ∈ nodes, node.source = nodeAll.source
  | [], _, hvisited => hvisited
  | .edge edgeType node loc :: edges, hedges, hvisited => by
      have htail : ∀ edge ∈ edges, edge.node ∈ nodes := fun edge hedge =>
        hedges edge (List.mem_cons_of_mem _ hedge)
      rw [revisitEdgeList]
      cases revisitMode mode edgeType place with
      | none =>
        exact revisitEdgeList_sources hnodes visited place mode edges htail
          hvisited
      | some next =>
        have hnode : node ∈ nodes := hedges _ List.mem_cons_self
        have hvisited₁ := revisitNode_sources hnodes visited next node hnode
          hvisited
        exact revisitEdgeList_sources hnodes _ place mode edges htail hvisited₁

theorem revisitNode_sources {nodes : List FileDependencyNode}
    (hnodes : ∀ node ∈ nodes, ∀ edge ∈ node.edges, edge.node ∈ nodes)
    (visited : Assoc Filename FileDependencyNode) (mode : FileLoadMode) :
    (node : FileDependencyNode) → node ∈ nodes →
    (∀ filename node, visited.find filename = some node →
      ∃ nodeAll ∈ nodes, node.source = nodeAll.source) →
    ∀ filename found,
      (revisitNode visited mode node).1.find filename = some found →
      ∃ nodeAll ∈ nodes, found.source = nodeAll.source
  | .file source fileType edges, hnode, hvisited => by
      rw [revisitNode]
      cases visited.find source.2 with
      | some found => exact hvisited
      | none =>
        have hvisited₁ := revisitEdgeList_sources hnodes visited source.1 mode
          edges (hnodes _ hnode) hvisited
        intro filename found hfind
        simp only [Assoc.find_append] at hfind
        by_cases hfile : filename = source.2
        · rw [if_pos hfile] at hfind
          cases hfind
          exact ⟨_, hnode, rfl⟩
        · rw [if_neg hfile] at hfind
          exact hvisited₁ filename found hfind

end

theorem revisitEdgeList_followed (visited : Assoc Filename FileDependencyNode) (place : FilePlace)
    (mode : FileLoadMode) (edges : List FileDependencyEdge) :
    ∀ edge ∈ (revisitEdgeList visited place mode edges).2,
      revisitMode mode edge.edgeType place ≠ none := by
  induction edges generalizing visited with
  | nil =>
    intro edge hedge
    cases hedge
  | cons edge edges ih =>
    obtain ⟨edgeType, node, loc⟩ := edge
    rw [revisitEdgeList]
    cases hmode : revisitMode mode edgeType place with
    | none => exact ih visited
    | some next =>
      intro edge hedge
      rcases List.mem_cons.mp hedge with rfl | hedge
      · simp [FileDependencyEdge.edgeType, hmode]
      · exact ih _ edge hedge

/-- The `_use`s of a source file are edges of the graph. -/
theorem evalTopList_use {use : UseFn (LoadState T I) T}
    (heval : evalTopList use state loader allow tops = .ok (state', result))
    {path : RequirePath.Path} {loc : Loc} (hmem : .use path loc ∈ tops) :
    ∃ edge ∈ result.edges, edge.edgeType = .use := by
  induction tops generalizing state result with
  | nil => cases hmem
  | cons top tops ih =>
    simp only [evalTopList, except_bind_ok, except_pure_ok] at heval
    obtain ⟨⟨state₁, first⟩, hfirst, ⟨state₂, rest⟩, hrest, hresult⟩ := heval
    cases hresult
    rcases List.mem_cons.mp hmem with rfl | hmem
    · simp only [evalTop, except_bind_ok, except_pure_ok] at hfirst
      obtain ⟨_, -, _, -, hfirst⟩ := hfirst
      cases hfirst
      exact ⟨_, List.mem_cons_self, rfl⟩
    · obtain ⟨edge, hedge, htype⟩ := ih hrest hmem
      exact ⟨edge, List.mem_append_right _ hedge, htype⟩

/-- A graph that revisiting `rootAll` gives has its files at the places of the
graph of `rootAll`. -/
theorem samePlaces_of_revisit (hclosed : Closed fs loadPath P stateAll.done)
    {rootAll : FileDependencyRoot}
    (hedges : ∀ edge ∈ rootAll.edges, edge.node ∈ nodesOf stateAll.done)
    {dependency : FileDependency} (hrevisit : revisit rootAll = dependency) :
    SamePlaces dependency.allNodes (nodesOf stateAll.done) := by
  have hnodup := stateAll.done_keys_nodup
  intro node hnode nodeAll hnodeAll hsame
  rw [← hrevisit] at hnode
  obtain ⟨⟨filename, node⟩, hentry, rfl⟩ := List.mem_map.mp hnode
  have hfind := (Assoc.mem_entries_iff _ _ _).mp hentry
  have hnodes : ∀ node ∈ nodesOf stateAll.done, ∀ edge ∈ node.edges,
      edge.node ∈ nodesOf stateAll.done := fun node hnode edge hedge =>
    (hclosed.refersTo hnodup hnode ⟨edge, hedge, rfl⟩).1
  obtain ⟨found, hfound, hsource⟩ := revisitEdgeList_sources hnodes .empty _ _ _
    hedges (fun filename node hempty => by cases hempty) filename node hfind
  have hfile : found.filename = nodeAll.filename := by
    rw [← hsame, FileDependencyNode.filename, ← hsource]
    rfl
  rw [← hclosed.node_unique hnodup hfound hnodeAll hfile]
  exact hsource

/-- Following the graph that was loaded in mode `all` gives the graph of a load in
another mode exactly when both have their files at the same places, and the
load does not follow `_use`s of an interactive root in mode `link`. -/
theorem revisit_eq_dependency (fs : FileSystem T I)
    (fuel fuelAll nextId nextIdAll : Nat) :
    (∀ (options : LoadOptions) (unit : SmlUnit T)
      (result resultAll : LoadResult T I),
      load fs fuel nextId options unit = .ok result →
      load fs fuelAll nextIdAll { options with loadMode := .all } unit =
        .ok resultAll →
      (revisit { resultAll.dependency.root with mode := options.loadMode } =
          result.dependency ↔
        NoInteractiveLinkUse options.loadMode options.baseFilename unit.tops ∧
          SamePlaces result.dependency.allNodes
            resultAll.dependency.allNodes)) ∧
    ∀ (loadPath : List Source) (loadMode : FileLoadMode)
      (sources : List Source) (result resultAll : InterfaceFilesResult T I),
      loadInterfaceFiles fs fuel nextId loadPath loadMode sources =
        .ok result →
      loadInterfaceFiles fs fuelAll nextIdAll loadPath .all sources =
        .ok resultAll →
      (revisit { resultAll.dependency.root with mode := loadMode } =
          result.dependency ↔
        SamePlaces result.dependency.allNodes
          resultAll.dependency.allNodes) := by
  have hPAll : ∀ mode : FileLoadMode, mode = .all → nextMode mode = .all := by
    rintro mode rfl
    rfl
  constructor
  · intro options unit result resultAll hload hloadAll
    constructor
    · intro hrevisit
      obtain ⟨stateAll, hallNodes, hclosed, hedges⟩ :=
        load_closed hPAll hloadAll rfl
      refine ⟨?_, ?_⟩
      · intro hlink hbase path loc hmem
        obtain ⟨_, _, _, provided, _, _, tops, -, -, -, -, htops, -, hroot, -⟩ :=
          load_stages hload
        obtain ⟨edge, hedge, htype⟩ := evalTopList_use htops hmem
        have hfollowed := revisitEdgeList_followed .empty
          (rootPlace resultAll.dependency.root.fileType) options.loadMode
          resultAll.dependency.root.edges edge
        have hsame : (revisitEdgeList .empty
            (rootPlace resultAll.dependency.root.fileType) options.loadMode
            resultAll.dependency.root.edges).2 = result.dependency.root.edges :=
          congrArg (fun dependency => dependency.root.edges) hrevisit
        rw [hsame, hroot, htype, hlink] at hfollowed
        exact hfollowed (List.mem_append_right _ hedge) rfl
      · rw [hallNodes]
        apply samePlaces_of_revisit hclosed _ hrevisit
        exact hedges
    · rintro ⟨huse, hplaces⟩
      exact revisit_load hload hloadAll huse hplaces
  · intro loadPath loadMode sources result resultAll hload hloadAll
    constructor
    · intro hrevisit
      obtain ⟨stateAll, hallNodes, hclosed, hedges⟩ :=
        loadInterfaceFiles_closed hPAll hloadAll rfl
      rw [hallNodes]
      apply samePlaces_of_revisit hclosed _ hrevisit
      exact hedges
    · intro hplaces
      exact revisit_loadInterfaceFiles hload hloadAll hplaces

/-- Both entry points on the files of the diamond, where `b.smi` is required
twice. -/
theorem revisit_eq_dependency_diamond :
    (∃ result resultAll,
      load diamondFiles 9 0
        ⟨some ⟨true, ["w", "a.sml"]⟩, [], .compile, id⟩
        ⟨.nointerface, [], none⟩ = .ok result ∧
      load diamondFiles 9 0
        ⟨some ⟨true, ["w", "a.sml"]⟩, [], .all, id⟩
        ⟨.nointerface, [], none⟩ = .ok resultAll ∧
      revisit { resultAll.dependency.root with mode := .compile } =
        result.dependency) ∧
    ∃ result resultAll,
      loadInterfaceFiles diamondFiles 9 0 [] .link
        [(.userpath, ⟨true, ["w", "a.smi"]⟩)] = .ok result ∧
      loadInterfaceFiles diamondFiles 9 0 [] .all
        [(.userpath, ⟨true, ["w", "a.smi"]⟩)] = .ok resultAll ∧
      revisit { resultAll.dependency.root with mode := .link } =
        result.dependency := by
  obtain ⟨hload, hfiles⟩ :=
    revisit_eq_dependency (T := String) (I := String) diamondFiles 9 9 0 0
  constructor
  · have heval : okAnd (load diamondFiles 9 0
        ⟨some ⟨true, ["w", "a.sml"]⟩, [], .compile, id⟩
        ⟨.nointerface, [], none⟩) (fun result =>
          okAnd (load diamondFiles 9 0
            ⟨some ⟨true, ["w", "a.sml"]⟩, [], .all, id⟩
            ⟨.nointerface, [], none⟩) fun resultAll =>
              SamePlaces result.dependency.allNodes
                resultAll.dependency.allNodes) = true := by decide +kernel
    obtain ⟨result, hresult, heval⟩ := okAnd_iff.mp heval
    obtain ⟨resultAll, hresultAll, hplaces⟩ := okAnd_iff.mp heval
    have huse : NoInteractiveLinkUse .compile
        (some ⟨true, ["w", "a.sml"]⟩) ([] : List (Top String)) := by
      intro hmode
      cases hmode
    exact ⟨result, resultAll, hresult, hresultAll,
      (hload _ _ _ _ hresult hresultAll).mpr ⟨huse, of_decide_eq_true hplaces⟩⟩
  · have heval : okAnd (loadInterfaceFiles diamondFiles 9 0 [] .link
        [(.userpath, ⟨true, ["w", "a.smi"]⟩)]) (fun result =>
          okAnd (loadInterfaceFiles diamondFiles 9 0 [] .all
            [(.userpath, ⟨true, ["w", "a.smi"]⟩)]) fun resultAll =>
              SamePlaces result.dependency.allNodes
                resultAll.dependency.allNodes) = true := by decide +kernel
    obtain ⟨result, hresult, heval⟩ := okAnd_iff.mp heval
    obtain ⟨resultAll, hresultAll, hplaces⟩ := okAnd_iff.mp heval
    exact ⟨result, resultAll, hresult, hresultAll,
      (hfiles _ _ _ _ _ hresult hresultAll).mpr (of_decide_eq_true hplaces)⟩

/-- `x.smi` is found in the system's directory when the local reference of
`lib.smi` is followed, and in the user's directory when it is not. -/
def linkedFiles : FileSystem String String :=
  .ofFiles
    [(⟨true, ["w", "a.smi"]⟩, .interface
      [.require ["lib.smi"] [] (some 1), .require ["x.smi"] [] (some 2)] []),
      (⟨true, ["s", "lib.smi"]⟩, .interface
        [.localRequire [".", "x.smi"] [] (some 3)] []),
      (⟨true, ["s", "x.smi"]⟩, .interface [] [])]
    [(⟨true, ["w", "u.sml"]⟩, .eof)]
    [(⟨true, ["w", "x.smi"]⟩, ⟨true, ["s", "x.smi"]⟩),
      (⟨false, ["u.sml"]⟩, ⟨true, ["w", "u.sml"]⟩)]

/-- Neither condition can be left out: a file may be found at another place, and
`revisit` does not follow the `_use`s of an interactive root in mode `link`. -/
theorem revisit_ne_dependency :
    (¬ ∀ (options : LoadOptions) (unit : SmlUnit String)
      (result resultAll : LoadResult String String),
      load linkedFiles 9 0 options unit = .ok result →
      load linkedFiles 9 0 { options with loadMode := .all } unit =
        .ok resultAll →
      NoInteractiveLinkUse options.loadMode options.baseFilename unit.tops →
      revisit { resultAll.dependency.root with mode := options.loadMode } =
        result.dependency) ∧
    ¬ ∀ (options : LoadOptions) (unit : SmlUnit String)
      (result resultAll : LoadResult String String),
      load linkedFiles 9 0 options unit = .ok result →
      load linkedFiles 9 0 { options with loadMode := .all } unit =
        .ok resultAll →
      SamePlaces result.dependency.allNodes resultAll.dependency.allNodes →
      revisit { resultAll.dependency.root with mode := options.loadMode } =
        result.dependency := by
  constructor
  · intro hall
    have heval : okAnd (load linkedFiles 9 0
        ⟨some ⟨true, ["w", "a.sml"]⟩, [(.stdpath, ⟨true, ["s"]⟩)], .compile, id⟩
        ⟨.nointerface, [], none⟩) (fun result =>
          okAnd (load linkedFiles 9 0
            ⟨some ⟨true, ["w", "a.sml"]⟩, [(.stdpath, ⟨true, ["s"]⟩)], .all, id⟩
            ⟨.nointerface, [], none⟩) fun resultAll =>
              (revisit { resultAll.dependency.root with
                mode := .compile }).allNodes.map FileDependencyNode.source ≠
                  result.dependency.allNodes.map FileDependencyNode.source) =
                    true := by decide +kernel
    obtain ⟨result, hresult, heval⟩ := okAnd_iff.mp heval
    obtain ⟨resultAll, hresultAll, hsources⟩ := okAnd_iff.mp heval
    have huse : NoInteractiveLinkUse .compile
        (some ⟨true, ["w", "a.sml"]⟩) ([] : List (Top String)) := by
      intro hmode
      cases hmode
    have hsame := hall _ _ result resultAll hresult hresultAll huse
    exact of_decide_eq_true hsources
      (congrArg (fun dependency =>
        dependency.allNodes.map FileDependencyNode.source) hsame)
  · intro hall
    have heval : okAnd (load linkedFiles 9 0 ⟨none, [], .link, id⟩
        ⟨.nointerface, [.use ["u.sml"] none], none⟩) (fun result =>
          okAnd (load linkedFiles 9 0 ⟨none, [], .all, id⟩
            ⟨.nointerface, [.use ["u.sml"] none], none⟩) fun resultAll =>
              SamePlaces result.dependency.allNodes
                resultAll.dependency.allNodes ∧
              (revisit { resultAll.dependency.root with
                mode := .link }).allNodes.length ≠
                  result.dependency.allNodes.length) = true := by decide +kernel
    obtain ⟨result, hresult, heval⟩ := okAnd_iff.mp heval
    obtain ⟨resultAll, hresultAll, hcheck⟩ := okAnd_iff.mp heval
    obtain ⟨hplaces, hlength⟩ := of_decide_eq_true hcheck
    have hsame := hall _ _ result resultAll hresult hresultAll hplaces
    exact hlength
      (congrArg (fun dependency => dependency.allNodes.length) hsame)

end LoadFile

end SmlSharp
