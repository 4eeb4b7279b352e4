/-
The dependency graph of a load: the edges of a completed file lead to files that
were completed before it, so the graph has no cycle.
-/
import SmlSharp.LoadFile.Whole
import Mathlib.Logic.Relation

namespace SmlSharp

namespace LoadFile

open InterfaceName

variable {T I : Type}

/-! ### Entries of a closed table -/

variable {fs : FileSystem T I} {loadPath : List Source} {P : FileLoadMode → Prop}
  {done : Entries T I} {result : EvalResult T I} {node : FileDependencyNode}
  {state : LoadState T I} {loader : Loader} {mode : FileLoadMode} {fuel nextId : Nat}

theorem Closed.entry {filename : Filename} (hclosed : Closed fs loadPath P done)
    (hfind : findDone done filename = some result) :
    ∃ pre, pre <+: done ∧ EntryOk fs loadPath P pre filename result := by
  obtain ⟨pre, post, hsplit⟩ := List.append_of_mem (mem_of_findDone hfind)
  exact ⟨pre, hsplit ▸ List.prefix_append pre _,
    hclosed pre filename result post hsplit⟩

theorem EntryOk.filename {fs : FileSystem T I} {loadPath : List Source}
    {P : FileLoadMode → Prop} {done : Entries T I} {filename : Filename}
    {result : EvalResult T I} (hentry : EntryOk fs loadPath P done filename result)
    {node : FileDependencyNode} (hnode : result.fileNode? = some node) :
    node.filename = filename := by
  cases hentry <;> (cases hnode; rfl)

theorem EntryOk.sml_inv {filename : Filename} {result : SmlResult T}
    (hentry : EntryOk fs loadPath P done filename (.sml result)) :
    ∃ source abunit tops, source.2 = filename ∧
      fs.parseSml filename = .ok abunit ∧
      evalUnit (lookupUse fs done) () (fileLoader source []) abunit =
        .ok ((), tops) ∧ result = smlResult source result.loc tops := by
  cases hentry with
  | sml loc parse eval => exact ⟨_, _, _, rfl, parse, eval, rfl⟩

theorem EntryOk.smi_inv {filename : Filename} {result : SmiResult T I}
    (hentry : EntryOk fs loadPath P done filename (.smi result)) :
    ∃ source mode, source.2 = filename ∧ P mode ∧
      ((∃ includes topdecs evaluated,
          fs.parseSmi filename = .ok (.includes includes topdecs) ∧
          loadRequireList (lookupRequire fs done) () (fileLoader source loadPath)
            mode (includes.map fun entry => (.path entry.1, entry.2)) =
              .ok ((), evaluated) ∧
          result = includesResult source result.loc topdecs evaluated) ∨
        ∃ requires provide evaluated id,
          fs.parseSmi filename = .ok (.interface requires provide) ∧
          evalIrequireList (lookupRequire fs done) (lookupUse fs done) ()
            (fileLoader source loadPath) mode requires = .ok ((), evaluated) ∧
          result = interfaceResult fs id source result.loc provide
            evaluated) := by
  cases hentry with
  | includes loc parse hmode eval =>
    exact ⟨_, _, rfl, hmode, Or.inl ⟨_, _, _, parse, eval, rfl⟩⟩
  | interface id loc parse hmode eval =>
    exact ⟨_, _, rfl, hmode, Or.inr ⟨_, _, _, id, parse, eval, rfl⟩⟩

theorem LoadState.fileNode_of_mem_done {filename : Filename}
    (hmem : (filename, result) ∈ state.done) :
    ∃ node, result.fileNode? = some node := by
  obtain ⟨-, hresult⟩ := (state.mem_done_iff filename result).mp hmem
  cases result with
  | cycle => cases hresult
  | sml result => exact ⟨result.node, rfl⟩
  | smi result => exact ⟨result.node, rfl⟩

/-! ### Edges lead to completed files -/

theorem lookupUse_node {path : RequirePath.Path} {loc : Loc}
    {result : SmlResult T}
    (hlookup : lookupUse fs done () loader (path, loc) = .ok ((), result)) :
    result.node ∈ nodesOf done := by
  obtain ⟨-, source, found, -, hfind, rfl⟩ := lookupUse_ok.mp hlookup
  exact List.mem_filterMap.mpr ⟨_, mem_of_findDone hfind, rfl⟩

theorem lookupRequire_node {filePathLoc : FileOrPath × Loc}
    {result : SmiResult T I}
    (hlookup : lookupRequire fs done () loader mode filePathLoc =
      .ok ((), result)) : result.node ∈ nodesOf done := by
  obtain ⟨-, source, found, -, hfind, rfl⟩ := lookupRequire_ok.mp hlookup
  exact List.mem_filterMap.mpr ⟨_, mem_of_findDone hfind, rfl⟩

theorem evalTopList_edges {allow : AllowUse} {tops : List (Top T)}
    {result : TopsResult T}
    (heval : evalTopList (lookupUse fs done) () loader allow tops =
      .ok ((), result)) : ∀ edge ∈ result.edges, edge.node ∈ nodesOf done := by
  induction tops generalizing result with
  | nil =>
    cases heval
    simp
  | cons top tops ih =>
    simp only [evalTopList, except_bind_ok, except_pure_ok] at heval
    obtain ⟨⟨⟨⟩, first⟩, hfirst, ⟨⟨⟩, rest⟩, hrest, hresult⟩ := heval
    cases hresult
    intro edge hedge
    rcases List.mem_append.mp hedge with hedge | hedge
    · cases top with
      | topdec topdecs =>
        cases hfirst
        simp at hedge
      | use path loc =>
        simp only [evalTop, except_bind_ok, except_pure_ok] at hfirst
        obtain ⟨⟨⟨⟩, used⟩, hload, ⟨⟩, -, hfirst⟩ := hfirst
        cases hfirst
        simp only [Option.toList_some, List.mem_singleton] at hedge
        subst hedge
        exact lookupUse_node hload
    · exact ih hrest edge hedge

theorem evalUnit_edges {abunit : UnitParseResult T} {result : TopsResult T}
    (heval : evalUnit (lookupUse fs done) () loader abunit = .ok ((), result)) :
    ∀ edge ∈ result.edges, edge.node ∈ nodesOf done := by
  match abunit with
  | .eof =>
    cases heval
    simp
  | .unit ⟨.interface path loc, _, _⟩ => cases heval
  | .unit ⟨.nointerface, tops, _⟩ => exact evalTopList_edges heval

theorem evalRequireOptions_node {options : List (String × Loc)}
    {args result : SmiResult T I}
    (heval : evalRequireOptions options args = .ok result) :
    result.node = args.node := by
  simp only [evalRequireOptions, except_bind_ok, except_pure_ok] at heval
  obtain ⟨init, -, rfl⟩ := heval
  rfl

theorem evalIrequire_edges {irequire : Irequire} {result : RequiresResult T I}
    (heval : evalIrequire (lookupRequire fs done) (lookupUse fs done) () loader
      mode irequire = .ok ((), some result)) :
    ∀ edge ∈ result.edges, edge.node ∈ nodesOf done := by
  intro edge hedge
  cases irequire with
  | require path options loc =>
    simp only [evalIrequire, except_bind_ok, except_pure_ok] at heval
    obtain ⟨⟨⟨⟩, loaded⟩, hload, evaluated, hoptions, hresult⟩ := heval
    cases hresult
    rw [List.mem_singleton.mp hedge]
    have hnode := lookupRequire_node hload
    rwa [← evalRequireOptions_node hoptions] at hnode
  | localRequire path options loc =>
    simp only [evalIrequire] at heval
    split at heval
    · simp only [except_bind_ok, except_pure_ok] at heval
      obtain ⟨⟨⟨⟩, loaded⟩, hload, evaluated, hoptions, hresult⟩ := heval
      cases hresult
      rw [List.mem_singleton.mp hedge]
      have hnode := lookupRequire_node hload
      rwa [← evalRequireOptions_node hoptions] at hnode
    · cases heval
  | localUse path loc =>
    simp only [evalIrequire] at heval
    split at heval
    · simp only [except_bind_ok, except_pure_ok] at heval
      obtain ⟨⟨⟨⟩, used⟩, hload, hresult⟩ := heval
      cases hresult
      rw [List.mem_singleton.mp hedge]
      exact lookupUse_node hload
    · cases heval

theorem evalIrequireList_edges {irequires : List Irequire}
    {result : RequiresResult T I}
    (heval : evalIrequireList (lookupRequire fs done) (lookupUse fs done) ()
      loader mode irequires = .ok ((), result)) :
    ∀ edge ∈ result.edges, edge.node ∈ nodesOf done := by
  induction irequires generalizing result with
  | nil =>
    cases heval
    simp [RequiresResult.empty]
  | cons irequire irequires ih =>
    simp only [evalIrequireList, except_bind_ok] at heval
    obtain ⟨⟨⟨⟩, first⟩, hfirst, ⟨⟨⟩, rest⟩, hrest, hresult⟩ := heval
    cases first with
    | none =>
      cases hresult
      exact ih hrest
    | some first =>
      cases hresult
      intro edge hedge
      rcases List.mem_append.mp hedge with hedge | hedge
      · exact evalIrequire_edges hfirst edge hedge
      · exact ih hrest edge hedge

theorem loadRequireList_edges {pathLocs : List (FileOrPath × Loc)} {result : IncludesResult T I}
    (heval : loadRequireList (lookupRequire fs done) () loader mode pathLocs =
      .ok ((), result)) : ∀ edge ∈ includeEdges result.nodes result.locs,
      edge.node ∈ nodesOf done := by
  induction pathLocs generalizing result with
  | nil =>
    cases heval
    simp [includeEdges]
  | cons pathLoc pathLocs ih =>
    simp only [loadRequireList, except_bind_ok, except_pure_ok] at heval
    obtain ⟨⟨⟨⟩, first⟩, hfirst, ⟨⟨⟩, rest⟩, hrest, hresult⟩ := heval
    cases hresult
    intro edge hedge
    simp only [includeEdges, List.zip_cons_cons, List.map_cons,
      List.mem_cons] at hedge
    rcases hedge with rfl | hedge
    · exact lookupRequire_node hfirst
    · exact ih hrest edge hedge

/-- The edges of a completed file lead to the files completed before it. -/
theorem EntryOk.edges {fs : FileSystem T I} {loadPath : List Source}
    {P : FileLoadMode → Prop} {done : Entries T I} {filename : Filename}
    {result : EvalResult T I} (hentry : EntryOk fs loadPath P done filename result)
    {node : FileDependencyNode} (hnode : result.fileNode? = some node) :
    ∀ edge ∈ node.edges, edge.node ∈ nodesOf done := by
  cases hentry with
  | sml loc parse eval =>
    cases hnode
    exact evalUnit_edges eval
  | includes loc parse hmode eval =>
    cases hnode
    exact loadRequireList_edges eval
  | interface id loc parse hmode eval =>
    cases hnode
    exact evalIrequireList_edges eval

/-! ### The graph has no cycle -/

/-- A reference from one file to another in the dependency graph. -/
def RefersTo (node target : FileDependencyNode) : Prop :=
  ∃ edge ∈ node.edges, edge.node = target

theorem mem_nodesOf : node ∈ nodesOf done ↔
      ∃ filename result, (filename, result) ∈ done ∧
        result.fileNode? = some node := by
  simp [nodesOf]

/-- The position of a file among the completed ones. -/
def rankOf (done : Entries T I) (filename : Filename) : Nat :=
  (done.map Prod.fst).idxOf filename

theorem rankOf_lt {pre post : Entries T I} {filename : Filename}
    (hnodup : (done.map Prod.fst).Nodup)
    (hsplit : done = pre ++ (filename, result) :: post) {earlier : Filename}
    (hmem : earlier ∈ pre.map Prod.fst) :
    rankOf done earlier < rankOf done filename := by
  have hnot : filename ∉ pre.map Prod.fst := by
    intro hin
    rw [hsplit, List.map_append, List.nodup_append] at hnodup
    exact hnodup.2.2 filename hin filename (by simp) rfl
  rw [rankOf, rankOf, hsplit, List.map_append, List.idxOf_append_of_mem hmem,
    List.idxOf_append_of_notMem hnot]
  have hlt := List.idxOf_lt_length_of_mem hmem
  omega

theorem Closed.refersTo (hclosed : Closed fs loadPath P done)
    (hnodup : (done.map Prod.fst).Nodup)
    {target : FileDependencyNode} (hnode : node ∈ nodesOf done)
    (hrefers : RefersTo node target) : target ∈ nodesOf done ∧
      rankOf done target.filename < rankOf done node.filename := by
  obtain ⟨filename, result, hmem, hresult⟩ := mem_nodesOf.mp hnode
  obtain ⟨pre, post, hsplit⟩ := List.append_of_mem hmem
  have hentry := hclosed pre filename result post hsplit
  obtain ⟨edge, hedge, rfl⟩ := hrefers
  have hpre := hentry.edges hresult edge hedge
  obtain ⟨filename', result', hmem', hresult'⟩ := mem_nodesOf.mp hpre
  obtain ⟨pre', post', hsplit'⟩ := List.append_of_mem hmem'
  have hentry' := hclosed pre' filename' result'
    (post' ++ (filename, result) :: post) (by simp [hsplit, hsplit'])
  refine ⟨mem_nodesOf.mpr ⟨filename', result', ?_, hresult'⟩, ?_⟩
  · rw [hsplit]
    exact List.mem_append_left _ hmem'
  · rw [hentry.filename hresult, hentry'.filename hresult']
    exact rankOf_lt hnodup hsplit (List.mem_map.mpr ⟨_, hmem', rfl⟩)

/-- Following references leads to earlier files. -/
theorem Closed.refersTo_trans (hclosed : Closed fs loadPath P done)
    (hnodup : (done.map Prod.fst).Nodup)
    {target : FileDependencyNode} (hnode : node ∈ nodesOf done)
    (hreach : Relation.TransGen RefersTo node target) : target ∈ nodesOf done ∧
      rankOf done target.filename < rankOf done node.filename := by
  induction hreach with
  | single hrefers => exact hclosed.refersTo hnodup hnode hrefers
  | tail _ hrefers ih =>
    obtain ⟨hmiddle, hlt⟩ := ih
    obtain ⟨htarget, hlt'⟩ := hclosed.refersTo hnodup hmiddle hrefers
    exact ⟨htarget, hlt'.trans hlt⟩

/-- Two nodes of one file are the same node. -/
theorem Closed.node_unique (hclosed : Closed fs loadPath P done)
    (hnodup : (done.map Prod.fst).Nodup)
    {node' : FileDependencyNode} (hnode : node ∈ nodesOf done)
    (hnode' : node' ∈ nodesOf done) (hsame : node.filename = node'.filename) :
    node = node' := by
  obtain ⟨filename, result, hmem, hresult⟩ := mem_nodesOf.mp hnode
  obtain ⟨filename', result', hmem', hresult'⟩ := mem_nodesOf.mp hnode'
  have hfind := findDone_of_mem hnodup hmem
  have hfind' := findDone_of_mem hnodup hmem'
  obtain ⟨pre, -, hentry⟩ := hclosed.entry hfind
  obtain ⟨pre', -, hentry'⟩ := hclosed.entry hfind'
  rw [hentry.filename hresult, hentry'.filename hresult'] at hsame
  rw [hsame, hfind'] at hfind
  cases hfind
  rw [hresult] at hresult'
  exact Option.some.inj hresult'

/-! ### The graph of a whole load -/

/-- The table after the provided interface is closed. -/
theorem loadProvideInterface_inv (hP : ∀ mode, P mode → P (nextMode mode)) {state' : LoadState T I}
    {interfaceFile : Option (FileOrPath × Loc)}
    {provided : ProvideResult T I}
    (hload : loadProvideInterface fs fuel state loader mode interfaceFile =
      .ok (state', provided)) (hmode : P mode) (hnone : state.done = []) :
    StepOk fs loader.loadPath P state state' := by
  have hinv : Invariant fs loader.loadPath P state :=
    invariant_of_done_nil hnone
  cases interfaceFile with
  | none =>
    cases hload
    exact StepOk.refl hinv
  | some filePathLoc =>
    obtain ⟨result, _, _, _, hrequire, -⟩ := loadProvideInterface_some hload
    exact (loadRequire_ok fs loader.loadPath P hP fuel _ _ _ _ _ _ hrequire rfl
      hmode hinv).1

/-- Removing the mark of the root file keeps the invariant. -/
theorem removeBase_inv {base : Option Filename} {state' : LoadState T I}
    (hbase : ∀ file, base = some file → state.InProgress file)
    (hremove : removeBase base state = .ok state')
    (hinv : Invariant fs loadPath P state) :
    Invariant fs loadPath P state' := by
  obtain ⟨hdone, hnext, -⟩ := removeBase_spec hbase hremove
  exact ⟨hdone ▸ hinv.closed, hdone ▸ hinv.idsAscend,
    by rw [hdone, hnext]; exact hinv.idsUsed⟩

/-- The three states of a successful load: with the provided interface, without
the mark of the root file, and with the files that the root `_use`s. -/
theorem load_states (hP : ∀ mode, P mode → P (nextMode mode))
    {options : LoadOptions} {base : Option Filename}
    {interfaceFile : Option (FileOrPath × Loc)}
    {state₁ state₂ state₃ : LoadState T I} {provided : ProvideResult T I}
    {allow : AllowUse} {tops : List (Top T)} {result : TopsResult T}
    (hprovide : loadProvideInterface fs fuel (initialState base nextId)
      (rootLoader options) options.loadMode interfaceFile =
        .ok (state₁, provided)) (hremove : removeBase base state₁ = .ok state₂)
    (htops : evalTopList (loadUse fs fuel) state₂
      ⟨provided.baseDir, options.loadPath⟩ allow tops = .ok (state₃, result))
    (hmode : P options.loadMode) : state₂.done = state₁.done ∧
      Invariant fs options.loadPath P state₂ ∧
      StepOk fs options.loadPath P state₂ state₃ ∧
      evalTopList (lookupUse fs state₃.done) ()
        ⟨provided.baseDir, options.loadPath⟩ allow tops = .ok ((), result) := by
  have hstep := loadProvideInterface_inv hP hprovide hmode
    (initialState_done base nextId)
  have hbase : ∀ file, base = some file → state₁.InProgress file := by
    intro file hfile
    rw [hstep.extends_.inProgress]
    exact (initialState_inProgress base nextId file).mpr hfile
  have hinv : Invariant fs options.loadPath P state₂ :=
    removeBase_inv hbase hremove hstep.inv
  obtain ⟨hstep₃, -, hlookup⟩ :=
    evalTopList_ok (loadUse_ok fs options.loadPath P fuel) htops hinv
  exact ⟨(removeBase_spec hbase hremove).1, hinv, hstep₃, hlookup⟩

/-- The graph of a successful load: the nodes of a closed table, which the
edges of the root lead to. -/
theorem load_closed (hP : ∀ mode, P mode → P (nextMode mode))
    {options : LoadOptions} {unit : SmlUnit T} {result : LoadResult T I}
    (hload : load fs fuel nextId options unit = .ok result)
    (hmode : P options.loadMode) : ∃ state : LoadState T I,
      result.dependency.allNodes = nodesOf state.done ∧
      Closed fs options.loadPath P state.done ∧
      ∀ edge ∈ result.dependency.root.edges, edge.node ∈ nodesOf state.done := by
  obtain ⟨interfaceFile, base, state₁, provided, state₂, state₃, tops, -, -,
    hprovide, hremove, htops, hnodes, hroot, -⟩ := load_stages hload
  obtain ⟨hdone₂, -, hstep₃, hlookup⟩ :=
    load_states hP hprovide hremove htops hmode
  refine ⟨state₃, (listNodes_ok hnodes).1, hstep₃.inv.closed, ?_⟩
  intro edge hedge
  rw [hroot] at hedge
  rcases List.mem_append.mp hedge with hedge | hedge
  · cases interfaceFile with
    | none =>
      cases hprovide
      simp at hedge
    | some filePathLoc =>
      obtain ⟨loaded, _, _, _, hrequire, -, -, hnode, -⟩ :=
        loadProvideInterface_some hprovide
      have hinv : Invariant fs options.loadPath P (initialState base nextId) :=
        invariant_of_done_nil (initialState_done base nextId)
      obtain ⟨-, hlookup₁⟩ := loadRequire_ok fs options.loadPath P hP fuel
        _ _ _ _ _ _ hrequire rfl hmode hinv
      rw [hnode] at hedge
      simp only [Option.map_some, Option.toList_some, List.mem_singleton]
        at hedge
      subst hedge
      have hpre := hstep₃.extends_.done
      rw [hdone₂] at hpre
      exact lookupRequire_node
        (lookupRequire_mono fs hpre _ _ _ _ hlookup₁)
  · exact evalTopList_edges hlookup edge hedge

theorem loadInterfaceFiles_closed (hP : ∀ mode, P mode → P (nextMode mode))
    {loadMode : FileLoadMode}
    {sources : List Source} {result : InterfaceFilesResult T I}
    (hload : loadInterfaceFiles fs fuel nextId loadPath loadMode sources =
      .ok result) (hmode : P loadMode) : ∃ state : LoadState T I,
      result.dependency.allNodes = nodesOf state.done ∧
      Closed fs loadPath P state.done ∧
      ∀ edge ∈ result.dependency.root.edges, edge.node ∈ nodesOf state.done := by
  obtain ⟨state, evaluated, heval, hnodes, hroot, -⟩ :=
    loadInterfaceFiles_stages hload
  have hempty : (⟨.empty, nextId⟩ : LoadState T I).done = [] := rfl
  obtain ⟨hstep, hlookup⟩ := loadRequireList_ok
    (loadRequire_ok fs loadPath P hP fuel) heval rfl hmode
    (invariant_of_done_nil hempty)
  refine ⟨state, (listNodes_ok hnodes).1, hstep.inv.closed, ?_⟩
  rw [hroot]
  exact loadRequireList_edges hlookup

end LoadFile

end SmlSharp
