/-
The two entry points of the loader taken apart, and the interface declarations
they return.
-/
import SmlSharp.LoadFile.Decs

namespace SmlSharp

namespace LoadFile

open InterfaceName

variable {T I : Type}

theorem liftBug_ok {α : Type} {x : Except String α} {a : α} :
    liftBug x = .ok a ↔ x = .ok a := by
  cases x <;> simp [liftBug]

/-! ### The first and the last state -/

theorem initialState_done (base : Option Filename) (nextId : Nat) :
    (initialState base nextId : LoadState T I).done = [] := by
  cases base with
  | none => rfl
  | some file =>
    simp [initialState, LoadState.done, Assoc.entries_singleton,
      EvalResult.isCycle]

theorem initialState_inProgress (base : Option Filename) (nextId : Nat)
    (filename : Filename) :
    (initialState base nextId : LoadState T I).InProgress filename ↔
      base = some filename := by
  cases base with
  | none => simp [initialState, LoadState.InProgress, Assoc.find_empty]
  | some file =>
    simp only [initialState, LoadState.InProgress, Assoc.find_singleton,
      Option.some.injEq]
    split <;> simp_all [eq_comm]

variable {fs : FileSystem T I} {loadPath : List Source} {P : FileLoadMode → Prop}
  {state state' : LoadState T I} {fuel : Nat}

theorem invariant_of_done_nil (hdone : state.done = []) :
    Invariant fs loadPath P state := by
  refine ⟨hdone ▸ closed_nil fs loadPath P, ?_, ?_⟩
  · simp [hdone, interfaceIds]
  · simp [hdone, interfaceIds]

/-- Removing the mark of the root file changes no completed entry. -/
theorem removeBase_spec {base : Option Filename}
    (hbase : ∀ file, base = some file → state.InProgress file)
    (hremove : removeBase base state = .ok state') :
    state'.done = state.done ∧ state'.nextId = state.nextId ∧
      ∀ filename, state'.loaded.find filename =
        if base = some filename then none else state.loaded.find filename := by
  cases base with
  | none =>
    cases hremove
    simp
  | some file =>
    simp only [removeBase, except_bind_ok, except_pure_ok, liftBug_ok]
      at hremove
    obtain ⟨loaded, hloaded, rfl⟩ := hremove
    refine ⟨?_, rfl, fun filename => ?_⟩
    · simp only [LoadState.done, Assoc.entries_remove hloaded,
        List.filter_filter]
      apply List.filter_congr
      rintro ⟨key, value⟩ hentry
      by_cases hkey : key = file
      · subst hkey
        rw [Assoc.mem_entries_iff, hbase key rfl] at hentry
        cases hentry
        simp [EvalResult.isCycle]
      · simp [hkey]
    · simp [Assoc.find_remove hloaded, eq_comm]

/-- The node of a completed entry. -/
def EvalResult.fileNode? : EvalResult T I → Option FileDependencyNode
  | .sml result => some result.node
  | .smi result => some result.node
  | .cycle => none

/-- The nodes of the completed entries, in the order of completion. -/
def nodesOf (done : Entries T I) : List FileDependencyNode :=
  done.filterMap fun entry => entry.2.fileNode?

theorem mapM_node?_ok {results : List (EvalResult T I)}
    {nodes : List FileDependencyNode}
    (hnodes : results.mapM EvalResult.node? = .ok nodes) :
    results.filterMap EvalResult.fileNode? = nodes ∧
      ∀ result ∈ results, result.isCycle = false := by
  induction results generalizing nodes with
  | nil =>
    cases hnodes
    simp
  | cons result results ih =>
    rw [List.mapM_cons] at hnodes
    simp only [except_bind_ok, except_pure_ok] at hnodes
    obtain ⟨node, hnode, rest, hrest, rfl⟩ := hnodes
    obtain ⟨hfilter, hall⟩ := ih hrest
    cases result with
    | cycle => cases hnode
    | sml result =>
      cases hnode
      exact ⟨by simp [EvalResult.fileNode?, hfilter],
        List.forall_mem_cons.mpr ⟨rfl, hall⟩⟩
    | smi result =>
      cases hnode
      exact ⟨by simp [EvalResult.fileNode?, hfilter],
        List.forall_mem_cons.mpr ⟨rfl, hall⟩⟩

theorem listNodes_ok {nodes : List FileDependencyNode}
    (hnodes : listNodes state.loaded = .ok nodes) :
    nodes = nodesOf state.done ∧ state.done = state.loaded.entries := by
  obtain ⟨hfilter, hall⟩ := mapM_node?_ok hnodes
  have hdone : state.done = state.loaded.entries := by
    refine List.filter_eq_self.mpr fun entry hentry => ?_
    simpa using hall entry.2 (List.mem_map.mpr ⟨entry, hentry, rfl⟩)
  refine ⟨?_, hdone⟩
  rw [← hfilter, hdone, nodesOf, Assoc.listItems, List.filterMap_map]
  rfl

/-- The declarations of a whole table are those of its completed entries. -/
theorem collectPartial_interfaceDec (state : LoadState T I) :
    state.loaded.collectPartial EvalResult.interfaceDec? =
      interfaceDecsOf state.done := by
  rw [Assoc.collectPartial, Assoc.listItems, List.filterMap_map,
    interfaceDecsOf, LoadState.done, List.filterMap_filter]
  apply List.filterMap_congr
  rintro ⟨filename, result⟩ -
  cases result <;> simp [EvalResult.isCycle, EvalResult.interfaceDec?]

/-! ### The provided interface -/

theorem loadProvideInterface_some {loader : Loader} {mode : FileLoadMode}
    {filePathLoc : FileOrPath × Loc} {provided : ProvideResult T I}
    (hload : loadProvideInterface fs fuel state loader mode (some filePathLoc) =
      .ok (state', provided)) :
    ∃ result dec top others,
      loadRequire fs fuel state loader mode filePathLoc =
        .ok (state', result) ∧
      result.dec = some (dec, top) ∧
      state'.loaded.remove dec.interfaceName.source.2 = .ok others ∧
      provided.node = some result.node ∧
      provided.baseDir = .dir (dec.interfaceName.source.1,
        Filename.dirname dec.interfaceName.source.2) ∧
      provided.interface = some
        { interfaceDecs := others.collectPartial EvalResult.interfaceDec?
          provide :=
            { requiredIds := dec.requiredIds
              locallyRequiredIds :=
                (top.locallyRequiredIds.collect decLocToIdLoc).filter
                  fun idLoc => idLoc.id ∉ dec.requiredIds.map IdLoc.id
              provideTopdecs := dec.provideTopdecs
              topdecsInclude := top.topdecsInclude.listItems.flatten } } := by
  simp only [loadProvideInterface, except_bind_ok] at hload
  obtain ⟨⟨state₁, result⟩, hrequire, hload⟩ := hload
  split at hload
  · cases hload
  · next dec top hdec =>
      simp only [except_bind_ok, except_pure_ok, liftBug_ok, Prod.mk.injEq]
        at hload
      obtain ⟨others, hothers, ⟨⟩, -, rfl, rfl⟩ := hload
      exact ⟨result, dec, top, others, hrequire, hdec, hothers, rfl, rfl, rfl⟩

/-- The table after the provided interface has been loaded, and what is
returned of it. -/
theorem loadProvideInterface_spec (hP : ∀ mode, P mode → P (nextMode mode)) {loader : Loader}
    {mode : FileLoadMode} {filePathLoc : FileOrPath × Loc}
    {provided : ProvideResult T I}
    (hload : loadProvideInterface fs fuel state loader mode (some filePathLoc) =
      .ok (state', provided))
    (hmode : P (nextMode mode)) (hnone : state.done = []) :
    ∃ state₁ source requires provide evaluated interface,
      visitFile fs loader filePathLoc =
        .ok (fileLoader source loader.loadPath, source) ∧
      state.loaded.find source.2 = none ∧
      fs.parseSmi source.2 = .ok (.interface requires provide) ∧
      StepOk fs loader.loadPath P (state.start source.2) state₁ ∧
      evalIrequireList (lookupRequire fs state₁.done)
        (lookupUse fs state₁.done) () (fileLoader source loader.loadPath) mode
        requires = .ok ((), evaluated) ∧
      state'.done = state₁.done ++ [(source.2, .smi (interfaceResult fs
        state₁.nextId source filePathLoc.2 provide evaluated))] ∧
      state'.nextId = state₁.nextId + 1 ∧
      (∀ filename, state'.InProgress filename ↔ state.InProgress filename) ∧
      provided.node = some (interfaceResult fs state₁.nextId source
        filePathLoc.2 provide evaluated).node ∧
      provided.baseDir = .dir (source.1, Filename.dirname source.2) ∧
      provided.interface = some interface ∧
      interface.interfaceDecs = interfaceDecsOf state₁.done ∧
      interface.provide.requiredIds = evaluated.requires.collect decLocToIdLoc ∧
      ∀ idLoc ∈ interface.provide.locallyRequiredIds,
        idLoc ∈ evaluated.localRequires.collect decLocToIdLoc := by
  obtain ⟨result, dec, top, others, hrequire, hdec, hothers, hnode, hbase,
    hinterface⟩ := loadProvideInterface_some hload
  have hinv : Invariant fs loader.loadPath P state := invariant_of_done_nil hnone
  obtain ⟨state₁, source, requires, provide, evaluated, hvisit, hnew, hparse,
    hstep, heval, rfl, hdone, hnext, hprogress⟩ :=
    loadRequire_last hP hrequire hmode hinv hnone (by simp [hdec])
  cases hdec
  refine ⟨state₁, source, requires, provide, evaluated, _, hvisit, hnew, hparse,
    hstep, heval, hdone, hnext, hprogress, hnode, hbase, hinterface, ?_, rfl,
    fun idLoc hid => List.mem_of_mem_filter hid⟩
  -- the store without the provided interface has the entries before it
  have hnodup := state'.done_keys_nodup
  rw [hdone, List.map_append, List.nodup_append] at hnodup
  have hkeep : others.entries.filter (fun entry => !entry.2.isCycle) =
      state₁.done := by
    rw [Assoc.entries_remove hothers, List.filter_filter]
    have hcomm : (state'.loaded.entries.filter fun entry =>
        (!entry.2.isCycle) && decide (entry.1 ≠ source.2)) =
          state'.done.filter fun entry => entry.1 ≠ source.2 := by
      rw [LoadState.done, List.filter_filter]
      apply List.filter_congr
      intro entry _
      rw [Bool.and_comm]
    refine hcomm.trans ?_
    rw [hdone, List.filter_append, List.filter_eq_self.mpr]
    · simp
    · intro entry hentry
      simp only [decide_eq_true_eq]
      intro heq
      exact hnodup.2.2 entry.1 (List.mem_map.mpr ⟨entry, hentry, rfl⟩) source.2
        (by simp) heq
  have hothersDone : (⟨others, 0⟩ : LoadState T I).done = state₁.done := hkeep
  rw [← hothersDone]
  exact collectPartial_interfaceDec ⟨others, 0⟩

/-! ### The entry points -/

/-- The stages of a successful `load`. -/
theorem load_stages {nextId : Nat}
    {options : LoadOptions} {unit : SmlUnit T} {result : LoadResult T I}
    (hload : load fs fuel nextId options unit = .ok result) :
    ∃ interfaceFile base state₁ provided state₂ state₃ tops,
      interfaceFileLoc fs options unit.interface = .ok interfaceFile ∧
      baseFilenameReal fs options = .ok base ∧
      loadProvideInterface fs fuel (initialState base nextId)
        (rootLoader options) options.loadMode interfaceFile =
          .ok (state₁, provided) ∧
      removeBase base state₁ = .ok state₂ ∧
      evalTopList (loadUse fs fuel) state₂
        ⟨provided.baseDir, options.loadPath⟩
        (allowUse options.baseFilename provided.node) unit.tops =
          .ok (state₃, tops) ∧
      listNodes state₃.loaded = .ok result.dependency.allNodes ∧
      result.dependency.root =
        { fileType := .rootSml (options.baseFilename.map fun file =>
            (.userpath, file))
          mode := options.loadMode
          edges := (provided.node.map fun node =>
            FileDependencyEdge.edge .provide node unit.loc).toList ++
              tops.edges } ∧
      result.compileUnit.interface = provided.interface := by
  simp only [load, except_bind_ok, except_pure_ok] at hload
  obtain ⟨interfaceFile, hinterface, base, hbase, ⟨state₁, provided⟩, hprovide,
    state₂, hremove, ⟨state₃, tops⟩, htops, allNodes, hnodes, rfl⟩ := hload
  exact ⟨interfaceFile, base, state₁, provided, state₂, state₃, tops,
    hinterface, hbase, hprovide, hremove, htops, hnodes, rfl, rfl⟩

/-- The stages of a successful `loadInterfaceFiles`. -/
theorem loadInterfaceFiles_stages {nextId : Nat} {loadMode : FileLoadMode} {sources : List Source}
    {result : InterfaceFilesResult T I}
    (hload : loadInterfaceFiles fs fuel nextId loadPath loadMode sources =
      .ok result) :
    ∃ state evaluated,
      loadRequireList (loadRequire fs fuel) ⟨.empty, nextId⟩
        ⟨.pwd .userpath, loadPath⟩ loadMode
        (sources.map fun source => (.file source, none)) =
          .ok (state, evaluated) ∧
      listNodes state.loaded = .ok result.dependency.allNodes ∧
      result.dependency.root =
        { fileType := .rootIncludes
          mode := loadMode
          edges := includeEdges evaluated.nodes evaluated.locs } ∧
      result.interfaceDecs = interfaceDecsOf state.done ∧
      result.requiredIds = evaluated.requires.collect decLocToIdLoc := by
  simp only [loadInterfaceFiles, except_bind_ok, except_pure_ok] at hload
  obtain ⟨⟨state, evaluated⟩, heval, allNodes, hnodes, ⟨⟩, -, rfl⟩ := hload
  exact ⟨state, evaluated, heval, hnodes, rfl,
    collectPartial_interfaceDec state, rfl⟩

/-- The declarations account for every interface file that was read, but for
`own`, the interface of the compilation unit itself. -/
def DecsCover (nodes : List FileDependencyNode) (decs : List (InterfaceDec I))
    (own : Option Filename) : Prop :=
  ∀ node ∈ nodes, ∀ hash, node.fileType = .interface hash →
    own = some node.filename ∨
      ∃ dec ∈ decs, dec.interfaceName = ⟨hash, node.source⟩

theorem Closed.decsCover {done : Entries T I}
    (hclosed : Closed fs loadPath P done) :
    DecsCover (nodesOf done) (interfaceDecsOf done) none := by
  intro node hnode hash htype
  simp only [nodesOf, List.mem_filterMap] at hnode
  obtain ⟨⟨filename, result⟩, hmem, hfile⟩ := hnode
  obtain ⟨pre, post, hsplit⟩ := List.append_of_mem hmem
  right
  cases hclosed pre filename result post hsplit with
  | sml =>
    cases hfile
    cases htype
  | includes =>
    cases hfile
    cases htype
  | interface id loc parse hmode eval =>
    cases hfile
    cases htype
    exact ⟨_, mem_interfaceDecsOf.mpr ⟨_, _, hmem, rfl⟩, rfl⟩

/-- The interface declarations of every successful load: each interface file
that was read occurs once, after the interfaces it requires, and the
interfaces that the compilation unit requires are among them. -/
theorem interfaceDecs_ordered (fs : FileSystem T I) (fuel nextId : Nat) :
    (∀ (options : LoadOptions) (unit : SmlUnit T) (result : LoadResult T I)
      (interface : Interface T I),
      load fs fuel nextId options unit = .ok result →
      result.compileUnit.interface = some interface →
      DecsOk interface.interfaceDecs ∧
      (∃ own, DecsCover result.dependency.allNodes interface.interfaceDecs
        (some own) ∧ ∀ dec ∈ interface.interfaceDecs,
          dec.interfaceName.source.2 ≠ own) ∧
      (∀ idLoc ∈ interface.provide.requiredIds,
        ∃ dec ∈ interface.interfaceDecs, dec.interfaceId = idLoc.id) ∧
      ∀ idLoc ∈ interface.provide.locallyRequiredIds,
        ∃ dec ∈ interface.interfaceDecs, dec.interfaceId = idLoc.id) ∧
    ∀ (loadPath : List Source) (loadMode : FileLoadMode)
      (sources : List Source) (result : InterfaceFilesResult T I),
      loadInterfaceFiles fs fuel nextId loadPath loadMode sources =
        .ok result →
      DecsOk result.interfaceDecs ∧
      DecsCover result.dependency.allNodes result.interfaceDecs none ∧
      ∀ idLoc ∈ result.requiredIds,
        ∃ dec ∈ result.interfaceDecs, dec.interfaceId = idLoc.id := by
  have hP : ∀ mode : FileLoadMode, True → True := fun _ h => h
  constructor
  · intro options unit result interface hload hinterface
    obtain ⟨interfaceFile, base, state₁, provided, state₂, state₃, tops, -, -,
      hprovide, hremove, htops, hnodes, -, hcompile⟩ := load_stages hload
    cases interfaceFile with
    | none =>
      cases hprovide
      rw [hcompile] at hinterface
      cases hinterface
    | some filePathLoc =>
      obtain ⟨state, source, requires, provide, evaluated, interface', -, -,
        hparse, hstep, heval, hdone, hnext, hprogress, -, -, hinterface', hdecs,
        hrequired, hlocal⟩ :=
        loadProvideInterface_spec (P := fun _ => True) hP hprovide trivial
          (initialState_done base nextId)
      rw [hcompile, hinterface'] at hinterface
      cases hinterface
      have hclosed := hstep.inv.closed
      have hresolved :=
        evalIrequireList_resolved hclosed.allResolved heval
      have hbase : ∀ file, base = some file → state₁.InProgress file :=
        fun file hfile => (hprogress file).mpr
          ((initialState_inProgress base nextId file).mpr hfile)
      have hdone₂ := (removeBase_spec hbase hremove).1
      rw [hdecs]
      refine ⟨hclosed.decsOk state.done_keys_nodup hstep.inv.idsAscend,
        ⟨source.2, ?_, ?_⟩, ?_, ?_⟩
      · have hnext₂ := (removeBase_spec hbase hremove).2.1
        have hinv₁ : Invariant fs options.loadPath (fun _ => True) state₁ := by
          refine hstep.inv.snoc ?_ hdone (by omega) ?_
          · exact EntryOk.interface state.nextId filePathLoc.2 hparse trivial
              heval
          · intro dec hdec
            cases hdec
            exact ⟨rfl, by omega⟩
        have hinv₂ : Invariant fs options.loadPath (fun _ => True) state₂ :=
          ⟨hdone₂ ▸ hinv₁.closed, hdone₂ ▸ hinv₁.idsAscend,
            by rw [hdone₂, hnext₂]; exact hinv₁.idsUsed⟩
        obtain ⟨hstep₃, hdecs₃, -⟩ :=
          evalTopList_ok (loadUse_ok fs options.loadPath _ fuel) htops hinv₂
        rw [(listNodes_ok hnodes).1]
        intro node hnode hash htype
        rcases hstep₃.inv.closed.decsCover node hnode hash htype with
          hnone | ⟨dec, hdec, hname⟩
        · cases hnone
        · rw [hdecs₃, hdone₂, hdone] at hdec
          simp only [interfaceDecsOf, List.filterMap_append, List.mem_append]
            at hdec
          rcases hdec with hdec | hdec
          · exact Or.inr ⟨dec, hdec, hname⟩
          · left
            simp only [EvalResult.interfaceDec?, List.filterMap_cons,
              List.filterMap_nil, interfaceResult, Option.map_some,
              List.mem_singleton] at hdec
            rw [hdec] at hname
            simp only [interfaceDec, InterfaceName.mk.injEq] at hname
            rw [FileDependencyNode.filename, ← hname.2]
      · intro dec hdec heq
        obtain ⟨filename, found, hmem, hfound⟩ := mem_interfaceDecsOf.mp hdec
        obtain ⟨pre, post, hsplit⟩ := List.append_of_mem hmem
        have hfile := ((hclosed pre filename found post hsplit).interfaceDec
          hfound (Closed.init (hsplit ▸ hclosed)).allResolved).1
        have hnodup := state₁.done_keys_nodup
        rw [hdone, List.map_append, List.nodup_append] at hnodup
        exact hnodup.2.2 filename (List.mem_map.mpr ⟨_, hmem, rfl⟩) source.2
          (by simp) (hfile.symm.trans heq)
      · intro idLoc hid
        rw [hrequired] at hid
        exact hresolved.1.ids hid
      · intro idLoc hid
        exact hresolved.2.ids (hlocal idLoc hid)
  · intro loadPath loadMode sources result hload
    obtain ⟨state, evaluated, heval, hnodes, -, hdecs, hrequired⟩ :=
      loadInterfaceFiles_stages hload
    obtain ⟨hstep, hlookup⟩ := loadRequireList_ok (P := fun _ => True)
      (loadRequire_ok fs loadPath _ hP fuel) heval rfl trivial
      (invariant_of_done_nil rfl)
    have hclosed := hstep.inv.closed
    rw [hdecs, (listNodes_ok hnodes).1]
    refine ⟨hclosed.decsOk state.done_keys_nodup hstep.inv.idsAscend,
      hclosed.decsCover, fun idLoc hid => ?_⟩
    rw [hrequired] at hid
    exact (loadRequireList_resolved hclosed.allResolved hlookup).ids hid

/-- `a.smi` requires `b.smi` twice, once through the include file `c.smi`. -/
def diamondFiles : FileSystem String String :=
  .ofFiles
    [(⟨true, ["w", "a.smi"]⟩, .interface
      [.require ["c.smi"] [] (some 1),
        .require ["b.smi"] [("init", some 2)] (some 2)] ["a"]),
      (⟨true, ["w", "b.smi"]⟩, .interface [] ["b"]),
      (⟨true, ["w", "c.smi"]⟩, .includes [(["b.smi"], some 3)] ["infix"])]
    [] []

/-- The interface is loaded as a compile unit and by its name. -/
theorem interfaceDecs_ordered_diamond :
    (∃ result interface,
      load diamondFiles 9 0
        ⟨some ⟨true, ["w", "a.sml"]⟩, [], .compile, id⟩
        ⟨.nointerface, [], none⟩ = .ok result ∧
      result.compileUnit.interface = some interface ∧
      DecsOk interface.interfaceDecs ∧
      ∀ idLoc ∈ interface.provide.requiredIds,
        ∃ dec ∈ interface.interfaceDecs, dec.interfaceId = idLoc.id) ∧
    ∃ result,
      loadInterfaceFiles diamondFiles 9 0 [] .all
        [(.userpath, ⟨true, ["w", "a.smi"]⟩)] = .ok result ∧
      DecsOk result.interfaceDecs := by
  obtain ⟨hload, hfiles⟩ :=
    interfaceDecs_ordered (T := String) (I := String) diamondFiles 9 0
  constructor
  · have heval : okAnd (load diamondFiles 9 0
        ⟨some ⟨true, ["w", "a.sml"]⟩, [], .compile, id⟩
        ⟨.nointerface, [], none⟩)
        (fun result => result.compileUnit.interface.isSome) = true := by
      decide +kernel
    obtain ⟨result, hresult, hsome⟩ := okAnd_iff.mp heval
    obtain ⟨interface, hinterface⟩ := Option.isSome_iff_exists.mp hsome
    obtain ⟨hdecs, -, hrequired, -⟩ :=
      hload _ _ result interface hresult hinterface
    exact ⟨result, interface, hresult, hinterface, hdecs, hrequired⟩
  · have heval : okAnd (loadInterfaceFiles diamondFiles 9 0 [] .all
        [(.userpath, ⟨true, ["w", "a.smi"]⟩)]) (fun _ => true) = true := by
      decide +kernel
    obtain ⟨result, hresult, -⟩ := okAnd_iff.mp heval
    exact ⟨result, hresult, (hfiles _ _ _ result hresult).1⟩

end LoadFile

end SmlSharp
