/-
The file loader: it reads the interface and source files that a compilation
unit refers to, following the references its load mode asks for.
-/
import SmlSharp.InterfaceName
import SmlSharp.LoadFile.Assoc

namespace SmlSharp

namespace LoadFile

open InterfaceName

/-! ### Parsed files -/

/-- A top-level item of a source file: declarations, or `_use`. -/
inductive Top (T : Type) where
  | topdec (topdecs : List T)
  | use (path : RequirePath.Path) (loc : Loc)

inductive InterfaceDecl where
  | nointerface
  | interface (path : RequirePath.Path) (loc : Loc)

structure SmlUnit (T : Type) where
  interface : InterfaceDecl
  tops : List (Top T)
  loc : Loc

inductive UnitParseResult (T : Type) where
  | eof
  | unit (unit : SmlUnit T)

/-- A reference of an interface file; the symbols are the options. -/
inductive Irequire where
  | require (path : RequirePath.Path) (options : List (String × Loc)) (loc : Loc)
  | localRequire (path : RequirePath.Path) (options : List (String × Loc))
      (loc : Loc)
  | localUse (path : RequirePath.Path) (loc : Loc)

inductive Itop (T I : Type) where
  | interface (requires : List Irequire) (provide : List I)
  | includes (includes : List (RequirePath.Path × Loc)) (topdecs : List T)

structure IdLoc where
  id : Nat
  loc : Loc
deriving DecidableEq

structure InterfaceDec (I : Type) where
  interfaceId : Nat
  interfaceName : InterfaceName
  requiredIds : List IdLoc
  provideTopdecs : List I

structure Provide (T I : Type) where
  requiredIds : List IdLoc
  locallyRequiredIds : List IdLoc
  provideTopdecs : List I
  topdecsInclude : List T

structure Interface (T I : Type) where
  interfaceDecs : List (InterfaceDec I)
  provide : Provide T I

structure CompileUnit (T I : Type) where
  interface : Option (Interface T I)
  topdecsSource : List T

/-! ### The outside world -/

inductive IoCause where
  | noent
  | other
deriving DecidableEq

/-- A finite file map: which names open, the real path of a name, and what the
parsers make of the file at a real path. -/
structure FileSystem (T I : Type) where
  openIn : Filename → Except IoCause Unit
  osRealPath : Filename → Except IoCause Filename
  parseSmi : Filename → Except String (Itop T I)
  parseSml : Filename → Except String (UnitParseResult T)
  testExist : Filename → Bool
  /-- `InterfaceHash.generate`. -/
  generateHash : Filename → List InterfaceName → List I → Hash
  /-- The real paths of the files that exist. -/
  files : List Filename
  realPath_mem : ∀ {filename real}, openIn filename = .ok () →
    osRealPath filename = .ok real → real ∈ files
  openIn_empty : openIn Filename.empty = .error .noent

/-- The file map of the given parsed files under their real paths; `links` gives
further names of them. -/
def FileSystem.ofFiles {T I : Type} (smis : List (Filename × Itop T I))
    (smls : List (Filename × UnitParseResult T))
    (links : List (Filename × Filename)) : FileSystem T I where
  openIn filename :=
    if filename ≠ Filename.empty ∧
        (links.lookup filename).getD filename ∈
          smis.map Prod.fst ++ smls.map Prod.fst then .ok ()
    else .error .noent
  osRealPath filename := .ok ((links.lookup filename).getD filename)
  parseSmi filename :=
    match smis.lookup filename with
    | some itop => .ok itop
    | none => .error "syntax error"
  parseSml filename :=
    match smls.lookup filename with
    | some abunit => .ok abunit
    | none => .error "syntax error"
  testExist filename :=
    (links.lookup filename).getD filename ∈
      smis.map Prod.fst ++ smls.map Prod.fst
  generateHash filename _ _ := filename.arcs.foldl (fun z x => z ++ "/" ++ x) ""
  files := smis.map Prod.fst ++ smls.map Prod.fst
  realPath_mem := by
    intro filename real hopen hreal
    split at hopen
    · next hmem =>
        cases hreal
        exact hmem.2
    · cases hopen
  openIn_empty := by simp

inductive LoadErrorKind where
  | circularLoad (filename : Filename)
  | useRequireConflict (filename : Filename)
  | useNotAllowed (path : RequirePath.Path)
  | unexpectedInterfaceDecl (path : RequirePath.Path)
  | unknownRequireOption (option : String)
  | notAnInterface (filename : Filename)
  | duplicateHash (left right : InterfaceName)
  | fileNotFoundOnPath (path : RequirePath.Path)
  | pathMustNotBeEmpty
  | absolutePathNotAllowed (path : RequirePath.Path)
  | directoryPathNotAllowed (path : RequirePath.Path)
  | io
  | parse (message : String)
  | bug (message : String)
  /-- Not an error of the source: the model ran out of recursion depth. -/
  | outOfFuel
deriving DecidableEq

structure LoadError where
  loc : Loc
  kind : LoadErrorKind
deriving DecidableEq

/-! ### Searching for files -/

inductive BaseDir where
  | dir (source : Source)
  | pwd (place : FilePlace)
deriving DecidableEq

structure Loader where
  baseDir : BaseDir
  loadPath : List Source
deriving DecidableEq

def baseDirPlace (loader : Loader) : FilePlace :=
  match loader.baseDir with
  | .dir (place, _) => place
  | .pwd place => place

inductive OpenFailure where
  | notFound
  | io
  | path (reason : RequirePath.Reason)

variable {T I : Type}

def openFileOnPath (fs : FileSystem T I) :
    List Source → Filename → Except OpenFailure Source
  | [], _ => .error .notFound
  | (place, dir) :: loadPath, filename =>
    let openName := Filename.concatPath dir filename
    match fs.openIn openName with
    | .ok () => .ok (place, openName)
    | .error .noent => openFileOnPath fs loadPath filename
    | .error .other => .error .io

def filterSTDPATH (loadPath : List Source) : List Source :=
  loadPath.filter fun source => source.1 = .stdpath

/-- `RequirePath.toFilename` inside the scope of the handler of `openPath`. -/
def pathToFilename (path : RequirePath.Path) : Except OpenFailure Filename :=
  match RequirePath.toFilename path with
  | .ok filename => .ok filename
  | .error reason => .error (.path reason)

/-- The body of `openPath`, before its exception handlers. -/
def searchPath (fs : FileSystem T I) (loader : Loader)
    (path : RequirePath.Path) : Except OpenFailure Source := do
  let filename ← pathToFilename path
  match loader.baseDir with
  | .pwd place =>
    match fs.openIn filename with
    | .ok () => .ok (place, filename)
    | .error .noent => .error .notFound
    | .error .other => .error .io
  | .dir baseDir =>
    if RequirePath.beginsWithDot path then
      openFileOnPath fs [baseDir] filename
    else
      match baseDir.1 with
      | .stdpath =>
        openFileOnPath fs (baseDir :: filterSTDPATH loader.loadPath) filename
      | .userpath =>
        openFileOnPath fs (baseDir :: loader.loadPath) filename

def openPath (fs : FileSystem T I) (loader : Loader)
    (path : RequirePath.Path) (loc : Loc) : Except LoadError Source :=
  match searchPath fs loader path with
  | .ok source => .ok source
  | .error .io => .error ⟨loc, .io⟩
  | .error .notFound => .error ⟨loc, .fileNotFoundOnPath path⟩
  | .error (.path .emptyPath) => .error ⟨loc, .pathMustNotBeEmpty⟩
  | .error (.path .absolutePath) => .error ⟨loc, .absolutePathNotAllowed path⟩
  | .error (.path .directoryPath) =>
    .error ⟨loc, .directoryPathNotAllowed path⟩

inductive FileOrPath where
  | file (source : Source)
  | path (path : RequirePath.Path)

/-- `Filename.realPath`. -/
def realPath (fs : FileSystem T I) (filename : Filename) :
    Except LoadError Filename :=
  if filename = Filename.empty then .ok Filename.dot
  else
    match fs.osRealPath filename with
    | .ok real => .ok real
    | .error _ => .error ⟨none, .io⟩

def openFileExact (fs : FileSystem T I) (source : Source) :
    Except LoadError Source :=
  match fs.openIn source.2 with
  | .ok () => .ok source
  | .error _ => .error ⟨none, .io⟩

/-- The two ways in which `visitFile` opens a file. -/
def openFileOrPath (fs : FileSystem T I) (loader : Loader) :
    FileOrPath × Loc → Except LoadError Source
  | (.file source, _) => openFileExact fs source
  | (.path path, loc) => openPath fs loader path loc

/-- Open a file and move the base directory of the loader to the directory of
its real path. -/
def visitFile (fs : FileSystem T I) (loader : Loader)
    (filePathLoc : FileOrPath × Loc) : Except LoadError (Loader × Source) := do
  let (filePlace, filename) ← openFileOrPath fs loader filePathLoc
  let real ← realPath fs filename
  return ({ loader with baseDir := .dir (filePlace, Filename.dirname real) },
    (filePlace, real))

/-! ### The state of a load -/

structure ToplevelAdditionals (T I : Type) where
  initRequisites : Assoc Filename (InterfaceDec I × InitRequisite)
  locallyRequiredIds : Assoc Filename (InterfaceDec I × Loc)
  topdecsInclude : Assoc Filename (List T)

structure SmlResult (T : Type) where
  node : FileDependencyNode
  loc : Loc
  topdecs : List T

structure SmiResult (T I : Type) where
  dec : Option (InterfaceDec I × ToplevelAdditionals T I)
  node : FileDependencyNode
  loc : Loc
  inits : Assoc Filename (InterfaceDec I × InitRequisite)
  requires : Assoc Filename (InterfaceDec I × Loc)
  topdecs : Assoc Filename (List T)

inductive EvalResult (T I : Type) where
  | sml (result : SmlResult T)
  | smi (result : SmiResult T I)
  | cycle

/-- The table of visited files, and the counter of `InterfaceID.generate`. -/
structure LoadState (T I : Type) where
  loaded : Assoc Filename (EvalResult T I)
  nextId : Nat

inductive NewOrLoaded (ρ π : Type) where
  | loaded (result : ρ)
  | new (loader : Loader) (parsed : π) (source : Source)

def liftParse {α : Type} (loc : Loc) : Except String α → Except LoadError α
  | .ok parsed => .ok parsed
  | .error message => .error ⟨loc, .parse message⟩

def liftBug {α : Type} : Except String α → Except LoadError α
  | .ok value => .ok value
  | .error message => .error ⟨none, .bug message⟩

def visitAndParseSmi (fs : FileSystem T I) (state : LoadState T I)
    (loader : Loader) (filePathLoc : FileOrPath × Loc) :
    Except LoadError (NewOrLoaded (SmiResult T I) (Itop T I)) := do
  let (newLoader, source) ← visitFile fs loader filePathLoc
  match state.loaded.find source.2 with
  | some (.smi result) => return .loaded result
  | some (.sml _) => .error ⟨filePathLoc.2, .useRequireConflict source.2⟩
  | some .cycle => .error ⟨filePathLoc.2, .circularLoad source.2⟩
  | none => do
      let parsed ← liftParse filePathLoc.2 (fs.parseSmi source.2)
      return .new newLoader parsed source

def visitAndParseSml (fs : FileSystem T I) (state : LoadState T I)
    (loader : Loader) (filePathLoc : FileOrPath × Loc) :
    Except LoadError (NewOrLoaded (SmlResult T) (UnitParseResult T)) := do
  -- the load path is ignored when processing a `_use` file
  let loader := { loader with loadPath := [] }
  let (newLoader, source) ← visitFile fs loader filePathLoc
  match state.loaded.find source.2 with
  | some (.sml result) => return .loaded result
  | some (.smi _) => .error ⟨filePathLoc.2, .useRequireConflict source.2⟩
  | some .cycle => .error ⟨filePathLoc.2, .circularLoad source.2⟩
  | none => do
      let parsed ← liftParse filePathLoc.2 (fs.parseSml source.2)
      return .new newLoader parsed source

def nextMode : FileLoadMode → FileLoadMode
  | .all => .all
  | .allUserpath => .allUserpath
  | .compileAndLink => .link
  | .link => .link
  | .compile => .nolocal
  | .nolocal => .nolocal

/-- Note that a file is being loaded. -/
def LoadState.start (state : LoadState T I) (filename : Filename) :
    LoadState T I :=
  { state with loaded := state.loaded.append filename .cycle }

/-- Replace the mark of a file by its result, at the end of the table. -/
def LoadState.finish (state : LoadState T I) (filename : Filename)
    (result : EvalResult T I) : Except LoadError (LoadState T I) := do
  let loaded ← liftBug (state.loaded.remove filename)
  return { state with loaded := loaded.append filename result }

/-! ### Evaluation of the references of a file

The functions below take the functions that load one file as parameters; `σ` is
the state these thread. -/

section Eval

variable {σ : Type}

inductive AllowUse where
  | allowAll
  | allowOnly (names : List Filename)

/-- The type of `loadUse`. -/
abbrev UseFn (σ T : Type) :=
  σ → Loader → RequirePath.Path × Loc → Except LoadError (σ × SmlResult T)

/-- The type of `loadRequire`. -/
abbrev RequireFn (σ T I : Type) :=
  σ → Loader → FileLoadMode → FileOrPath × Loc →
    Except LoadError (σ × SmiResult T I)

structure TopResult (T : Type) where
  edge : Option FileDependencyEdge
  topdecs : List T

structure TopsResult (T : Type) where
  edges : List FileDependencyEdge
  topdecs : List T

def checkAllowed (allow : AllowUse) (node : FileDependencyNode)
    (path : RequirePath.Path) (loc : Loc) : Except LoadError Unit :=
  match allow with
  | .allowAll => .ok ()
  | .allowOnly names =>
    if node.filename ∈ names then .ok () else .error ⟨loc, .useNotAllowed path⟩

def evalTop (loadUse : UseFn σ T) (state : σ) (loader : Loader)
    (allow : AllowUse) : Top T → Except LoadError (σ × TopResult T)
  | .topdec topdecs => .ok (state, ⟨none, topdecs⟩)
  | .use path loc => do
      let (state, result) ← loadUse state loader (path, loc)
      checkAllowed allow result.node path result.loc
      return (state, ⟨some (.edge .use result.node result.loc), result.topdecs⟩)

def evalTopList (loadUse : UseFn σ T) (state : σ) (loader : Loader)
    (allow : AllowUse) : List (Top T) → Except LoadError (σ × TopsResult T)
  | [] => .ok (state, ⟨[], []⟩)
  | top :: tops => do
      let (state, first) ← evalTop loadUse state loader allow top
      let (state, rest) ← evalTopList loadUse state loader allow tops
      return (state, ⟨first.edge.toList ++ rest.edges,
        first.topdecs ++ rest.topdecs⟩)

/-- The body of a `_use`d file. -/
def evalUnit (loadUse : UseFn σ T) (state : σ) (loader : Loader) :
    UnitParseResult T → Except LoadError (σ × TopsResult T)
  | .eof => .ok (state, ⟨[], []⟩)
  | .unit ⟨.interface path loc, _, _⟩ =>
    .error ⟨loc, .unexpectedInterfaceDecl path⟩
  | .unit ⟨.nointerface, tops, _⟩ =>
    evalTopList loadUse state loader .allowAll tops

def maxInit : InitRequisite → InitRequisite → InitRequisite
  | .initAlways, _ => .initAlways
  | .initIfneeded, x => x

/-- Whether the options of a `_require` ask for initialization. -/
def requireInit : List (String × Loc) → Bool → Except LoadError Bool
  | [], init => .ok init
  | ("init", _) :: symbols, _ => requireInit symbols true
  | (s, loc) :: _, _ => .error ⟨loc, .unknownRequireOption s⟩

def evalRequireOptions (symbols : List (String × Loc))
    (args : SmiResult T I) : Except LoadError (SmiResult T I) := do
  let init ← requireInit symbols false
  return { args with
    inits := if init then args.inits.map fun entry => (entry.1, .initAlways)
      else args.inits }

/-- What the references of an interface file contribute. -/
structure RequiresResult (T I : Type) where
  edges : List FileDependencyEdge
  inits : Assoc Filename (InterfaceDec I × InitRequisite)
  localRequires : Assoc Filename (InterfaceDec I × Loc)
  requires : Assoc Filename (InterfaceDec I × Loc)
  topdecs : Assoc Filename (List T)

def RequiresResult.empty : RequiresResult T I :=
  ⟨[], .empty, .empty, .empty, .empty⟩

/-- Whether `local _require` is followed. -/
def followsLocalRequire (mode : FileLoadMode) (place : FilePlace) : Bool :=
  match mode with
  | .all => true
  | .allUserpath => place = .userpath
  | .compileAndLink => true
  | .link => true
  | .compile => true
  | .nolocal => false

/-- Whether `local _use` is followed. -/
def followsLocalUse (mode : FileLoadMode) (place : FilePlace) : Bool :=
  match mode with
  | .all => true
  | .allUserpath => place = .userpath
  | .compileAndLink => true
  | .link => false
  | .compile => true
  | .nolocal => false

/-- One reference; its result has a single edge. -/
def evalIrequire (loadRequire : RequireFn σ T I) (loadUse : UseFn σ T)
    (state : σ) (loader : Loader) (mode : FileLoadMode) :
    Irequire → Except LoadError (σ × Option (RequiresResult T I))
  | .require path options loc => do
      let (state, result) ←
        loadRequire state loader (nextMode mode) (.path path, loc)
      let result ← evalRequireOptions options result
      return (state, some ⟨[.edge .require result.node loc], result.inits,
        .empty, result.requires, result.topdecs⟩)
  | .localRequire path options loc =>
    if followsLocalRequire mode (baseDirPlace loader) then do
      let (state, result) ←
        loadRequire state loader (nextMode mode) (.path path, loc)
      let result ← evalRequireOptions options result
      return (state, some ⟨[.edge .localRequire result.node loc],
        result.inits, result.requires, .empty, result.topdecs⟩)
    else .ok (state, none)
  | .localUse path loc =>
    if followsLocalUse mode (baseDirPlace loader) then do
      let (state, result) ← loadUse state loader (path, loc)
      return (state, some ⟨[.edge .localUse result.node result.loc],
        .empty, .empty, .empty, .empty⟩)
    else .ok (state, none)

/-- `#2`, as the merge of two entries for one key. -/
def second {α : Type} (_ y : α) : α := y

/-- The results of the first reference and of the remaining ones. -/
def RequiresResult.merge (first rest : RequiresResult T I) :
    RequiresResult T I where
  edges := first.edges ++ rest.edges
  inits := .concatWith (fun d1 d2 => (d2.1, maxInit d1.2 d2.2))
    first.inits rest.inits
  localRequires := .concatWith second first.localRequires rest.localRequires
  requires := .concatWith second first.requires rest.requires
  topdecs := .concatWith second first.topdecs rest.topdecs

def evalIrequireList (loadRequire : RequireFn σ T I) (loadUse : UseFn σ T)
    (state : σ) (loader : Loader) (mode : FileLoadMode) :
    List Irequire → Except LoadError (σ × RequiresResult T I)
  | [] => .ok (state, .empty)
  | fileLoc :: fileLocs => do
      let (state, result1) ←
        evalIrequire loadRequire loadUse state loader mode fileLoc
      let (state, result2) ←
        evalIrequireList loadRequire loadUse state loader mode fileLocs
      match result1 with
      | none => return (state, result2)
      | some result1 => return (state, result1.merge result2)

/-- What the files of an include list contribute. -/
structure IncludesResult (T I : Type) where
  nodes : List FileDependencyNode
  locs : List Loc
  inits : Assoc Filename (InterfaceDec I × InitRequisite)
  requires : Assoc Filename (InterfaceDec I × Loc)
  topdecs : Assoc Filename (List T)

/-- `loadRequireList`; `loadInterfaceFileList` is the same loop over files that
are given by their names. -/
def loadRequireList (loadRequire : RequireFn σ T I) (state : σ)
    (loader : Loader) (mode : FileLoadMode) :
    List (FileOrPath × Loc) → Except LoadError (σ × IncludesResult T I)
  | [] => .ok (state, ⟨[], [], .empty, .empty, .empty⟩)
  | pathLoc :: pathLocs => do
      let (state, first) ← loadRequire state loader mode pathLoc
      let (state, rest) ←
        loadRequireList loadRequire state loader mode pathLocs
      return (state,
        { nodes := first.node :: rest.nodes
          locs := first.loc :: rest.locs
          inits := .concatWith second first.inits rest.inits
          requires := .concatWith second first.requires rest.requires
          topdecs := .concatWith second first.topdecs rest.topdecs })

end Eval

/-! ### Loading one file -/

def smlResult (source : Source) (loc : Loc) (tops : TopsResult T) :
    SmlResult T :=
  ⟨.file source .sml tops.edges, loc, tops.topdecs⟩

def includeEdges (nodes : List FileDependencyNode) (locs : List Loc) :
    List FileDependencyEdge :=
  (nodes.zip locs).map fun entry => .edge .include entry.1 entry.2

def includesResult (source : Source) (loc : Loc) (topdecs : List T)
    (evaluated : IncludesResult T I) : SmiResult T I where
  dec := none
  loc := loc
  node := .file source .includes (includeEdges evaluated.nodes evaluated.locs)
  inits := evaluated.inits
  requires := evaluated.requires
  topdecs := evaluated.topdecs.append source.2 topdecs

def decLocToIdLoc (entry : InterfaceDec I × Loc) : IdLoc :=
  ⟨entry.1.interfaceId, entry.2⟩

def decInitToInitName (entry : InterfaceDec I × InitRequisite) :
    InitRequisite × InterfaceName :=
  (entry.2, entry.1.interfaceName)

/-- The hash of an interface from the names of what it requires. -/
def interfaceHash (fs : FileSystem T I) (filename : Filename)
    (provide : List I) (requires : Assoc Filename (InterfaceDec I × Loc)) :
    Hash :=
  fs.generateHash filename
    (requires.collect fun entry => entry.1.interfaceName) provide

def interfaceDec (fs : FileSystem T I) (interfaceId : Nat) (source : Source)
    (provide : List I) (evaluated : RequiresResult T I) : InterfaceDec I where
  interfaceId := interfaceId
  interfaceName :=
    ⟨interfaceHash fs source.2 provide evaluated.requires, source⟩
  requiredIds := evaluated.requires.collect decLocToIdLoc
  provideTopdecs := provide

def interfaceResult (fs : FileSystem T I) (interfaceId : Nat) (source : Source)
    (loc : Loc) (provide : List I) (evaluated : RequiresResult T I) :
    SmiResult T I :=
  let dec := interfaceDec fs interfaceId source provide evaluated
  { dec := some (dec, ⟨evaluated.inits, evaluated.localRequires,
      evaluated.topdecs⟩)
    loc := loc
    node := .file source (.interface dec.interfaceName.hash) evaluated.edges
    inits := evaluated.inits.append source.2 (dec, .initIfneeded)
    requires := .singleton source.2 (dec, loc)
    topdecs := .empty }

/-- `fuel` bounds the depth of nested loads. -/
def loadUse (fs : FileSystem T I) : Nat → UseFn (LoadState T I) T
  | 0, _, _, _ => .error ⟨none, .outOfFuel⟩
  | fuel + 1, state, loader, (path, loc) => do
      match ← visitAndParseSml fs state loader (.path path, loc) with
      | .loaded result => return (state, { result with loc := loc })
      | .new loader abunit source => do
          let (state, tops) ←
            evalUnit (loadUse fs fuel) (state.start source.2) loader abunit
          let result := smlResult source loc tops
          let state ← state.finish source.2 (.sml result)
          return (state, result)

def loadRequire (fs : FileSystem T I) : Nat → RequireFn (LoadState T I) T I
  | 0, _, _, _, _ => .error ⟨none, .outOfFuel⟩
  | fuel + 1, state, loader, mode, filePathLoc => do
      match ← visitAndParseSmi fs state loader filePathLoc with
      | .loaded result => return (state, { result with loc := filePathLoc.2 })
      | .new loader (.includes includes topdecs) source => do
          let (state, evaluated) ←
            loadRequireList (loadRequire fs fuel) (state.start source.2) loader
              mode (includes.map fun entry => (.path entry.1, entry.2))
          let result := includesResult source filePathLoc.2 topdecs evaluated
          let state ← state.finish source.2 (.smi result)
          return (state, result)
      | .new loader (.interface requires provide) source => do
          let (state, evaluated) ←
            evalIrequireList (loadRequire fs fuel) (loadUse fs fuel)
              (state.start source.2) loader mode requires
          let result := interfaceResult fs state.nextId source filePathLoc.2
            provide evaluated
          let state := { state with nextId := state.nextId + 1 }
          let state ← state.finish source.2 (.smi result)
          return (state, result)

/-! ### Entry points -/

/-- Reports the first two interfaces of which the hashes collide. -/
def checkHashDuplication : List (InterfaceDec I) → List InterfaceName →
    Except LoadError Unit
  | [], _ => .ok ()
  | dec :: decs, seen =>
    match seen.find? fun name => name.hash = dec.interfaceName.hash with
    | some name => .error ⟨none, .duplicateHash dec.interfaceName name⟩
    | none => checkHashDuplication decs (dec.interfaceName :: seen)

def EvalResult.interfaceDec? : EvalResult T I → Option (InterfaceDec I)
  | .smi result => result.dec.map Prod.fst
  | _ => none

structure ProvideResult (T I : Type) where
  node : Option FileDependencyNode
  prelude : ToplevelPrelude
  interface : Option (Interface T I)
  baseDir : BaseDir

def loadProvideInterface (fs : FileSystem T I) (fuel : Nat)
    (state : LoadState T I) (loader : Loader) (mode : FileLoadMode) :
    Option (FileOrPath × Loc) →
      Except LoadError (LoadState T I × ProvideResult T I)
  | none => .ok (state, ⟨none, ⟨none, []⟩, none, loader.baseDir⟩)
  | some filePathLoc => do
      let (state, result) ← loadRequire fs fuel state loader mode filePathLoc
      match result.dec with
      | none => .error ⟨filePathLoc.2, .notAnInterface result.node.filename⟩
      | some (dec, top) => do
          let source := dec.interfaceName.source
          let locallyRequiredIds :=
            (top.locallyRequiredIds.collect decLocToIdLoc).filter fun idLoc =>
              idLoc.id ∉ dec.requiredIds.map IdLoc.id
          let others ← liftBug (state.loaded.remove source.2)
          let interfaceDecs := others.collectPartial EvalResult.interfaceDec?
          let interface : Interface T I :=
            { interfaceDecs := interfaceDecs
              provide :=
                { requiredIds := dec.requiredIds
                  locallyRequiredIds := locallyRequiredIds
                  provideTopdecs := dec.provideTopdecs
                  topdecsInclude := top.topdecsInclude.listItems.flatten } }
          checkHashDuplication (dec :: interfaceDecs) []
          return (state,
            { node := some result.node
              prelude :=
                { toplevelName := some dec.interfaceName
                  initRequisites :=
                    top.initRequisites.collect decInitToInitName }
              interface := some interface
              baseDir := .dir (source.1, Filename.dirname source.2) })

/-- The default interface file of `X.sml` is `X.smi`. -/
def defaultInterfaceFilename (baseFilename : Option Filename) :
    Option Filename :=
  match baseFilename with
  | none => none
  | some filename =>
    match filename.suffix with
    | some "sml" => some (filename.replaceSuffix "smi")
    | _ => none

def EvalResult.node? : EvalResult T I → Except LoadError FileDependencyNode
  | .sml result => .ok result.node
  | .smi result => .ok result.node
  | .cycle => .error ⟨none, .bug "listNodes: CYCLE"⟩

def listNodes (loaded : Assoc Filename (EvalResult T I)) :
    Except LoadError (List FileDependencyNode) :=
  loaded.listItems.mapM EvalResult.node?

structure LoadOptions where
  baseFilename : Option Filename
  loadPath : List Source
  loadMode : FileLoadMode
  defaultInterface : Filename → Filename

/-- The interface file that belongs to a source file, if any. -/
def interfaceFileLoc (fs : FileSystem T I) (options : LoadOptions) :
    InterfaceDecl → Except LoadError (Option (FileOrPath × Loc))
  | .nointerface =>
    match defaultInterfaceFilename options.baseFilename with
    | none => .ok none
    | some smifile =>
      let smifile := options.defaultInterface smifile
      if fs.testExist smifile then
        .ok (some (.file (.userpath, smifile), none))
      else .ok none
  | .interface path loc =>
    match options.baseFilename with
    | none => .error ⟨loc, .unexpectedInterfaceDecl path⟩
    | some smlfile =>
      match RequirePath.toFilename path with
      | .ok filename =>
        .ok (some (.file (.userpath,
          Filename.concatPath (Filename.dirname smlfile) filename), loc))
      | .error _ => .error ⟨loc, .bug "Path"⟩

/-- The `_use`s that a source file may make. -/
def allowUse (baseFilename : Option Filename)
    (smiNode : Option FileDependencyNode) : AllowUse :=
  match baseFilename, smiNode with
  | none, _ => .allowAll
  | some _, none => .allowOnly []
  | some _, some node =>
    .allowOnly (node.edges.filterMap fun edge =>
      match edge with
      | .edge .localUse node _ => some node.filename
      | _ => none)

/-- The loader for the references of the root file. -/
def rootLoader (options : LoadOptions) : Loader where
  baseDir :=
    match options.baseFilename with
    | none => .pwd .userpath
    | some file => .dir (.userpath, Filename.dirname file)
  loadPath := options.loadPath

/-- The real path of the root file, which must not be referred to. -/
def baseFilenameReal (fs : FileSystem T I) (options : LoadOptions) :
    Except LoadError (Option Filename) :=
  match options.baseFilename with
  | none => .ok none
  | some file => do return some (← realPath fs file)

def initialState (base : Option Filename) (nextId : Nat) : LoadState T I :=
  match base with
  | none => ⟨.empty, nextId⟩
  | some file => ⟨.singleton file .cycle, nextId⟩

/-- Take the mark of the root file away. -/
def removeBase (base : Option Filename) (state : LoadState T I) :
    Except LoadError (LoadState T I) :=
  match base with
  | none => .ok state
  | some file => do
      return { state with loaded := ← liftBug (state.loaded.remove file) }

structure LoadResult (T I : Type) where
  dependency : FileDependency
  prelude : ToplevelPrelude
  compileUnit : CompileUnit T I

/-- `nextId` is the next number `InterfaceID.generate` hands out. -/
def load (fs : FileSystem T I) (fuel nextId : Nat) (options : LoadOptions)
    (unit : SmlUnit T) : Except LoadError (LoadResult T I) := do
  let interfaceFileLoc ← interfaceFileLoc fs options unit.interface
  let base ← baseFilenameReal fs options
  let (state, provided) ←
    loadProvideInterface fs fuel (initialState base nextId)
      (rootLoader options) options.loadMode interfaceFileLoc
  let state ← removeBase base state
  let loader := ⟨provided.baseDir, options.loadPath⟩
  let (state, tops) ←
    evalTopList (loadUse fs fuel) state loader
      (allowUse options.baseFilename provided.node) unit.tops
  let allNodes ← listNodes state.loaded
  let smiEdge := provided.node.map fun node => .edge .provide node unit.loc
  return {
    dependency :=
      { allNodes := allNodes
        root :=
          { fileType := .rootSml (options.baseFilename.map fun file =>
              (.userpath, file))
            mode := options.loadMode
            edges := smiEdge.toList ++ tops.edges } }
    prelude := provided.prelude
    compileUnit := ⟨provided.interface, tops.topdecs⟩ }

structure InterfaceFilesResult (T I : Type) where
  dependency : FileDependency
  interfaceDecs : List (InterfaceDec I)
  requiredIds : List IdLoc
  topdecsInclude : List T

def loadInterfaceFiles (fs : FileSystem T I) (fuel nextId : Nat)
    (loadPath : List Source) (loadMode : FileLoadMode) (sources : List Source) :
    Except LoadError (InterfaceFilesResult T I) := do
  let loader : Loader := ⟨.pwd .userpath, loadPath⟩
  let (state, evaluated) ←
    loadRequireList (loadRequire fs fuel) ⟨.empty, nextId⟩ loader loadMode
      (sources.map fun source => (.file source, none))
  let allNodes ← listNodes state.loaded
  let interfaceDecs := state.loaded.collectPartial EvalResult.interfaceDec?
  checkHashDuplication interfaceDecs []
  return {
    dependency :=
      { allNodes := allNodes
        root :=
          { fileType := .rootIncludes
            mode := loadMode
            edges := includeEdges evaluated.nodes evaluated.locs } }
    interfaceDecs := interfaceDecs
    requiredIds := evaluated.requires.collect decLocToIdLoc
    topdecsInclude := evaluated.topdecs.listItems.flatten }

end LoadFile

end SmlSharp
