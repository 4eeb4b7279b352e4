/-
Circular references: a load reports one only if the references that its mode
follows lead from a file back to itself, and a load that succeeds has met none.
-/
import SmlSharp.LoadFile.Termination
import SmlSharp.LoadFile.Revisit

namespace SmlSharp

namespace LoadFile

open InterfaceName Relation

variable {T I : Type}

/-! ### The references that a mode follows -/

/-- A file as a load comes to it: the place and the real path at which it is
read, and for an interface file the mode. -/
inductive Visit where
  | smi (source : Source) (mode : FileLoadMode)
  | sml (source : Source)

def Visit.source : Visit → Source
  | .smi source _ => source
  | .sml source => source

def Visit.filename (visit : Visit) : Filename := visit.source.2

/-- A name leads to a file. -/
def Found (fs : FileSystem T I) (loader : Loader)
    (filePathLoc : FileOrPath × Loc) (source : Source) : Prop :=
  visitFile fs loader filePathLoc =
    .ok (fileLoader source loader.loadPath, source)

/-- The references of a file that are followed in its mode.  `locate` tells
where a file that was found is read. -/
inductive Refers (fs : FileSystem T I) (loadPath : List Source)
    (locate : Source → Source) : Visit → Visit → Prop
  | includes {source target : Source} {mode : FileLoadMode}
      {includes : List (RequirePath.Path × Loc)} {topdecs : List T}
      {path : RequirePath.Path} {loc : Loc}
      (parse : fs.parseSmi source.2 = .ok (.includes includes topdecs))
      (hmem : (path, loc) ∈ includes)
      (found : Found fs (fileLoader source loadPath) (.path path, loc) target) :
      Refers fs loadPath locate (.smi source mode) (.smi (locate target) mode)
  | require {source target : Source} {mode : FileLoadMode}
      {requires : List Irequire} {provide : List I} {path : RequirePath.Path}
      {options : List (String × Loc)} {loc : Loc}
      (parse : fs.parseSmi source.2 = .ok (.interface requires provide))
      (hmem : .require path options loc ∈ requires)
      (found : Found fs (fileLoader source loadPath) (.path path, loc) target) :
      Refers fs loadPath locate (.smi source mode)
        (.smi (locate target) (nextMode mode))
  | localRequire {source target : Source} {mode : FileLoadMode}
      {requires : List Irequire} {provide : List I} {path : RequirePath.Path}
      {options : List (String × Loc)} {loc : Loc}
      (parse : fs.parseSmi source.2 = .ok (.interface requires provide))
      (hmem : .localRequire path options loc ∈ requires)
      (hfollow : followsLocalRequire mode source.1 = true)
      (found : Found fs (fileLoader source loadPath) (.path path, loc) target) :
      Refers fs loadPath locate (.smi source mode)
        (.smi (locate target) (nextMode mode))
  | localUse {source target : Source} {mode : FileLoadMode}
      {requires : List Irequire} {provide : List I} {path : RequirePath.Path}
      {loc : Loc}
      (parse : fs.parseSmi source.2 = .ok (.interface requires provide))
      (hmem : .localUse path loc ∈ requires)
      (hfollow : followsLocalUse mode source.1 = true)
      (found : Found fs (fileLoader source []) (.path path, loc) target) :
      Refers fs loadPath locate (.smi source mode) (.sml (locate target))
  | use {source target : Source} {tops : List (Top T)} {unitLoc : Loc}
      {path : RequirePath.Path} {loc : Loc}
      (parse : fs.parseSml source.2 = .ok (.unit ⟨.nointerface, tops, unitLoc⟩))
      (hmem : .use path loc ∈ tops)
      (found : Found fs (fileLoader source []) (.path path, loc) target) :
      Refers fs loadPath locate (.sml source) (.sml (locate target))

/-- The directory that the `_use`s of the root file are relative to. -/
inductive RootBaseDir (fs : FileSystem T I) (options : LoadOptions)
    (unit : SmlUnit T) : BaseDir → Prop
  | none (hfile : interfaceFileLoc fs options unit.interface = .ok none) :
      RootBaseDir fs options unit (rootLoader options).baseDir
  | provide {filePathLoc : FileOrPath × Loc} {source : Source}
      (hfile : interfaceFileLoc fs options unit.interface =
        .ok (some filePathLoc))
      (found : Found fs (rootLoader options) filePathLoc source) :
      RootBaseDir fs options unit
        (.dir (source.1, Filename.dirname source.2))

/-- The references of the root file: its interface file, and its `_use`s. -/
inductive RootRefers (fs : FileSystem T I) (options : LoadOptions)
    (unit : SmlUnit T) (locate : Source → Source) : Visit → Prop
  | provide {filePathLoc : FileOrPath × Loc} {target : Source}
      (hfile : interfaceFileLoc fs options unit.interface =
        .ok (some filePathLoc))
      (found : Found fs (rootLoader options) filePathLoc target) :
      RootRefers fs options unit locate
        (.smi (locate target) options.loadMode)
  | use {baseDir : BaseDir} {path : RequirePath.Path} {loc : Loc}
      {target : Source} (hdir : RootBaseDir fs options unit baseDir)
      (hmem : .use path loc ∈ unit.tops)
      (found : Found fs ⟨baseDir, []⟩ (.path path, loc) target) :
      RootRefers fs options unit locate (.sml (locate target))

def Reachable (fs : FileSystem T I) (options : LoadOptions) (unit : SmlUnit T)
    (locate : Source → Source) (visit : Visit) : Prop :=
  ∃ start, RootRefers fs options unit locate start ∧
    ReflTransGen (Refers fs options.loadPath locate) start visit

/-- The references lead from the root file, or from a file that they lead to,
back to the same file. -/
def HasCycle (fs : FileSystem T I) (options : LoadOptions) (unit : SmlUnit T)
    (locate : Source → Source) : Prop :=
  ∃ visit, Reachable fs options unit locate visit ∧
    (baseFilenameReal fs options = .ok (some visit.filename) ∨
      ∃ target, TransGen (Refers fs options.loadPath locate) visit target ∧
        target.filename = visit.filename)

/-! ### A rule for the loops over references -/

variable {loader : Loader} {tops : List (Top T)} {state : LoadState T I} {mode : FileLoadMode}
  {error : LoadError} {fs : FileSystem T I} {fuel : Nat} {path : RequirePath.Path} {loc : Loc}
  {filePathLoc : FileOrPath × Loc} {target : Visit} {base : Option Filename}
  {done : Entries T I} {locate : Source → Source} {nextId : Nat}
  {interfaceFile : Option (FileOrPath × Loc)} {provided : ProvideResult T I}
  {state₁ : LoadState T I} {result : LoadResult T I} {P : FileLoadMode → Prop}

section Outcome

variable {σ α : Type} {J : σ → Prop} {E : LoadError → Prop}

/-- What holds after a computation, and of the error it stops with. -/
def Outcome (J : σ → Prop) (E : LoadError → Prop)
    (x : Except LoadError (σ × α)) : Prop :=
  (∀ state result, x = .ok (state, result) → J state) ∧
    ∀ error, x = .error error → E error

theorem evalTopList_outcome {use : UseFn σ T} (allow : AllowUse) {state : σ}
    (hordinary : ∀ error, error.kind.Ordinary → E error)
    (huse : ∀ path loc, .use path loc ∈ tops → ∀ state, J state →
      Outcome J E (use state loader (path, loc))) (hstate : J state) :
    Outcome J E (evalTopList use state loader allow tops) := by
  induction tops generalizing state with
  | nil =>
    refine ⟨?_, ?_⟩
    · intro state' result hok
      cases hok
      exact hstate
    · intro error herror
      cases herror
  | cons top tops ih =>
    have htail : ∀ state, J state →
        Outcome J E (evalTopList use state loader allow tops) :=
      fun state hstate => ih
        (fun path loc hmem => huse path loc (List.mem_cons_of_mem _ hmem)) hstate
    have htop : Outcome J E (evalTop use state loader allow top) := by
      cases top with
      | topdec topdecs =>
        refine ⟨?_, ?_⟩
        · intro state' result hok
          cases hok
          exact hstate
        · intro error herror
          cases herror
      | use path loc =>
        obtain ⟨hok, herror⟩ := huse path loc List.mem_cons_self state hstate
        refine ⟨?_, ?_⟩
        · intro state' result heval
          simp only [evalTop, except_bind_ok, except_pure_ok] at heval
          obtain ⟨⟨state₁, used⟩, hload, _, -, hresult⟩ := heval
          cases hresult
          exact hok _ _ hload
        · intro error heval
          simp only [evalTop, except_bind_error] at heval
          rcases heval with hload | ⟨_, -, hallow | ⟨_, -, hpure⟩⟩
          · exact herror _ hload
          · exact hordinary _ (checkAllowed_error hallow)
          · cases hpure
    refine ⟨?_, ?_⟩
    · intro state' result heval
      simp only [evalTopList, except_bind_ok, except_pure_ok] at heval
      obtain ⟨⟨state₁, first⟩, hfirst, ⟨state₂, rest⟩, hrest, hresult⟩ := heval
      cases hresult
      exact (htail state₁ (htop.1 _ _ hfirst)).1 _ _ hrest
    · intro error heval
      simp only [evalTopList, except_bind_error] at heval
      rcases heval with hfirst | ⟨⟨state₁, first⟩, hfirst, hrest⟩
      · exact htop.2 _ hfirst
      · rcases hrest with hrest | ⟨_, -, hpure⟩
        · exact (htail state₁ (htop.1 _ _ hfirst)).2 _ hrest
        · cases hpure

theorem evalIrequire_outcome {require : RequireFn σ T I} {use : UseFn σ T} {irequire : Irequire}
    {state : σ}
    (hordinary : ∀ error, error.kind.Ordinary → E error)
    (hrequire : ∀ path options loc, (irequire = .require path options loc ∨
        irequire = .localRequire path options loc ∧
          followsLocalRequire mode (baseDirPlace loader) = true) →
      Outcome J E (require state loader (nextMode mode) (.path path, loc)))
    (huse : ∀ path loc, irequire = .localUse path loc →
      followsLocalUse mode (baseDirPlace loader) = true →
      Outcome J E (use state loader (path, loc))) (hstate : J state) :
    Outcome J E (evalIrequire require use state loader mode irequire) := by
  have hskip : Outcome J E
      (.ok (state, none) : Except LoadError (σ × Option (RequiresResult T I))) := by
    refine ⟨?_, ?_⟩
    · intro state' result hok
      cases hok
      exact hstate
    · intro error herror
      cases herror
  cases irequire with
  | require path options loc =>
    obtain ⟨hok, herror⟩ := hrequire path options loc (Or.inl rfl)
    refine ⟨?_, ?_⟩
    · intro state' result heval
      simp only [evalIrequire, except_bind_ok, except_pure_ok] at heval
      obtain ⟨⟨state₁, loaded⟩, hload, _, -, hresult⟩ := heval
      cases hresult
      exact hok _ _ hload
    · intro error heval
      simp only [evalIrequire, except_bind_error] at heval
      rcases heval with hload | ⟨_, -, hoptions | ⟨_, -, hpure⟩⟩
      · exact herror _ hload
      · exact hordinary _ (evalRequireOptions_error hoptions)
      · cases hpure
  | localRequire path options loc =>
    by_cases hfollow : followsLocalRequire mode (baseDirPlace loader) = true
    · obtain ⟨hok, herror⟩ :=
        hrequire path options loc (Or.inr ⟨rfl, hfollow⟩)
      refine ⟨?_, ?_⟩
      · intro state' result heval
        simp only [evalIrequire, hfollow, ↓reduceIte, except_bind_ok,
          except_pure_ok] at heval
        obtain ⟨⟨state₁, loaded⟩, hload, _, -, hresult⟩ := heval
        cases hresult
        exact hok _ _ hload
      · intro error heval
        simp only [evalIrequire, hfollow, ↓reduceIte, except_bind_error]
          at heval
        rcases heval with hload | ⟨_, -, hoptions | ⟨_, -, hpure⟩⟩
        · exact herror _ hload
        · exact hordinary _ (evalRequireOptions_error hoptions)
        · cases hpure
    · simp only [evalIrequire, hfollow]
      exact hskip
  | localUse path loc =>
    by_cases hfollow : followsLocalUse mode (baseDirPlace loader) = true
    · obtain ⟨hok, herror⟩ := huse path loc rfl hfollow
      refine ⟨?_, ?_⟩
      · intro state' result heval
        simp only [evalIrequire, hfollow, ↓reduceIte, except_bind_ok,
          except_pure_ok] at heval
        obtain ⟨⟨state₁, used⟩, hload, hresult⟩ := heval
        cases hresult
        exact hok _ _ hload
      · intro error heval
        simp only [evalIrequire, hfollow, ↓reduceIte, except_bind_error]
          at heval
        rcases heval with hload | ⟨_, -, hpure⟩
        · exact herror _ hload
        · cases hpure
    · simp only [evalIrequire, hfollow]
      exact hskip

theorem evalIrequireList_outcome {require : RequireFn σ T I} {use : UseFn σ T}
    {irequires : List Irequire}
    {state : σ} (hone : ∀ irequire ∈ irequires, ∀ state, J state →
      Outcome J E (evalIrequire require use state loader mode irequire))
    (hstate : J state) :
    Outcome J E (evalIrequireList require use state loader mode irequires) := by
  induction irequires generalizing state with
  | nil =>
    refine ⟨?_, ?_⟩
    · intro state' result hok
      cases hok
      exact hstate
    · intro error herror
      cases herror
  | cons irequire irequires ih =>
    have hfirst := hone irequire List.mem_cons_self state hstate
    have htail : ∀ state, J state →
        Outcome J E (evalIrequireList require use state loader mode irequires) :=
      fun state hstate => ih
        (fun irequire hmem => hone irequire (List.mem_cons_of_mem _ hmem)) hstate
    refine ⟨?_, ?_⟩
    · intro state' result heval
      simp only [evalIrequireList, except_bind_ok] at heval
      obtain ⟨⟨state₁, first⟩, hload, ⟨state₂, rest⟩, hrest, hresult⟩ := heval
      have hstate₂ := (htail state₁ (hfirst.1 _ _ hload)).1 _ _ hrest
      cases first with
      | none =>
        cases hresult
        exact hstate₂
      | some first =>
        cases hresult
        exact hstate₂
    · intro error heval
      simp only [evalIrequireList, except_bind_error] at heval
      rcases heval with hload | ⟨⟨state₁, first⟩, hload, hrest⟩
      · exact hfirst.2 _ hload
      · rcases hrest with hrest | ⟨_, -, hpure⟩
        · exact (htail state₁ (hfirst.1 _ _ hload)).2 _ hrest
        · cases first <;> cases hpure

theorem loadRequireList_outcome {require : RequireFn σ T I} {pathLocs : List (FileOrPath × Loc)}
    {state : σ}
    (hone : ∀ pathLoc ∈ pathLocs, ∀ state, J state →
      Outcome J E (require state loader mode pathLoc)) (hstate : J state) :
    Outcome J E (loadRequireList require state loader mode pathLocs) := by
  induction pathLocs generalizing state with
  | nil =>
    refine ⟨?_, ?_⟩
    · intro state' result hok
      cases hok
      exact hstate
    · intro error herror
      cases herror
  | cons pathLoc pathLocs ih =>
    have hfirst := hone pathLoc List.mem_cons_self state hstate
    have htail : ∀ state, J state →
        Outcome J E (loadRequireList require state loader mode pathLocs) :=
      fun state hstate => ih
        (fun pathLoc hmem => hone pathLoc (List.mem_cons_of_mem _ hmem)) hstate
    refine ⟨?_, ?_⟩
    · intro state' result heval
      simp only [loadRequireList, except_bind_ok, except_pure_ok] at heval
      obtain ⟨⟨state₁, first⟩, hload, ⟨state₂, rest⟩, hrest, hresult⟩ := heval
      cases hresult
      exact (htail state₁ (hfirst.1 _ _ hload)).1 _ _ hrest
    · intro error heval
      simp only [loadRequireList, except_bind_error] at heval
      rcases heval with hload | ⟨⟨state₁, first⟩, hload, hrest⟩
      · exact hfirst.2 _ hload
      · rcases hrest with hrest | ⟨_, -, hpure⟩
        · exact (htail state₁ (hfirst.1 _ _ hload)).2 _ hrest
        · cases hpure

end Outcome

/-! ### How a load of one file fails -/

theorem Ordinary.not_circular {filename : Filename}
    (hordinary : error.kind.Ordinary) :
    error.kind ≠ .circularLoad filename := by
  intro hkind
  rw [hkind] at hordinary
  exact hordinary

theorem loadUse_error {filename : Filename}
    (hload : loadUse fs fuel state loader (path, loc) = .error error)
    (hkind : error.kind = .circularLoad filename) :
    ∃ source, Found fs { loader with loadPath := [] } (.path path, loc) source ∧
      (state.InProgress source.2 ∨
        state.loaded.find source.2 = none ∧
          ∃ fuel' abunit, fuel = fuel' + 1 ∧
            fs.parseSml source.2 = .ok abunit ∧
            evalUnit (loadUse fs fuel') (state.start source.2)
              (fileLoader source []) abunit = .error error) := by
  cases fuel with
  | zero =>
    cases hload
    cases hkind
  | succ fuel =>
    simp only [loadUse, except_bind_error] at hload
    rcases hload with hvisited | ⟨visited, hvisited, hload⟩
    · rcases visitAndParseSml_error hvisited with hordinary |
        ⟨loader', source, hvisit, hmark, -⟩
      · exact absurd hkind (Ordinary.not_circular hordinary)
      · have hloader := visitFile_loader hvisit
        subst hloader
        exact ⟨source, hvisit, Or.inl hmark⟩
    · obtain ⟨source, hvisit, hcase⟩ := visitAndParseSml_cases hvisited
      rcases hcase with ⟨found, -, rfl⟩ | ⟨hnew, abunit, hparse, rfl⟩
      · cases hload
      · simp only [except_bind_error] at hload
        rcases hload with heval | ⟨⟨state₁, tops⟩, -, hfinish⟩
        · exact ⟨source, hvisit,
            Or.inr ⟨hnew, fuel, abunit, rfl, hparse, heval⟩⟩
        · rcases hfinish with hfinish | ⟨_, -, hpure⟩
          · exact absurd hkind (Ordinary.not_circular (finish_error hfinish))
          · cases hpure

theorem loadRequire_error {filename : Filename}
    (hload : loadRequire fs fuel state loader mode filePathLoc = .error error)
    (hkind : error.kind = .circularLoad filename) :
    ∃ source, Found fs loader filePathLoc source ∧ (state.InProgress source.2 ∨
        state.loaded.find source.2 = none ∧ ∃ fuel', fuel = fuel' + 1 ∧
          ((∃ includes topdecs,
              fs.parseSmi source.2 = .ok (.includes includes topdecs) ∧
              loadRequireList (loadRequire fs fuel') (state.start source.2)
                (fileLoader source loader.loadPath) mode
                (includes.map fun entry => (.path entry.1, entry.2)) =
                  .error error) ∨ ∃ requires provide,
              fs.parseSmi source.2 = .ok (.interface requires provide) ∧
              evalIrequireList (loadRequire fs fuel') (loadUse fs fuel')
                (state.start source.2) (fileLoader source loader.loadPath) mode
                requires = .error error)) := by
  cases fuel with
  | zero =>
    cases hload
    cases hkind
  | succ fuel =>
    simp only [loadRequire, except_bind_error] at hload
    rcases hload with hvisited | ⟨visited, hvisited, hload⟩
    · rcases visitAndParseSmi_error hvisited with hordinary |
        ⟨loader', source, hvisit, hmark, -⟩
      · exact absurd hkind (Ordinary.not_circular hordinary)
      · have hloader := visitFile_loader hvisit
        subst hloader
        exact ⟨source, hvisit, Or.inl hmark⟩
    · obtain ⟨source, hvisit, hcase⟩ := visitAndParseSmi_cases hvisited
      rcases hcase with ⟨found, -, rfl⟩ | ⟨hnew, parsed, hparse, rfl⟩
      · cases hload
      · refine ⟨source, hvisit, Or.inr ⟨hnew, fuel, rfl, ?_⟩⟩
        cases parsed with
        | includes includes topdecs =>
          simp only [except_bind_error] at hload
          rcases hload with heval | ⟨⟨state₁, evaluated⟩, -, hfinish⟩
          · exact Or.inl ⟨includes, topdecs, hparse, heval⟩
          · rcases hfinish with hfinish | ⟨_, -, hpure⟩
            · exact absurd hkind
                (Ordinary.not_circular (finish_error hfinish))
            · cases hpure
        | interface requires provide =>
          simp only [except_bind_error] at hload
          rcases hload with heval | ⟨⟨state₁, evaluated⟩, -, hfinish⟩
          · exact Or.inr ⟨requires, provide, hparse, heval⟩
          · rcases hfinish with hfinish | ⟨_, -, hpure⟩
            · exact absurd hkind
                (Ordinary.not_circular (finish_error hfinish))
            · cases hpure

/-! ### A reported cycle is a cycle -/

section Traverse

variable {fs : FileSystem T I} {loadPath : List Source} {S : Visit → Prop}

/-- The references lead to a file that is being loaded in `state`, or to a file
and back to it. -/
def CycleFrom (fs : FileSystem T I) (loadPath : List Source)
    (state : LoadState T I) (visit : Visit) : Prop :=
  ∃ reached, ReflTransGen (Refers fs loadPath id) visit reached ∧
    (state.InProgress reached.filename ∨
      ∃ target, TransGen (Refers fs loadPath id) reached target ∧
        target.filename = reached.filename)

/-- A cycle from a reference of a file that is being loaded. -/
theorem CycleFrom.of_start {visit : Visit}
    (hrefers : Refers fs loadPath id visit target)
    (hcycle : CycleFrom fs loadPath (state.start visit.filename) target) :
    CycleFrom fs loadPath state visit := by
  obtain ⟨reached, hreach, hmark | hback⟩ := hcycle
  · rcases (state.start_inProgress _ _).mp hmark with hsame | hmark
    · exact ⟨visit, .refl, Or.inr ⟨reached, .head' hrefers hreach, hsame⟩⟩
    · exact ⟨reached, .head hrefers hreach, Or.inl hmark⟩
  · exact ⟨reached, .head hrefers hreach, Or.inr hback⟩

/-- Every completed file was come to in a way that `S` allows. -/
def EntriesFrom (S : Visit → Prop) (done : Entries T I) : Prop :=
  (∀ filename result, (filename, .sml result) ∈ done →
    S (.sml result.node.source)) ∧
  ∀ filename result, (filename, .smi result) ∈ done →
    ∃ mode, S (.smi result.node.source mode)

/-- A state of a load in which the files being loaded are those of `base`. -/
structure Visiting (fs : FileSystem T I) (loadPath : List Source)
    (S : Visit → Prop) (base state : LoadState T I) : Prop where
  inv : Invariant fs loadPath (fun _ => True) state
  inProgress : ∀ filename,
    state.InProgress filename ↔ base.InProgress filename
  entries : EntriesFrom S state.done

theorem Visiting.start {base state : LoadState T I}
    (hvisiting : Visiting fs loadPath S base state) {filename : Filename}
    (hnew : state.loaded.find filename = none) :
    Visiting fs loadPath S (state.start filename) (state.start filename) :=
  ⟨hvisiting.inv.start hnew, fun _ => Iff.rfl, by
    rw [state.start_done hnew]
    exact hvisiting.entries⟩

/-- A cycle is reported of a reference only if there is one. -/
def CircularFrom (fs : FileSystem T I) (loadPath : List Source)
    (base : LoadState T I) (visit : Visit) (error : LoadError) : Prop :=
  ∀ filename, error.kind = .circularLoad filename →
    CycleFrom fs loadPath base visit

def UseTraverse (fs : FileSystem T I) (loadPath : List Source)
    (S : Visit → Prop) (use : UseFn (LoadState T I) T) : Prop :=
  ∀ base state loader path loc, Visiting fs loadPath S base state →
    (∀ source, Found fs { loader with loadPath := [] } (.path path, loc) source →
      S (.sml source)) →
    Outcome (Visiting fs loadPath S base)
      (fun error => ∀ filename, error.kind = .circularLoad filename →
        ∃ source,
          Found fs { loader with loadPath := [] } (.path path, loc) source ∧
          CycleFrom fs loadPath base (.sml source))
      (use state loader (path, loc))

def RequireTraverse (fs : FileSystem T I) (loadPath : List Source)
    (S : Visit → Prop) (require : RequireFn (LoadState T I) T I) : Prop :=
  ∀ base state loader mode filePathLoc,
    Visiting fs loadPath S base state → loader.loadPath = loadPath →
    (∀ source, Found fs loader filePathLoc source → S (.smi source mode)) →
    Outcome (Visiting fs loadPath S base)
      (fun error => ∀ filename, error.kind = .circularLoad filename →
        ∃ source, Found fs loader filePathLoc source ∧
          CycleFrom fs loadPath base (.smi source mode))
      (require state loader mode filePathLoc)

theorem Outcome.imp {σ α : Type} {J J' : σ → Prop} {E E' : LoadError → Prop}
    {x : Except LoadError (σ × α)} (houtcome : Outcome J E x)
    (hstate : ∀ state, J state → J' state) (herror : ∀ error, E error → E' error) :
    Outcome J' E' x :=
  ⟨fun state result hok => hstate state (houtcome.1 state result hok),
    fun error hfail => herror error (houtcome.2 error hfail)⟩

/-- The references of a source file. -/
theorem evalUnit_traverse (hS : ∀ v w, S v → Refers fs loadPath id v w → S w)
    {use : UseFn (LoadState T I) T} (huse : UseTraverse fs loadPath S use)
    {base : LoadState T I} {source : Source} {abunit : UnitParseResult T}
    (hparse : fs.parseSml source.2 = .ok abunit) (hvisit : S (.sml source))
    (hvisiting : Visiting fs loadPath S (base.start source.2) state) :
    Outcome (Visiting fs loadPath S (base.start source.2))
      (CircularFrom fs loadPath base (.sml source))
      (evalUnit use state (fileLoader source []) abunit) := by
  match abunit with
  | .eof =>
    refine ⟨?_, ?_⟩
    · intro state' result hok
      cases hok
      exact hvisiting
    · intro error herror
      cases herror
  | .unit ⟨.interface path loc, _, _⟩ =>
    refine ⟨?_, ?_⟩
    · intro state' result hok
      cases hok
    · intro error herror
      cases herror
      intro filename hkind
      cases hkind
  | .unit ⟨.nointerface, tops, _⟩ =>
    apply evalTopList_outcome .allowAll ?_ ?_ hvisiting
    · intro error hordinary filename hkind
      exact absurd hkind (Ordinary.not_circular hordinary)
    · intro path loc hmem state hstate
      apply (huse _ state (fileLoader source []) path loc hstate ?_).imp
        fun _ h => h
      · intro error hcircular filename hkind
        obtain ⟨target, hfound, hcycle⟩ := hcircular filename hkind
        exact hcycle.of_start (.use hparse hmem hfound)
      · intro target hfound
        exact hS _ _ hvisit (.use hparse hmem hfound)

theorem loadUse_traverse (hS : ∀ v w, S v → Refers fs loadPath id v w → S w)
    (fuel : Nat) : UseTraverse fs loadPath S (loadUse fs fuel) := by
  induction fuel with
  | zero =>
    intro base state loader path loc hvisiting hvisit
    refine ⟨?_, ?_⟩
    · intro state' result hok
      cases hok
    · intro error herror filename hkind
      cases herror
      cases hkind
  | succ fuel ih =>
    intro base state loader path loc hvisiting hvisit
    refine ⟨?_, ?_⟩
    · intro state' result hload
      obtain ⟨hstep, -, -⟩ := loadUse_ok fs loadPath (fun _ => True) (fuel + 1)
        state loader (path, loc) state' result hload hvisiting.inv
      refine ⟨hstep.inv, fun filename =>
        (hstep.extends_.inProgress filename).trans
          (hvisiting.inProgress filename), ?_⟩
      obtain ⟨fuel', source, hfuel, hfound, hcase⟩ := loadUse_cases hload
      cases hfuel
      rcases hcase with ⟨found, -, rfl, -⟩ |
        ⟨hnew, abunit, state₁, tops, hparse, heval, rfl, hfinish⟩
      · exact hvisiting.entries
      · have hsource : S (.sml source) := hvisit source hfound
        obtain ⟨hok, -⟩ := evalUnit_traverse hS ih hparse hsource
          (hvisiting.start hnew)
        have hvisiting₁ := hok _ _ heval
        have hmark : state₁.InProgress source.2 :=
          (hvisiting₁.inProgress _).mpr
            ((state.start_inProgress _ _).mpr (Or.inl rfl))
        obtain ⟨hdone, -, -⟩ := LoadState.finish_spec hmark rfl hfinish
        rw [hdone]
        refine ⟨?_, ?_⟩
        · intro filename result hmem
          rcases List.mem_append.mp hmem with hmem | hmem
          · exact hvisiting₁.entries.1 filename result hmem
          · simp only [List.mem_singleton, Prod.mk.injEq,
              EvalResult.sml.injEq] at hmem
            rw [hmem.2]
            exact hsource
        · intro filename result hmem
          rcases List.mem_append.mp hmem with hmem | hmem
          · exact hvisiting₁.entries.2 filename result hmem
          · simp at hmem
    · intro error hload filename hkind
      obtain ⟨source, hfound, hmark | ⟨hnew, fuel', abunit, hfuel, hparse,
        heval⟩⟩ := loadUse_error hload hkind
      · exact ⟨source, hfound, .sml source, .refl,
          Or.inl ((hvisiting.inProgress _).mp hmark)⟩
      · cases hfuel
        obtain ⟨-, herror⟩ := evalUnit_traverse hS ih hparse
          (hvisit source hfound) (hvisiting.start hnew)
        obtain ⟨reached, hreach, hmark | hback⟩ :=
          herror error heval filename hkind
        · exact ⟨source, hfound, reached, hreach,
            Or.inl ((hvisiting.inProgress _).mp hmark)⟩
        · exact ⟨source, hfound, reached, hreach, Or.inr hback⟩

/-- The files of an include file. -/
theorem includes_traverse (hS : ∀ v w, S v → Refers fs loadPath id v w → S w)
    {require : RequireFn (LoadState T I) T I}
    (hreq : RequireTraverse fs loadPath S require)
    {base : LoadState T I} {source : Source}
    {includes : List (RequirePath.Path × Loc)} {topdecs : List T}
    (hparse : fs.parseSmi source.2 = .ok (.includes includes topdecs))
    (hvisit : S (.smi source mode))
    (hvisiting : Visiting fs loadPath S (base.start source.2) state) :
    Outcome (Visiting fs loadPath S (base.start source.2))
      (CircularFrom fs loadPath base (.smi source mode))
      (loadRequireList require state (fileLoader source loadPath) mode
        (includes.map fun entry => (.path entry.1, entry.2))) := by
  apply loadRequireList_outcome ?_ hvisiting
  intro pathLoc hmem state hstate
  obtain ⟨⟨path, loc⟩, hinclude, rfl⟩ := List.mem_map.mp hmem
  apply (hreq _ state (fileLoader source loadPath) mode (.path path, loc) hstate
    rfl ?_).imp fun _ h => h
  · intro error hcircular filename hkind
    obtain ⟨target, hfound, hcycle⟩ := hcircular filename hkind
    exact hcycle.of_start (.includes hparse hinclude hfound)
  · intro target hfound
    exact hS _ _ hvisit (.includes hparse hinclude hfound)

/-- The references of an interface file. -/
theorem requires_traverse (hS : ∀ v w, S v → Refers fs loadPath id v w → S w)
    {require : RequireFn (LoadState T I) T I} {use : UseFn (LoadState T I) T}
    (hreq : RequireTraverse fs loadPath S require)
    (huse : UseTraverse fs loadPath S use)
    {base : LoadState T I} {source : Source}
    {requires : List Irequire} {provide : List I}
    (hparse : fs.parseSmi source.2 = .ok (.interface requires provide))
    (hvisit : S (.smi source mode))
    (hvisiting : Visiting fs loadPath S (base.start source.2) state) :
    Outcome (Visiting fs loadPath S (base.start source.2))
      (CircularFrom fs loadPath base (.smi source mode))
      (evalIrequireList require use state (fileLoader source loadPath) mode
        requires) := by
  apply evalIrequireList_outcome ?_ hvisiting
  intro irequire hmem state hstate
  apply evalIrequire_outcome ?_ ?_ ?_ hstate
  · intro error hordinary filename hkind
    exact absurd hkind (Ordinary.not_circular hordinary)
  · intro path options loc hcase
    have hrefers : ∀ target,
        Found fs (fileLoader source loadPath) (.path path, loc) target →
        Refers fs loadPath id (.smi source mode) (.smi target (nextMode mode)) := by
      intro target hfound
      rcases hcase with rfl | ⟨rfl, hfollow⟩
      · exact .require hparse hmem hfound
      · exact .localRequire hparse hmem hfollow hfound
    apply (hreq _ state (fileLoader source loadPath) (nextMode mode)
      (.path path, loc) hstate rfl ?_).imp fun _ h => h
    · intro error hcircular filename hkind
      obtain ⟨target, hfound, hcycle⟩ := hcircular filename hkind
      exact hcycle.of_start (hrefers target hfound)
    · intro target hfound
      exact hS _ _ hvisit (hrefers target hfound)
  · intro path loc hcase hfollow
    subst hcase
    apply (huse _ state (fileLoader source loadPath) path loc hstate ?_).imp
      fun _ h => h
    · intro error hcircular filename hkind
      obtain ⟨target, hfound, hcycle⟩ := hcircular filename hkind
      exact hcycle.of_start (.localUse hparse hmem hfollow hfound)
    · intro target hfound
      exact hS _ _ hvisit (.localUse hparse hmem hfollow hfound)

theorem EntriesFrom.snoc_smi (hentries : EntriesFrom S done)
    {filename : Filename} {result : SmiResult T I}
    (hvisit : S (.smi result.node.source mode)) :
    EntriesFrom S (done ++ [(filename, .smi result)]) := by
  refine ⟨?_, ?_⟩
  · intro filename' result' hmem
    rcases List.mem_append.mp hmem with hmem | hmem
    · exact hentries.1 filename' result' hmem
    · simp at hmem
  · intro filename' result' hmem
    rcases List.mem_append.mp hmem with hmem | hmem
    · exact hentries.2 filename' result' hmem
    · simp only [List.mem_singleton, Prod.mk.injEq, EvalResult.smi.injEq] at hmem
      rw [hmem.2]
      exact ⟨mode, hvisit⟩

theorem loadRequire_traverse (hS : ∀ v w, S v → Refers fs loadPath id v w → S w) (fuel : Nat) :
    RequireTraverse fs loadPath S (loadRequire fs fuel) := by
  have hP : ∀ mode : FileLoadMode, True → True := fun _ h => h
  induction fuel with
  | zero =>
    intro base state loader mode filePathLoc hvisiting hpath hvisit
    refine ⟨?_, ?_⟩
    · intro state' result hok
      cases hok
    · intro error herror filename hkind
      cases herror
      cases hkind
  | succ fuel ih =>
    intro base state loader mode filePathLoc hvisiting hpath hvisit
    subst hpath
    refine ⟨?_, ?_⟩
    · intro state' result hload
      obtain ⟨hstep, -⟩ := loadRequire_ok fs loader.loadPath (fun _ => True) hP
        (fuel + 1) state loader mode filePathLoc state' result hload rfl trivial
        hvisiting.inv
      refine ⟨hstep.inv, fun filename =>
        (hstep.extends_.inProgress filename).trans
          (hvisiting.inProgress filename), ?_⟩
      obtain ⟨fuel', source, hfuel, hfound, hcase⟩ := loadRequire_cases hload
      cases hfuel
      have hsource : S (.smi source mode) := hvisit source hfound
      rcases hcase with ⟨found, -, rfl, -⟩ |
        ⟨hnew, includes, topdecs, state₁, evaluated, hparse, heval, rfl,
          hfinish⟩ |
        ⟨hnew, requires, provide, state₁, evaluated, hparse, heval, rfl,
          hfinish⟩
      · exact hvisiting.entries
      · obtain ⟨hok, -⟩ := includes_traverse hS ih hparse hsource
          (hvisiting.start hnew)
        have hvisiting₁ := hok _ _ heval
        have hmark : state₁.InProgress source.2 :=
          (hvisiting₁.inProgress _).mpr
            ((state.start_inProgress _ _).mpr (Or.inl rfl))
        obtain ⟨hdone, -, -⟩ := LoadState.finish_spec hmark rfl hfinish
        rw [hdone]
        exact hvisiting₁.entries.snoc_smi hsource
      · obtain ⟨hok, -⟩ := requires_traverse hS ih (loadUse_traverse hS fuel)
          hparse hsource (hvisiting.start hnew)
        have hvisiting₁ := hok _ _ heval
        have hmark : LoadState.InProgress
            { state₁ with nextId := state₁.nextId + 1 } source.2 :=
          (hvisiting₁.inProgress _).mpr
            ((state.start_inProgress _ _).mpr (Or.inl rfl))
        obtain ⟨hdone, -, -⟩ := LoadState.finish_spec hmark rfl hfinish
        rw [hdone]
        exact hvisiting₁.entries.snoc_smi hsource
    · intro error hload filename hkind
      obtain ⟨source, hfound, hmark | ⟨hnew, fuel', hfuel, hcase⟩⟩ :=
        loadRequire_error hload hkind
      · exact ⟨source, hfound, .smi source mode, .refl,
          Or.inl ((hvisiting.inProgress _).mp hmark)⟩
      · cases hfuel
        have hsource : S (.smi source mode) := hvisit source hfound
        have hcycle : CycleFrom fs loader.loadPath state (.smi source mode) := by
          rcases hcase with ⟨includes, topdecs, hparse, heval⟩ |
            ⟨requires, provide, hparse, heval⟩
          · obtain ⟨-, herror⟩ := includes_traverse hS ih hparse hsource
              (hvisiting.start hnew)
            exact herror error heval filename hkind
          · obtain ⟨-, herror⟩ := requires_traverse hS ih
              (loadUse_traverse hS fuel) hparse hsource (hvisiting.start hnew)
            exact herror error heval filename hkind
        obtain ⟨reached, hreach, hmark | hback⟩ := hcycle
        · exact ⟨source, hfound, reached, hreach,
            Or.inl ((hvisiting.inProgress _).mp hmark)⟩
        · exact ⟨source, hfound, reached, hreach, Or.inr hback⟩

end Traverse

/-! ### Whole loads -/

section Load

variable {fs : FileSystem T I} {options : LoadOptions} {unit : SmlUnit T}

theorem Reachable.refers {visit : Visit}
    (hreach : Reachable fs options unit locate visit)
    (hrefers : Refers fs options.loadPath locate visit target) :
    Reachable fs options unit locate target := by
  obtain ⟨start, hroot, hpath⟩ := hreach
  exact ⟨start, hroot, hpath.tail hrefers⟩

/-- A cycle that is met from a reference of the root file. -/
theorem CycleFrom.hasCycle {visit : Visit}
    (hcycle : CycleFrom fs options.loadPath state visit)
    (hroot : RootRefers fs options unit id visit)
    (hmark : ∀ filename, state.InProgress filename →
      baseFilenameReal fs options = .ok (some filename)) :
    HasCycle fs options unit id := by
  obtain ⟨reached, hreach, hprogress | hback⟩ := hcycle
  · exact ⟨reached, ⟨visit, hroot, hreach⟩, Or.inl (hmark _ hprogress)⟩
  · exact ⟨reached, ⟨visit, hroot, hreach⟩, Or.inr hback⟩

/-- A computation that reports a circular reference only if there is one. -/
def ReportsCycle (fs : FileSystem T I) (options : LoadOptions)
    (unit : SmlUnit T) (error : LoadError) : Prop :=
  ∀ filename, error.kind = .circularLoad filename →
    HasCycle fs options unit id

theorem ReportsCycle.of_ordinary
    (hordinary : error.kind.Ordinary) : ReportsCycle fs options unit error := by
  intro filename hkind
  exact absurd hkind (Ordinary.not_circular hordinary)

theorem initialState_visiting {S : Visit → Prop} (base : Option Filename)
    (nextId : Nat) : Visiting fs options.loadPath S (initialState base nextId)
      (initialState base nextId) := by
  have hdone := initialState_done (T := T) (I := I) base nextId
  refine ⟨invariant_of_done_nil hdone, fun _ => Iff.rfl, ?_, ?_⟩
  · intro filename result hmem
    rw [hdone] at hmem
    cases hmem
  · intro filename result hmem
    rw [hdone] at hmem
    cases hmem

theorem loadProvideInterface_traverse
    (hfile : interfaceFileLoc fs options unit.interface = .ok interfaceFile)
    (hbase : baseFilenameReal fs options = .ok base) : Outcome
      (Visiting fs options.loadPath (Reachable fs options unit id)
        (initialState base nextId)) (ReportsCycle fs options unit)
      (loadProvideInterface fs fuel (initialState base nextId)
        (rootLoader options) options.loadMode interfaceFile) := by
  have hvisiting : Visiting fs options.loadPath (Reachable fs options unit id)
      (initialState base nextId) (initialState base nextId) :=
    initialState_visiting base nextId
  cases interfaceFile with
  | none =>
    refine ⟨?_, ?_⟩
    · intro state' provided hok
      cases hok
      exact hvisiting
    · intro error herror
      cases herror
  | some filePathLoc =>
    have hroot : ∀ source, Found fs (rootLoader options) filePathLoc source →
        RootRefers fs options unit id (.smi source options.loadMode) :=
      fun source hfound => .provide hfile hfound
    obtain ⟨hok, herror⟩ := loadRequire_traverse
      (fun _ _ hreach hrefers => Reachable.refers hreach hrefers) fuel _ _
      (rootLoader options) options.loadMode filePathLoc hvisiting rfl
      fun source hfound => ⟨_, hroot source hfound, .refl⟩
    refine ⟨?_, ?_⟩
    · intro state' provided hload
      obtain ⟨result, _, _, _, hrequire, -⟩ := loadProvideInterface_some hload
      exact hok _ _ hrequire
    · intro error hload
      simp only [loadProvideInterface, except_bind_error] at hload
      rcases hload with hrequire | ⟨⟨state₁, result⟩, -, hload⟩
      · intro filename hkind
        obtain ⟨source, hfound, hcycle⟩ := herror _ hrequire filename hkind
        apply hcycle.hasCycle (hroot source hfound)
        intro filename hmark
        rw [hbase, (initialState_inProgress base nextId filename).mp hmark]
      · apply ReportsCycle.of_ordinary
        split at hload
        · cases hload
          exact trivial
        · simp only [except_bind_error] at hload
          rcases hload with hbug | ⟨_, -, hcheck | ⟨_, -, hpure⟩⟩
          · exact liftBug_error hbug
          · exact checkHashDuplication_error hcheck
          · cases hpure

theorem rootBaseDir (hfile : interfaceFileLoc fs options unit.interface = .ok interfaceFile)
    (hprovide : loadProvideInterface fs fuel (initialState base nextId)
      (rootLoader options) options.loadMode interfaceFile =
        .ok (state, provided)) :
    RootBaseDir fs options unit provided.baseDir := by
  cases interfaceFile with
  | none =>
    cases hprovide
    exact .none hfile
  | some filePathLoc =>
    obtain ⟨_, source, _, _, _, _, hfound, -, -, -, -, -, -, -, -, hdir, -⟩ :=
      loadProvideInterface_spec (P := fun _ => True) (fun _ h => h) hprovide
        trivial (initialState_done base nextId)
    rw [hdir]
    exact .provide hfile hfound

theorem rootBaseDir_unique {baseDir baseDir' : BaseDir}
    (hdir : RootBaseDir fs options unit baseDir)
    (hdir' : RootBaseDir fs options unit baseDir') : baseDir = baseDir' := by
  cases hdir with
  | none hfile =>
    cases hdir' with
    | none => rfl
    | provide hfile' => cases Except.ok.inj (hfile.symm.trans hfile')
  | provide hfile hfound =>
    cases hdir' with
    | none hfile' => cases Except.ok.inj (hfile.symm.trans hfile')
    | provide hfile' hfound' =>
      have hsame := Option.some.inj (Except.ok.inj (hfile.symm.trans hfile'))
      subst hsame
      have hok := Except.ok.inj (hfound.symm.trans hfound')
      rw [(Prod.mk.inj hok).2]

/-- After the mark of the root file is removed, no file is in progress. -/
theorem removeBase_inProgress {state' : LoadState T I}
    (hprogress : ∀ filename, state.InProgress filename ↔
      (initialState base nextId : LoadState T I).InProgress filename)
    (hremove : removeBase base state = .ok state') :
    ∀ filename, ¬ state'.InProgress filename := by
  have hbase : ∀ file, base = some file → state.InProgress file := by
    intro file hsome
    rw [hprogress, initialState_inProgress]
    exact hsome
  obtain ⟨-, -, hfind⟩ := removeBase_spec hbase hremove
  intro filename hmark
  rw [LoadState.InProgress, hfind] at hmark
  by_cases hsome : base = some filename
  · rw [if_pos hsome] at hmark
    cases hmark
  · rw [if_neg hsome] at hmark
    have hinit := (hprogress filename).mp hmark
    exact hsome ((initialState_inProgress base nextId filename).mp hinit)

theorem rootUses_traverse {state₂ : LoadState T I} (allow : AllowUse)
    (hfile : interfaceFileLoc fs options unit.interface = .ok interfaceFile)
    (hbase : baseFilenameReal fs options = .ok base)
    (hprovide : loadProvideInterface fs fuel (initialState base nextId)
      (rootLoader options) options.loadMode interfaceFile =
        .ok (state₁, provided))
    (hremove : removeBase base state₁ = .ok state₂) : Outcome
      (Visiting fs options.loadPath (Reachable fs options unit id) state₂)
      (ReportsCycle fs options unit) (evalTopList (loadUse fs fuel) state₂
        ⟨provided.baseDir, options.loadPath⟩ allow unit.tops) := by
  have hvisiting₁ :=
    (loadProvideInterface_traverse hfile hbase).1 _ _ hprovide
  have hmark : ∀ file, base = some file → state₁.InProgress file := by
    intro file hsome
    rw [hvisiting₁.inProgress, initialState_inProgress]
    exact hsome
  have hdone := (removeBase_spec hmark hremove).1
  have hvisiting₂ : Visiting fs options.loadPath
      (Reachable fs options unit id) state₂ state₂ :=
    ⟨removeBase_inv hmark hremove hvisiting₁.inv, fun _ => Iff.rfl,
      hdone ▸ hvisiting₁.entries⟩
  have hnone := removeBase_inProgress hvisiting₁.inProgress hremove
  have hdir := rootBaseDir hfile hprovide
  apply evalTopList_outcome allow ?_ ?_ hvisiting₂
  · intro error hordinary
    exact ReportsCycle.of_ordinary hordinary
  · intro path loc hmem state hstate
    have hroot : ∀ source,
        Found fs ⟨provided.baseDir, []⟩ (.path path, loc) source →
        RootRefers fs options unit id (.sml source) :=
      fun source hfound => .use hdir hmem hfound
    apply (loadUse_traverse
      (fun _ _ hreach hrefers => Reachable.refers hreach hrefers) fuel _ state
      ⟨provided.baseDir, options.loadPath⟩ path loc hstate ?_).imp fun _ h => h
    · intro error hcircular filename hkind
      obtain ⟨source, hfound, hcycle⟩ := hcircular filename hkind
      apply hcycle.hasCycle (hroot source hfound)
      intro filename hprogress
      exact absurd hprogress (hnone filename)
    · intro source hfound
      exact ⟨_, hroot source hfound, .refl⟩

/-- A load that reports a circular reference has met a cycle. -/
theorem load_reportsCycle (hload : load fs fuel nextId options unit =
      (.error error : Except LoadError (LoadResult T I))) :
    ReportsCycle fs options unit error := by
  simp only [load, except_bind_error] at hload
  rcases hload with hfile | ⟨interfaceFile, hfile, hload⟩
  · exact ReportsCycle.of_ordinary (interfaceFileLoc_error hfile)
  rcases hload with hbase | ⟨base, hbase, hload⟩
  · exact ReportsCycle.of_ordinary (baseFilenameReal_error hbase)
  rcases hload with hprovide | ⟨⟨state₁, provided⟩, hprovide, hload⟩
  · exact (loadProvideInterface_traverse hfile hbase).2 _ hprovide
  rcases hload with hremove | ⟨state₂, hremove, hload⟩
  · exact ReportsCycle.of_ordinary (removeBase_error hremove)
  rcases hload with htops | ⟨⟨state₃, tops⟩, htops, hload⟩
  · exact (rootUses_traverse _ hfile hbase hprovide hremove).2 _ htops
  rcases hload with hnodes | ⟨_, -, hpure⟩
  · exact ReportsCycle.of_ordinary (listNodes_error hnodes)
  · cases hpure

/-- Every file of a successful load is reached by the references of its mode. -/
theorem load_reachable (hload : load fs fuel nextId options unit = .ok result) :
    ∀ node ∈ result.dependency.allNodes, ∃ visit,
      Reachable fs options unit id visit ∧ visit.source = node.source := by
  obtain ⟨interfaceFile, base, state₁, provided, state₂, state₃, tops, hfile,
    hbase, hprovide, hremove, htops, hnodes, -⟩ := load_stages hload
  have hvisiting :=
    (rootUses_traverse _ hfile hbase hprovide hremove).1 _ _ htops
  rw [(listNodes_ok hnodes).1]
  intro node hnode
  obtain ⟨filename, entry, hmem, hentry⟩ := mem_nodesOf.mp hnode
  cases entry with
  | cycle => cases hentry
  | sml entry =>
    cases hentry
    exact ⟨_, hvisiting.entries.1 filename entry hmem, rfl⟩
  | smi entry =>
    cases hentry
    obtain ⟨mode, hvisit⟩ := hvisiting.entries.2 filename entry hmem
    exact ⟨_, hvisit, rfl⟩

end Load

/-! ### A successful load meets no cycle -/

/-- The place at which a graph has a file. -/
def locateIn (nodes : List FileDependencyNode) (source : Source) : Source :=
  match nodes.find? fun node => node.filename = source.2 with
  | some node => node.source
  | none => source

theorem evalTopList_lookup {allow : AllowUse} {result : TopsResult T}
    (heval : evalTopList (lookupUse fs done) () loader allow tops =
      .ok ((), result)) (hmem : .use path loc ∈ tops) :
    ∃ used, lookupUse fs done () loader (path, loc) = .ok ((), used) := by
  induction tops generalizing result with
  | nil => cases hmem
  | cons top tops ih =>
    simp only [evalTopList, except_bind_ok] at heval
    obtain ⟨⟨⟨⟩, first⟩, hfirst, ⟨⟨⟩, rest⟩, hrest, -⟩ := heval
    rcases List.mem_cons.mp hmem with rfl | hmem
    · simp only [evalTop, except_bind_ok] at hfirst
      obtain ⟨⟨⟨⟩, used⟩, hload, -⟩ := hfirst
      exact ⟨used, hload⟩
    · exact ih hrest hmem

theorem evalIrequireList_lookup {irequires : List Irequire}
    {result : RequiresResult T I}
    (heval : evalIrequireList (lookupRequire fs done) (lookupUse fs done) ()
      loader mode irequires = .ok ((), result))
    {irequire : Irequire} (hmem : irequire ∈ irequires) :
    ∃ first, evalIrequire (lookupRequire fs done) (lookupUse fs done) () loader
      mode irequire = .ok ((), first) := by
  induction irequires generalizing result with
  | nil => cases hmem
  | cons head irequires ih =>
    simp only [evalIrequireList, except_bind_ok] at heval
    obtain ⟨⟨⟨⟩, first⟩, hfirst, ⟨⟨⟩, rest⟩, hrest, -⟩ := heval
    rcases List.mem_cons.mp hmem with rfl | hmem
    · exact ⟨first, hfirst⟩
    · exact ih hrest hmem

theorem loadRequireList_lookup {pathLocs : List (FileOrPath × Loc)} {result : IncludesResult T I}
    (heval : loadRequireList (lookupRequire fs done) () loader mode pathLocs =
      .ok ((), result))
    {pathLoc : FileOrPath × Loc} (hmem : pathLoc ∈ pathLocs) :
    ∃ first, lookupRequire fs done () loader mode pathLoc = .ok ((), first) := by
  induction pathLocs generalizing result with
  | nil => cases hmem
  | cons head pathLocs ih =>
    simp only [loadRequireList, except_bind_ok] at heval
    obtain ⟨⟨⟨⟩, first⟩, hfirst, ⟨⟨⟩, rest⟩, hrest, -⟩ := heval
    rcases List.mem_cons.mp hmem with rfl | hmem
    · exact ⟨first, hfirst⟩
    · exact ih hrest hmem

section Acyclic

variable {fs : FileSystem T I} {loadPath : List Source}
  {locate : Source → Source}

/-- A reference to a completed file, which an interface file makes in mode
`mode`. -/
inductive LeadsTo (locate : Source → Source) (done : Entries T I)
    (mode : FileLoadMode) : Visit → Prop
  | smi {target : Source} {found : SmiResult T I}
      (hfind : findDone done target.2 = some (.smi found)) :
      LeadsTo locate done mode (.smi (locate target) mode)
  | sml {target : Source} {found : SmlResult T}
      (hfind : findDone done target.2 = some (.sml found)) :
      LeadsTo locate done mode (.sml (locate target))

theorem lookupUse_found {result : SmlResult T}
    {target : Source}
    (hlookup : lookupUse fs done () loader (path, loc) = .ok ((), result))
    (hfound : Found fs { loader with loadPath := [] } (.path path, loc) target) :
    ∃ found, findDone done target.2 = some (.sml found) := by
  obtain ⟨loader', source, found, hvisit, hfind, -⟩ := lookupUse_ok.mp hlookup
  have hok := hvisit.symm.trans hfound
  simp only [Except.ok.injEq, Prod.mk.injEq] at hok
  exact ⟨found, hok.2 ▸ hfind⟩

theorem lookupRequire_found {result : SmiResult T I} {target : Source}
    (hlookup : lookupRequire fs done () loader mode filePathLoc =
      .ok ((), result)) (hfound : Found fs loader filePathLoc target) :
    ∃ found, findDone done target.2 = some (.smi found) := by
  obtain ⟨loader', source, found, hvisit, hfind, -⟩ :=
    lookupRequire_ok.mp hlookup
  have hok := hvisit.symm.trans hfound
  simp only [Except.ok.injEq, Prod.mk.injEq] at hok
  exact ⟨found, hok.2 ▸ hfind⟩

theorem sml_leadsTo {source : Source}
    {abunit : UnitParseResult T} {tops : TopsResult T} (mode : FileLoadMode)
    (hparse : fs.parseSml source.2 = .ok abunit)
    (heval : evalUnit (lookupUse fs done) () (fileLoader source []) abunit =
      .ok ((), tops)) (hrefers : Refers fs loadPath locate (.sml source) target) :
    LeadsTo locate done mode target := by
  cases hrefers with
  | use parse hmem found =>
    rw [hparse] at parse
    cases parse
    obtain ⟨used, hlookup⟩ := evalTopList_lookup heval hmem
    obtain ⟨found, hfind⟩ := lookupUse_found hlookup found
    exact .sml hfind

theorem includes_leadsTo {source : Source}
    {modeEval : FileLoadMode} {includes : List (RequirePath.Path × Loc)}
    {topdecs : List T} {evaluated : IncludesResult T I}
    (hparse : fs.parseSmi source.2 = .ok (.includes includes topdecs))
    (heval : loadRequireList (lookupRequire fs done) ()
      (fileLoader source loadPath) modeEval
      (includes.map fun entry => (.path entry.1, entry.2)) =
        .ok ((), evaluated))
    (hrefers : Refers fs loadPath locate (.smi source mode) target) :
    LeadsTo locate done mode target := by
  cases hrefers with
  | includes parse hmem found =>
    rw [hparse] at parse
    cases parse
    obtain ⟨first, hlookup⟩ :=
      loadRequireList_lookup heval (List.mem_map.mpr ⟨_, hmem, rfl⟩)
    obtain ⟨found, hfind⟩ := lookupRequire_found hlookup found
    exact .smi hfind
  | require parse hmem found =>
    rw [hparse] at parse
    cases parse
  | localRequire parse hmem hfollow found =>
    rw [hparse] at parse
    cases parse
  | localUse parse hmem hfollow found =>
    rw [hparse] at parse
    cases parse

theorem interface_leadsTo {source : Source} {requires : List Irequire} {provide : List I}
    {evaluated : RequiresResult T I}
    (hparse : fs.parseSmi source.2 = .ok (.interface requires provide))
    (heval : evalIrequireList (lookupRequire fs done) (lookupUse fs done) ()
      (fileLoader source loadPath) mode requires = .ok ((), evaluated))
    (hrefers : Refers fs loadPath locate (.smi source mode) target) :
    LeadsTo locate done (nextMode mode) target := by
  cases hrefers with
  | includes parse hmem found =>
    rw [hparse] at parse
    cases parse
  | require parse hmem found =>
    rw [hparse] at parse
    cases parse
    obtain ⟨first, hfirst⟩ := evalIrequireList_lookup heval hmem
    simp only [evalIrequire, except_bind_ok] at hfirst
    obtain ⟨⟨⟨⟩, loaded⟩, hlookup, -⟩ := hfirst
    obtain ⟨found, hfind⟩ := lookupRequire_found hlookup found
    exact .smi hfind
  | localRequire parse hmem hfollow found =>
    rw [hparse] at parse
    cases parse
    obtain ⟨first, hfirst⟩ := evalIrequireList_lookup heval hmem
    have hfollow : followsLocalRequire mode
      (baseDirPlace (fileLoader source loadPath)) = true := hfollow
    simp only [evalIrequire, hfollow, ↓reduceIte, except_bind_ok] at hfirst
    obtain ⟨⟨⟨⟩, loaded⟩, hlookup, -⟩ := hfirst
    obtain ⟨found, hfind⟩ := lookupRequire_found hlookup found
    exact .smi hfind
  | localUse parse hmem hfollow found =>
    rw [hparse] at parse
    cases parse
    obtain ⟨first, hfirst⟩ := evalIrequireList_lookup heval hmem
    have hfollow : followsLocalUse mode
      (baseDirPlace (fileLoader source loadPath)) = true := hfollow
    simp only [evalIrequire, hfollow, ↓reduceIte, except_bind_ok] at hfirst
    obtain ⟨⟨⟨⟩, used⟩, hlookup, -⟩ := hfirst
    obtain ⟨found, hfind⟩ := lookupUse_found hlookup found
    exact .sml hfind

/-- A file that was completed as it is visited; `P` singles out the mode. -/
def Covered (P : FileLoadMode → Prop) (done : Entries T I) : Visit → Prop
  | .smi source mode => (∀ mode', P mode' ↔ mode' = mode) ∧
      ∃ result, findDone done source.2 = some (.smi result) ∧
        result.node.source = source
  | .sml source => ∃ result, findDone done source.2 = some (.sml result) ∧
      result.node.source = source

theorem Covered.mem_keys {visit : Visit} (hcovered : Covered P done visit) :
    visit.filename ∈ done.map Prod.fst := by
  cases visit with
  | smi source mode =>
    obtain ⟨-, result, hfind, -⟩ := hcovered
    exact List.mem_map.mpr ⟨_, mem_of_findDone hfind, rfl⟩
  | sml source =>
    obtain ⟨result, hfind, -⟩ := hcovered
    exact List.mem_map.mpr ⟨_, mem_of_findDone hfind, rfl⟩

/-- `locate` agrees with the places of the completed files. -/
def Locates (locate : Source → Source) (done : Entries T I) : Prop :=
  ∀ source node, node ∈ nodesOf done → node.filename = source.2 →
    locate source = node.source

theorem Locates.of_prefix {pre : Entries T I}
    (hlocates : Locates locate done) (hpre : pre <+: done) :
    Locates locate pre := by
  intro source node hnode hsame
  obtain ⟨filename, result, hmem, hresult⟩ := mem_nodesOf.mp hnode
  exact hlocates source node
    (mem_nodesOf.mpr ⟨filename, result, hpre.subset hmem, hresult⟩) hsame

/-- A reference to a file completed in `pre` is covered, by an entry of `pre`. -/
theorem LeadsTo.covered {pre : Entries T I}
    (hclosed : Closed fs loadPath P done) (hpre : pre <+: done)
    (hlocates : Locates locate done) {visit : Visit}
    (hleads : LeadsTo locate pre mode visit)
    (hmode : (∃ source, visit = .sml source) ∨ ∀ mode', P mode' ↔ mode' = mode) :
    Covered P done visit ∧ visit.filename ∈ pre.map Prod.fst := by
  cases hleads with
  | @smi target found hfind =>
    have hfind' := findDone_of_prefix hpre hfind
    obtain ⟨preFile, -, hentry⟩ := hclosed.entry hfind'
    have hnode : found.node.filename = target.2 := hentry.filename rfl
    have hlocate := hlocates target found.node
      (mem_nodesOf.mpr ⟨_, _, mem_of_findDone hfind', rfl⟩) hnode
    have hfile : (locate target).2 = target.2 := by
      rw [hlocate]
      exact hnode
    have hmode : ∀ mode', P mode' ↔ mode' = mode := by
      rcases hmode with ⟨source, hvisit⟩ | hmode
      · cases hvisit
      · exact hmode
    refine ⟨⟨hmode, found, by rw [hfile]; exact hfind', hlocate.symm⟩, ?_⟩
    rw [Visit.filename, Visit.source, hfile]
    exact List.mem_map.mpr ⟨_, mem_of_findDone hfind, rfl⟩
  | @sml target found hfind =>
    have hfind' := findDone_of_prefix hpre hfind
    obtain ⟨preFile, -, hentry⟩ := hclosed.entry hfind'
    have hnode : found.node.filename = target.2 := hentry.filename rfl
    have hlocate := hlocates target found.node
      (mem_nodesOf.mpr ⟨_, _, mem_of_findDone hfind', rfl⟩) hnode
    have hfile : (locate target).2 = target.2 := by
      rw [hlocate]
      exact hnode
    refine ⟨⟨found, by rw [hfile]; exact hfind', hlocate.symm⟩, ?_⟩
    rw [Visit.filename, Visit.source, hfile]
    exact List.mem_map.mpr ⟨_, mem_of_findDone hfind, rfl⟩

/-- References of a covered file lead to covered files before it. -/
theorem Covered.refers (hP : ∀ mode, P mode → P (nextMode mode))
    (hclosed : Closed fs loadPath P done)
    (hnodup : (done.map Prod.fst).Nodup) (hlocates : Locates locate done)
    {visit : Visit} (hcovered : Covered P done visit)
    (hrefers : Refers fs loadPath locate visit target) : Covered P done target ∧
      rankOf done target.filename < rankOf done visit.filename := by
  cases visit with
  | sml source =>
    obtain ⟨result, hfind, hsource⟩ := hcovered
    obtain ⟨pre, post, hsplit⟩ := List.append_of_mem (mem_of_findDone hfind)
    have hentry := hclosed pre source.2 (.sml result) post hsplit
    obtain ⟨source', abunit, tops, -, hparse, heval, hresult⟩ := hentry.sml_inv
    rw [hresult] at hsource
    cases hsource
    have hleads := sml_leadsTo .all hparse heval hrefers
    have hsml : ∃ source, target = .sml source := by
      cases hrefers
      exact ⟨_, rfl⟩
    obtain ⟨hcovered, hmem⟩ := hleads.covered hclosed
      (hsplit ▸ List.prefix_append _ _) hlocates (Or.inl hsml)
    exact ⟨hcovered, rankOf_lt hnodup hsplit hmem⟩
  | smi source mode =>
    obtain ⟨hmode, result, hfind, hsource⟩ := hcovered
    obtain ⟨pre, post, hsplit⟩ := List.append_of_mem (mem_of_findDone hfind)
    have hentry := hclosed pre source.2 (.smi result) post hsplit
    obtain ⟨source', mode', -, hmode', hcase⟩ := hentry.smi_inv
    have hsame := (hmode mode').mp hmode'
    subst hsame
    have hnext : nextMode mode' = mode' :=
      (hmode (nextMode mode')).mp (hP mode' hmode')
    have hleads : LeadsTo locate pre mode' target := by
      rcases hcase with ⟨includes, topdecs, evaluated, hparse, heval, hresult⟩ |
        ⟨requires, provide, evaluated, id, hparse, heval, hresult⟩
      · rw [hresult] at hsource
        cases hsource
        exact includes_leadsTo hparse heval hrefers
      · rw [hresult] at hsource
        cases hsource
        have hleads := interface_leadsTo hparse heval hrefers
        rwa [hnext] at hleads
    obtain ⟨hcovered, hmem⟩ := hleads.covered hclosed
      (hsplit ▸ List.prefix_append _ _) hlocates (Or.inr hmode)
    exact ⟨hcovered, rankOf_lt hnodup hsplit hmem⟩

theorem Covered.refers_trans (hP : ∀ mode, P mode → P (nextMode mode))
    (hclosed : Closed fs loadPath P done)
    (hnodup : (done.map Prod.fst).Nodup) (hlocates : Locates locate done)
    {visit : Visit} (hcovered : Covered P done visit)
    (hreach : TransGen (Refers fs loadPath locate) visit target) :
    Covered P done target ∧
      rankOf done target.filename < rankOf done visit.filename := by
  induction hreach with
  | single hrefers =>
    exact hcovered.refers hP hclosed hnodup hlocates hrefers
  | tail _ hrefers ih =>
    obtain ⟨hmiddle, hlt⟩ := ih
    obtain ⟨htarget, hlt'⟩ :=
      hmiddle.refers hP hclosed hnodup hlocates hrefers
    exact ⟨htarget, hlt'.trans hlt⟩

/-- The references of a covered file stay among the completed files and never
lead back. -/
theorem Covered.no_cycle (hP : ∀ mode, P mode → P (nextMode mode))
    (hclosed : Closed fs loadPath P done)
    (hnodup : (done.map Prod.fst).Nodup) (hlocates : Locates locate done)
    {start visit : Visit} (hstart : Covered P done start)
    (hreach : ReflTransGen (Refers fs loadPath locate) start visit) :
    visit.filename ∈ done.map Prod.fst ∧
      ∀ target, TransGen (Refers fs loadPath locate) visit target →
        target.filename ≠ visit.filename := by
  have hvisit : Covered P done visit := by
    rcases reflTransGen_iff_eq_or_transGen.mp hreach with rfl | hreach
    · exact hstart
    · exact (hstart.refers_trans hP hclosed hnodup hlocates hreach).1
  refine ⟨hvisit.mem_keys, ?_⟩
  intro target htarget hsame
  have hlt :=
    (hvisit.refers_trans hP hclosed hnodup hlocates htarget).2
  rw [hsame] at hlt
  exact lt_irrefl _ hlt

theorem locates_locateIn (hclosed : Closed fs loadPath P state.done) :
    Locates (locateIn (nodesOf state.done)) state.done := by
  intro source node hnode hsame
  have hnodup := state.done_keys_nodup
  unfold locateIn
  split
  · next found hfind =>
      have hmem := List.mem_of_find?_eq_some hfind
      have hfile := List.find?_some hfind
      simp only [decide_eq_true_eq] at hfile
      rw [hclosed.node_unique hnodup hmem hnode (hfile.trans hsame.symm)]
  · next hnone =>
      have hne := List.find?_eq_none.mp hnone node hnode
      simp only [decide_eq_true_eq] at hne
      exact absurd hsame hne

/-- A root with a base name uses no file that was not loaded for its interface
file. -/
theorem evalTopList_allowOnly
    {state' : LoadState T I} {names : List Filename} {result : TopsResult T}
    (heval : evalTopList (loadUse fs fuel) state loader (.allowOnly names) tops =
      .ok (state', result)) (hinv : Invariant fs loadPath P state)
    (hnames : ∀ name ∈ names, name ∈ state.done.map Prod.fst) :
    state' = state := by
  induction tops generalizing state result with
  | nil =>
    cases heval
    rfl
  | cons top tops ih =>
    simp only [evalTopList, except_bind_ok, except_pure_ok] at heval
    obtain ⟨⟨state₁, first⟩, hfirst, ⟨state₂, rest⟩, hrest, hresult⟩ := heval
    cases hresult
    have hsame : state₁ = state := by
      cases top with
      | topdec topdecs =>
        cases hfirst
        rfl
      | use path loc =>
        simp only [evalTop, except_bind_ok, except_pure_ok] at hfirst
        obtain ⟨⟨state₁', used⟩, hload, ⟨⟩, hallow, hresult⟩ := hfirst
        cases hresult
        simp only [checkAllowed] at hallow
        split at hallow
        · next hname =>
            obtain ⟨fuel', source, -, -, hcase⟩ := loadUse_cases hload
            rcases hcase with ⟨found, -, hstate, -⟩ |
              ⟨hnew, abunit, state₂, tops, -, -, rfl, -⟩
            · exact hstate
            · have hkey : source.2 ∈ state.done.map Prod.fst :=
                hnames source.2 hname
              have hnone : findDone state.done source.2 = none := by
                rw [Option.eq_none_iff_forall_ne_some]
                intro entry hfind
                rw [LoadState.findDone_done, hnew] at hfind
                cases hfind.1
              exact absurd hkey (findDone_eq_none_iff.mp hnone)
        · cases hallow
    subst hsame
    have htail := ih hrest hinv hnames
    exact htail

end Acyclic

theorem nextMode_nextMode (mode : FileLoadMode) :
    nextMode (nextMode mode) = nextMode mode := by
  cases mode <;> rfl

theorem LoadState.InProgress.not_done {filename : Filename} (hmark : state.InProgress filename) :
    filename ∉ state.done.map Prod.fst := by
  intro hmem
  obtain ⟨⟨key, result⟩, hentry, rfl⟩ := List.mem_map.mp hmem
  obtain ⟨hfind, hresult⟩ := (state.mem_done_iff key result).mp hentry
  rw [InProgress, hfind] at hmark
  cases hmark
  cases hresult

section Load

variable {fs : FileSystem T I} {options : LoadOptions} {unit : SmlUnit T}

/-- The root file is not among the files of its graph. -/
theorem base_not_done {file : Filename} {state₂ state₃ : LoadState T I}
    {tops : TopsResult T}
    (hbase : baseFilenameReal fs options = .ok (some file))
    (hprovide : loadProvideInterface fs fuel (initialState (some file) nextId)
      (rootLoader options) options.loadMode interfaceFile =
        .ok (state₁, provided))
    (hremove : removeBase (some file) state₁ = .ok state₂)
    (htops : evalTopList (loadUse fs fuel) state₂
      ⟨provided.baseDir, options.loadPath⟩
      (allowUse options.baseFilename provided.node) unit.tops =
        .ok (state₃, tops)) : file ∉ state₃.done.map Prod.fst := by
  have hP : ∀ mode : FileLoadMode, True → True := fun _ h => h
  obtain ⟨hdone₂, hinv₂, -, -⟩ :=
    load_states (P := fun _ => True) hP hprovide hremove htops trivial
  have hstep := loadProvideInterface_inv (P := fun _ => True) hP hprovide trivial
    (initialState_done (some file) nextId)
  have hmark : state₁.InProgress file := by
    rw [hstep.extends_.inProgress, initialState_inProgress]
  have hallow : ∃ names, allowUse options.baseFilename provided.node =
      .allowOnly names ∧ ∀ name ∈ names, name ∈ state₂.done.map Prod.fst := by
    cases hfile : options.baseFilename with
    | none =>
      rw [baseFilenameReal, hfile] at hbase
      cases hbase
    | some baseFilename =>
      cases interfaceFile with
      | none =>
        cases hprovide
        exact ⟨[], rfl, by simp⟩
      | some filePathLoc =>
        obtain ⟨state, source, requires, provide, evaluated, interface, -, -,
          -, hstep, heval, hdone, -, -, hnode, -⟩ :=
          loadProvideInterface_spec (P := fun _ => True) hP hprovide trivial
            (initialState_done (some file) nextId)
        rw [hnode]
        refine ⟨_, rfl, ?_⟩
        intro name hname
        obtain ⟨edge, hedge, hlocal⟩ := List.mem_filterMap.mp hname
        have htarget := evalIrequireList_edges heval edge hedge
        obtain ⟨filename, result, hmem, hresult⟩ := mem_nodesOf.mp htarget
        have hentry := hstep.inv.closed.entry
          (findDone_of_mem state.done_keys_nodup hmem)
        obtain ⟨pre, -, hentry⟩ := hentry
        have hfilename := hentry.filename hresult
        have hname : name = edge.node.filename := by
          obtain ⟨edgeType, node, loc⟩ := edge
          cases edgeType <;> cases hlocal
          rfl
        rw [hname, hfilename, hdone₂, hdone, List.map_append]
        exact List.mem_append_left _ (List.mem_map.mpr ⟨_, hmem, rfl⟩)
  obtain ⟨names, hallow, hnames⟩ := hallow
  rw [hallow] at htops
  have hsame := evalTopList_allowOnly htops hinv₂ hnames
  rw [hsame, hdone₂]
  exact hmark.not_done

/-- The files that the provided interface refers to: each is in the graph, and
its references do not lead back to it. -/
theorem provide_no_cycle {target : Source}
    (hprovide : loadProvideInterface fs fuel (initialState base nextId)
      (rootLoader options) options.loadMode (some filePathLoc) =
        .ok (state₁, provided))
    (hfound : Found fs (rootLoader options) filePathLoc target)
    (hpre : state₁.done <+: done) (hlocates : Locates locate done)
    {visit : Visit} (hreach : ReflTransGen (Refers fs options.loadPath locate)
      (.smi (locate target) options.loadMode) visit) :
    visit.filename ∈ done.map Prod.fst ∧
      ∀ back, TransGen (Refers fs options.loadPath locate) visit back →
        back.filename ≠ visit.filename := by
  have hP : ∀ mode, mode = nextMode options.loadMode →
      nextMode mode = nextMode options.loadMode := by
    rintro mode rfl
    exact nextMode_nextMode _
  obtain ⟨state, source, requires, provide, evaluated, interface, hvisit, -,
    hparse, hstep, heval, hdone, -⟩ :=
    loadProvideInterface_spec (P := (· = nextMode options.loadMode)) hP hprovide
      rfl (initialState_done base nextId)
  have hsame : source = target := by
    have hok := hvisit.symm.trans hfound
    simp only [Except.ok.injEq, Prod.mk.injEq] at hok
    exact hok.2
  subst hsame
  have hlast : (source.2, EvalResult.smi (interfaceResult fs state.nextId source
      filePathLoc.2 provide evaluated)) ∈ state₁.done := by
    rw [hdone]
    simp
  have hlocate : locate source = source :=
    hlocates source _ (mem_nodesOf.mpr ⟨_, _, hpre.subset hlast, rfl⟩) rfl
  rw [hlocate] at hreach
  have hclosed := hstep.inv.closed
  have hnodup := state.done_keys_nodup
  have hprefixD : state.done <+: done := by
    rw [hdone] at hpre
    exact (List.prefix_append _ _).trans hpre
  have hlocatesD := hlocates.of_prefix hprefixD
  have hnotD : source.2 ∉ state.done.map Prod.fst := by
    have hnodup₁ := state₁.done_keys_nodup
    rw [hdone, List.map_append, List.nodup_append] at hnodup₁
    intro hmem
    exact hnodup₁.2.2 source.2 hmem source.2 (by simp) rfl
  have hcovered : ∀ next,
      Refers fs options.loadPath locate (.smi source options.loadMode) next →
      Covered (· = nextMode options.loadMode) state.done next := by
    intro next hrefers
    have hleads := interface_leadsTo hparse heval hrefers
    exact (hleads.covered hclosed List.prefix_rfl hlocatesD
      (Or.inr fun _ => Iff.rfl)).1
  rcases hreach.cases_head with hsame | ⟨next, hrefers, hreach⟩
  · subst hsame
    refine ⟨List.mem_map.mpr ⟨_, hpre.subset hlast, rfl⟩, ?_⟩
    intro back hback heq
    obtain ⟨next, hrefers, hreach⟩ := TransGen.head'_iff.mp hback
    have hmem := ((hcovered next hrefers).no_cycle hP hclosed hnodup hlocatesD
      hreach).1
    rw [heq] at hmem
    exact hnotD hmem
  · obtain ⟨hmem, hback⟩ := (hcovered next hrefers).no_cycle hP hclosed hnodup
      hlocatesD hreach
    refine ⟨?_, hback⟩
    obtain ⟨entry, hentry, heq⟩ := List.mem_map.mp hmem
    exact List.mem_map.mpr ⟨entry, hprefixD.subset hentry, heq⟩

/-- The references of a successful load, with each file read where the graph has
it, lead nowhere back. -/
theorem load_no_cycle (hload : load fs fuel nextId options unit = .ok result) :
    ¬ HasCycle fs options unit (locateIn result.dependency.allNodes) := by
  have hP : ∀ mode : FileLoadMode, True → True := fun _ h => h
  obtain ⟨interfaceFile, base, state₁, provided, state₂, state₃, tops, hfile,
    hbase, hprovide, hremove, htops, hnodes, -⟩ := load_stages hload
  obtain ⟨hdone₂, hinv₂, hstep₃, hlookup⟩ :=
    load_states (P := fun _ => True) hP hprovide hremove htops trivial
  have hclosed := hstep₃.inv.closed
  have hnodup := state₃.done_keys_nodup
  have hlocates := locates_locateIn hclosed
  rw [(listNodes_ok hnodes).1]
  have hpre : state₁.done <+: state₃.done := hdone₂ ▸ hstep₃.extends_.done
  have hvisit : ∀ visit, Reachable fs options unit
      (locateIn (nodesOf state₃.done)) visit →
      visit.filename ∈ state₃.done.map Prod.fst ∧
        ∀ back, TransGen (Refers fs options.loadPath
          (locateIn (nodesOf state₃.done))) visit back →
          back.filename ≠ visit.filename := by
    rintro visit ⟨start, hroot, hreach⟩
    cases hroot with
    | provide hfile' hfound =>
      have hsame : interfaceFile = some _ :=
        Except.ok.inj (hfile.symm.trans hfile')
      subst hsame
      exact provide_no_cycle hprovide hfound hpre hlocates hreach
    | use hdir hmem hfound =>
      have hsame := rootBaseDir_unique hdir (rootBaseDir hfile hprovide)
      subst hsame
      obtain ⟨used, hused⟩ := evalTopList_lookup hlookup hmem
      obtain ⟨found, hfind⟩ := lookupUse_found hused hfound
      have hleads : LeadsTo (locateIn (nodesOf state₃.done)) state₃.done .all
        (.sml _) := .sml hfind
      have hcovered := (hleads.covered hclosed List.prefix_rfl hlocates
        (Or.inl ⟨_, rfl⟩)).1
      exact hcovered.no_cycle (P := fun _ => True) hP hclosed hnodup hlocates
        hreach
  rintro ⟨visit, hreach, hroot | ⟨back, hback, hsame⟩⟩
  · have hsome : base = some visit.filename :=
      Except.ok.inj (hbase.symm.trans hroot)
    subst hsome
    exact base_not_done hbase hprovide hremove htops (hvisit visit hreach).1
  · exact (hvisit visit hreach).2 back hback hsame

/-- Every file that is reached is found at one place. -/
def SinglePlace (fs : FileSystem T I) (options : LoadOptions)
    (unit : SmlUnit T) : Prop :=
  ∀ visit visit', Reachable fs options unit id visit →
    Reachable fs options unit id visit' → visit.filename = visit'.filename →
    visit.source = visit'.source

/-- A reference to a file that is read where it is found. -/
theorem Refers.relocate {loadPath : List Source}
    {visit : Visit} (hrefers : Refers fs loadPath id visit target)
    (hsame : locate target.source = target.source) :
    Refers fs loadPath locate visit target := by
  cases hrefers with
  | @includes source target mode includes topdecs path loc parse hmem found =>
    have hlocate : locate target = target := hsame
    have hvisit : Refers fs loadPath locate (.smi source mode)
      (.smi (locate target) mode) := .includes parse hmem found
    rwa [hlocate] at hvisit
  | @require source target mode requires provide path options loc parse hmem
      found =>
      have hlocate : locate target = target := hsame
      have hvisit : Refers fs loadPath locate (.smi source mode)
        (.smi (locate target) (nextMode mode)) := .require parse hmem found
      rwa [hlocate] at hvisit
  | @localRequire source target mode requires provide path options loc parse
      hmem hfollow found =>
      have hlocate : locate target = target := hsame
      have hvisit : Refers fs loadPath locate (.smi source mode)
        (.smi (locate target) (nextMode mode)) :=
        .localRequire parse hmem hfollow found
      rwa [hlocate] at hvisit
  | @localUse source target mode requires provide path loc parse hmem hfollow
      found =>
      have hlocate : locate target = target := hsame
      have hvisit : Refers fs loadPath locate (.smi source mode)
        (.sml (locate target)) := .localUse parse hmem hfollow found
      rwa [hlocate] at hvisit
  | @use source target tops unitLoc path loc parse hmem found =>
    have hlocate : locate target = target := hsame
    have hvisit : Refers fs loadPath locate (.sml source)
      (.sml (locate target)) := .use parse hmem found
    rwa [hlocate] at hvisit

theorem RootRefers.relocate (hroot : RootRefers fs options unit id target)
    (hsame : locate target.source = target.source) :
    RootRefers fs options unit locate target := by
  cases hroot with
  | @provide filePathLoc target hfile hfound =>
    have hlocate : locate target = target := hsame
    have hvisit : RootRefers fs options unit locate
      (.smi (locate target) options.loadMode) := .provide hfile hfound
    rwa [hlocate] at hvisit
  | @use baseDir path loc target hdir hmem hfound =>
    have hlocate : locate target = target := hsame
    have hvisit : RootRefers fs options unit locate (.sml (locate target)) :=
      .use hdir hmem hfound
    rwa [hlocate] at hvisit

/-- Where every reached file is read where it is found, a cycle is one of the
graph as it was read. -/
theorem HasCycle.relocate {locate : Source → Source}
    (hcycle : HasCycle fs options unit id)
    (hlocate : ∀ visit, Reachable fs options unit id visit →
      locate visit.source = visit.source) :
    HasCycle fs options unit locate := by
  have hpath : ∀ visit target, Reachable fs options unit id visit →
      ReflTransGen (Refers fs options.loadPath id) visit target →
      ReflTransGen (Refers fs options.loadPath locate) visit target := by
    intro visit target hreach hrefers
    induction hrefers with
    | refl => exact .refl
    | @tail middle target hpath hstep ih =>
      obtain ⟨start, hroot, hstart⟩ := hreach
      have htarget : Reachable fs options unit id target :=
        ⟨start, hroot, (hstart.trans hpath).tail hstep⟩
      exact ih.tail (hstep.relocate (hlocate target htarget))
  obtain ⟨visit, ⟨start, hroot, hstart⟩, hback⟩ := hcycle
  have hreachStart : Reachable fs options unit id start := ⟨start, hroot, .refl⟩
  have hreach : Reachable fs options unit id visit := ⟨start, hroot, hstart⟩
  refine ⟨visit, ⟨start, hroot.relocate (hlocate start hreachStart),
    hpath start visit hreachStart hstart⟩, ?_⟩
  rcases hback with hbase | ⟨target, htarget, hsame⟩
  · exact Or.inl hbase
  · obtain ⟨next, hstep, hrest⟩ := TransGen.head'_iff.mp htarget
    have hnext := hreach.refers hstep
    exact Or.inr ⟨target, .head' (hstep.relocate (hlocate next hnext))
      (hpath next target hnext hrest), hsame⟩

/-- Where every file is found at one place, the graph has it there. -/
theorem SinglePlace.locateIn {fuel nextId : Nat} {result : LoadResult T I}
    (hsingle : SinglePlace fs options unit)
    (hload : load fs fuel nextId options unit = .ok result) {visit : Visit}
    (hreach : Reachable fs options unit id visit) :
    LoadFile.locateIn result.dependency.allNodes visit.source =
      visit.source := by
  unfold LoadFile.locateIn
  split
  · next node hfind =>
      have hfile := List.find?_some hfind
      simp only [decide_eq_true_eq] at hfile
      obtain ⟨visit', hreach', hsource⟩ :=
        load_reachable hload node (List.mem_of_find?_eq_some hfind)
      have hsame : visit'.filename = visit.filename := by
        rw [Visit.filename, hsource]
        exact hfile
      rw [← hsource]
      exact hsingle visit' visit hreach' hreach hsame
  · rfl

end Load

/-! ### Revisiting the graph of a successful load -/

mutual

/-- `revisitEdgeList` with marks on the files that are being visited. -/
def markedEdgeList (marks : List Filename)
    (visited : Assoc Filename FileDependencyNode) (place : FilePlace)
    (mode : FileLoadMode) :
    List FileDependencyEdge →
      Option (Assoc Filename FileDependencyNode × List FileDependencyEdge)
  | [] => some (visited, [])
  | .edge edgeType node loc :: edges =>
    match revisitMode mode edgeType place with
    | none => markedEdgeList marks visited place mode edges
    | some next => do
        let (visited, node) ← markedNode marks visited next node
        let (visited, edges) ← markedEdgeList marks visited place mode edges
        return (visited, .edge edgeType node loc :: edges)

/-- `revisitNode`, which fails when it meets a file that is being visited. -/
def markedNode (marks : List Filename)
    (visited : Assoc Filename FileDependencyNode) (mode : FileLoadMode) :
    FileDependencyNode →
      Option (Assoc Filename FileDependencyNode × FileDependencyNode)
  | .file source fileType edges =>
    if source.2 ∈ marks then none
    else
      match visited.find source.2 with
      | some result => some (visited, result)
      | none => do
          let (visited, edges) ←
            markedEdgeList (source.2 :: marks) visited source.1 mode edges
          let node := .file source fileType edges
          return (visited.append source.2 node, node)

end

def markedRevisit (root : FileDependencyRoot) : Option FileDependency := do
  let (visited, edges) ←
    markedEdgeList [] .empty (rootPlace root.fileType) root.mode root.edges
  return ⟨visited.listItems, { root with edges := edges }⟩

mutual

theorem markedEdgeList_eq {nodes : List FileDependencyNode}
    {rank : Filename → Nat}
    (hnodes : ∀ node ∈ nodes, ∀ edge ∈ node.edges, edge.node ∈ nodes ∧
      rank edge.node.filename < rank node.filename)
    (marks : List Filename) (visited : Assoc Filename FileDependencyNode)
    (place : FilePlace) (mode : FileLoadMode) :
    (edges : List FileDependencyEdge) →
    (∀ edge ∈ edges, edge.node ∈ nodes ∧
      ∀ mark ∈ marks, rank edge.node.filename < rank mark) →
    markedEdgeList marks visited place mode edges =
      some (revisitEdgeList visited place mode edges)
  | [], _ => rfl
  | .edge edgeType node loc :: edges, hedges => by
      have htail : ∀ edge ∈ edges, edge.node ∈ nodes ∧
          ∀ mark ∈ marks, rank edge.node.filename < rank mark :=
        fun edge hedge => hedges edge (List.mem_cons_of_mem _ hedge)
      rw [markedEdgeList, revisitEdgeList]
      cases revisitMode mode edgeType place with
      | none =>
        exact markedEdgeList_eq hnodes marks visited place mode edges htail
      | some next =>
        obtain ⟨hnode, hmarks⟩ := hedges _ List.mem_cons_self
        have hfirst := markedNode_eq hnodes marks visited next node hnode hmarks
        have hrest := markedEdgeList_eq hnodes marks
          (revisitNode visited next node).1 place mode edges htail
        simp only [hfirst, hrest, bind, Option.bind, pure]

theorem markedNode_eq {nodes : List FileDependencyNode}
    {rank : Filename → Nat}
    (hnodes : ∀ node ∈ nodes, ∀ edge ∈ node.edges, edge.node ∈ nodes ∧
      rank edge.node.filename < rank node.filename)
    (marks : List Filename) (visited : Assoc Filename FileDependencyNode)
    (mode : FileLoadMode) :
    (node : FileDependencyNode) → node ∈ nodes →
    (∀ mark ∈ marks, rank node.filename < rank mark) →
    markedNode marks visited mode node = some (revisitNode visited mode node)
  | .file source fileType edges, hnode, hmarks => by
      have hnot : source.2 ∉ marks := fun hmem =>
        lt_irrefl _ (hmarks source.2 hmem)
      rw [markedNode, revisitNode, if_neg hnot]
      cases visited.find source.2 with
      | some found => rfl
      | none =>
        have hedges : ∀ edge ∈ edges, edge.node ∈ nodes ∧
            ∀ mark ∈ source.2 :: marks,
              rank edge.node.filename < rank mark := by
          intro edge hedge
          obtain ⟨hmem, hlt⟩ := hnodes _ hnode edge hedge
          refine ⟨hmem, ?_⟩
          intro mark hmark
          rcases List.mem_cons.mp hmark with rfl | hmark
          · exact hlt
          · exact hlt.trans (hmarks mark hmark)
        have hrest := markedEdgeList_eq hnodes (source.2 :: marks) visited
          source.1 mode edges hedges
        simp only [hrest, bind, Option.bind, pure]

end

theorem markedRevisit_eq {loadPath : List Source}
    (hclosed : Closed fs loadPath P state.done) {root : FileDependencyRoot}
    (hedges : ∀ edge ∈ root.edges, edge.node ∈ nodesOf state.done) :
    markedRevisit root = some (revisit root) := by
  have hnodes : ∀ node ∈ nodesOf state.done, ∀ edge ∈ node.edges,
      edge.node ∈ nodesOf state.done ∧
        rankOf state.done edge.node.filename <
          rankOf state.done node.filename := by
    intro node hnode edge hedge
    exact hclosed.refersTo state.done_keys_nodup hnode ⟨edge, hedge, rfl⟩
  have hmarked := markedEdgeList_eq hnodes [] .empty (rootPlace root.fileType)
    root.mode root.edges fun edge hedge => ⟨hedges edge hedge, by simp⟩
  simp only [markedRevisit, hmarked, bind, Option.bind, pure, revisit]

/-! ### Circular references -/

/-- Every load terminates.  It reports a circular reference only if the
references that its mode follows have a cycle; if it succeeds, the files as they
were read have none, its graph has none, and `revisit` in any mode meets no file
that it is visiting.  So where each file is found at one place, a load that
nothing else stops reports a circular reference exactly if there is a cycle. -/
theorem load_circular (fs : FileSystem T I) (nextId : Nat)
    (options : LoadOptions) (unit : SmlUnit T) :
    (∃ outcome : Except LoadError (LoadResult T I), ¬ OutOfFuel outcome ∧
      ∀ fuel, fs.files.length < fuel →
        load fs fuel nextId options unit = outcome) ∧
    (∀ fuel error,
      load fs fuel nextId options unit =
        (.error error : Except LoadError (LoadResult T I)) →
      ∀ filename, error.kind = .circularLoad filename →
        HasCycle fs options unit id) ∧
    (∀ fuel (result : LoadResult T I),
      load fs fuel nextId options unit = .ok result →
      ¬ HasCycle fs options unit (locateIn result.dependency.allNodes) ∧
      (∀ node ∈ result.dependency.allNodes, ∀ target,
        TransGen RefersTo node target → target.filename ≠ node.filename) ∧
      ∀ mode, markedRevisit { result.dependency.root with mode := mode } =
        some (revisit { result.dependency.root with mode := mode })) ∧
    ∀ fuel, SinglePlace fs options unit →
      (∀ error, load fs fuel nextId options unit =
          (.error error : Except LoadError (LoadResult T I)) →
        ∃ filename, error.kind = .circularLoad filename) →
      ((∃ error filename, load fs fuel nextId options unit =
          (.error error : Except LoadError (LoadResult T I)) ∧
          error.kind = .circularLoad filename) ↔
        HasCycle fs options unit id) := by
  have hP : ∀ mode : FileLoadMode, True → True := fun _ h => h
  refine ⟨?_, ?_, ?_, ?_⟩
  · have hfuel : fs.files.length < fs.files.length + 1 := Nat.lt_succ_self _
    refine ⟨load fs (fs.files.length + 1) nextId options unit,
      (load_agree fs nextId options unit hfuel hfuel).2, ?_⟩
    intro fuel hlt
    exact (load_agree fs nextId options unit hlt hfuel).1
  · intro fuel error hload
    exact load_reportsCycle hload
  · intro fuel result hload
    obtain ⟨state, hallNodes, hclosed, hedges⟩ :=
      load_closed (P := fun _ => True) hP hload trivial
    refine ⟨load_no_cycle hload, ?_, ?_⟩
    · intro node hnode target hreach hsame
      rw [hallNodes] at hnode
      have hlt := (hclosed.refersTo_trans state.done_keys_nodup hnode hreach).2
      rw [hsame] at hlt
      exact lt_irrefl _ hlt
    · intro mode
      exact markedRevisit_eq hclosed hedges
  · intro fuel hsingle hstops
    constructor
    · rintro ⟨error, filename, hload, hkind⟩
      exact load_reportsCycle hload filename hkind
    · intro hcycle
      cases hload : (load fs fuel nextId options unit :
          Except LoadError (LoadResult T I)) with
      | error error =>
        obtain ⟨filename, hkind⟩ := hstops error hload
        exact ⟨error, filename, rfl, hkind⟩
      | ok result =>
        have hlocate := hcycle.relocate fun visit hreach =>
          hsingle.locateIn hload hreach
        exact absurd hlocate (load_no_cycle hload)

/-- `a.smi` requires itself. -/
def selfFiles : FileSystem String String :=
  .ofFiles
    [(⟨true, ["w", "a.smi"]⟩, .interface [.require ["a.smi"] [] (some 1)] [])]
    [] []

def selfOptions : LoadOptions :=
  ⟨some ⟨true, ["w", "a.sml"]⟩, [], .compile, id⟩

def selfSource : Source := (.userpath, ⟨true, ["w", "a.smi"]⟩)

theorem selfFiles_reachable {visit : Visit}
    (hreach : Reachable selfFiles selfOptions ⟨.nointerface, [], none⟩ id visit) :
    ∃ mode, visit = .smi selfSource mode := by
  have hunique : ∀ {loader filePathLoc target},
      Found selfFiles loader filePathLoc selfSource →
      Found selfFiles loader filePathLoc target → target = selfSource := by
    intro loader filePathLoc target hself hfound
    exact (Prod.mk.inj (Except.ok.inj (hfound.symm.trans hself))).2
  have hparse : selfFiles.parseSmi selfSource.2 =
      .ok (.interface [.require ["a.smi"] [] (some 1)] []) := rfl
  obtain ⟨start, hroot, hpath⟩ := hreach
  induction hpath with
  | refl =>
    cases hroot with
    | provide hfile hfound =>
      have hself : interfaceFileLoc selfFiles selfOptions .nointerface =
        .ok (some (.file selfSource, none)) := rfl
      cases Except.ok.inj (hself.symm.trans hfile)
      have htarget := hunique (by unfold Found; decide) hfound
      exact ⟨_, by rw [htarget]; rfl⟩
    | use hdir hmem hfound => cases hmem
  | tail _ hrefers ih =>
    obtain ⟨mode, rfl⟩ := ih
    cases hrefers with
    | includes parse hmem found => cases hparse.symm.trans parse
    | require parse hmem found =>
      cases hparse.symm.trans parse
      cases List.mem_singleton.mp hmem
      have htarget := hunique (by unfold Found; decide) found
      exact ⟨_, by rw [htarget]; rfl⟩
    | localRequire parse hmem hfollow found =>
      cases hparse.symm.trans parse
      cases List.mem_singleton.mp hmem
    | localUse parse hmem hfollow found =>
      cases hparse.symm.trans parse
      cases List.mem_singleton.mp hmem

/-- The interface requires itself, so the load ends in a circular load error at
it. -/
theorem load_circular_self :
    (∃ error filename, load selfFiles 9 0 selfOptions ⟨.nointerface, [], none⟩ =
        (.error error : Except LoadError (LoadResult String String)) ∧
        error.kind = .circularLoad filename) ∧
      HasCycle selfFiles selfOptions ⟨.nointerface, [], none⟩ id := by
  obtain ⟨-, -, -, hiff⟩ := load_circular (T := String) (I := String) selfFiles 0
    selfOptions ⟨.nointerface, [], none⟩
  have hload : load selfFiles 9 0 selfOptions ⟨.nointerface, [], none⟩ =
      (.error ⟨some 1, .circularLoad selfSource.2⟩ :
        Except LoadError (LoadResult String String)) := by
    rfl
  have hsingle : SinglePlace selfFiles selfOptions ⟨.nointerface, [], none⟩ := by
    intro visit visit' hreach hreach' _
    obtain ⟨mode, rfl⟩ := selfFiles_reachable hreach
    obtain ⟨mode', rfl⟩ := selfFiles_reachable hreach'
    rfl
  have hreports : ∃ error filename,
      load selfFiles 9 0 selfOptions ⟨.nointerface, [], none⟩ =
        (.error error : Except LoadError (LoadResult String String)) ∧
      error.kind = .circularLoad filename := ⟨_, _, hload, rfl⟩
  refine ⟨hreports, (hiff 9 hsingle ?_).mp hreports⟩
  intro error herror
  cases hload.symm.trans herror
  exact ⟨_, rfl⟩

/-- `a.smi` refers to a file that does not exist before it closes a cycle. -/
def missingFiles : FileSystem String String :=
  .ofFiles
    [(⟨true, ["w", "a.smi"]⟩, .interface
      [.require ["missing.smi"] [] (some 1), .require ["a.smi"] [] (some 2)] [])]
    [] []

/-- `f.smi` is read first in the system's directory, where its local reference
is not followed in mode `allUserpath`, and is found later in the user's. -/
def twoPlaceFiles : FileSystem String String :=
  .ofFiles
    [(⟨true, ["w", "a.smi"]⟩, .interface
      [.require ["lib.smi"] [] (some 1), .require ["f.smi"] [] (some 2)] []),
      (⟨true, ["s", "lib.smi"]⟩, .interface
        [.require [".", "f.smi"] [] (some 3)] []),
      (⟨true, ["s", "f.smi"]⟩, .interface
        [.localRequire [".", "g.smi"] [] (some 4)] []),
      (⟨true, ["s", "g.smi"]⟩, .interface
        [.require [".", "f.smi"] [] (some 5)] [])]
    [] [(⟨true, ["w", "f.smi"]⟩, ⟨true, ["s", "f.smi"]⟩)]

def twoPlaceOptions : LoadOptions :=
  ⟨some ⟨true, ["w", "a.sml"]⟩, [(.stdpath, ⟨true, ["s"]⟩)], .allUserpath, id⟩

/-- A cycle is not reported when another error comes first, or when the cycle
goes through a file that was read at another place. -/
theorem load_circular_unreported :
    (¬ ∀ (options : LoadOptions) (unit : SmlUnit String),
      HasCycle missingFiles options unit id →
      ∃ error filename, load missingFiles 9 0 options unit =
        (.error error : Except LoadError (LoadResult String String)) ∧
        error.kind = .circularLoad filename) ∧
    ¬ ∀ (options : LoadOptions) (unit : SmlUnit String),
      (∀ error, load twoPlaceFiles 9 0 options unit =
          (.error error : Except LoadError (LoadResult String String)) →
        ∃ filename, error.kind = .circularLoad filename) →
      HasCycle twoPlaceFiles options unit id →
      ∃ error filename, load twoPlaceFiles 9 0 options unit =
        (.error error : Except LoadError (LoadResult String String)) ∧
        error.kind = .circularLoad filename := by
  constructor
  · intro hall
    have hcycle : HasCycle missingFiles selfOptions ⟨.nointerface, [], none⟩
        id := by
      have hfile : interfaceFileLoc missingFiles selfOptions .nointerface =
          .ok (some (.file selfSource, none)) := rfl
      have hroot : RootRefers missingFiles selfOptions ⟨.nointerface, [], none⟩
          id (.smi selfSource .compile) := by
        apply RootRefers.provide hfile
        unfold Found
        decide
      have hfound : Found missingFiles (fileLoader selfSource [])
          (.path ["a.smi"], some 2) selfSource := by
        unfold Found
        decide
      have hrefers : Refers missingFiles [] id (.smi selfSource .compile)
          (.smi selfSource .nolocal) :=
        .require rfl (List.mem_cons_of_mem _ List.mem_cons_self) hfound
      exact ⟨_, ⟨_, hroot, .refl⟩, Or.inr ⟨_, .single hrefers, rfl⟩⟩
    obtain ⟨error, filename, hload, hkind⟩ := hall _ _ hcycle
    have herror : load missingFiles 9 0 selfOptions ⟨.nointerface, [], none⟩ =
        (.error ⟨some 1, .fileNotFoundOnPath ["missing.smi"]⟩ :
          Except LoadError (LoadResult String String)) := rfl
    cases herror.symm.trans hload
    cases hkind
  · intro hall
    have hresult : okAnd (load twoPlaceFiles 9 0 twoPlaceOptions
        ⟨.nointerface, [], none⟩) (fun _ => true) = true := by decide +kernel
    obtain ⟨result, hresult, -⟩ := okAnd_iff.mp hresult
    have hcycle : HasCycle twoPlaceFiles twoPlaceOptions
        ⟨.nointerface, [], none⟩ id := by
      have hfile : interfaceFileLoc twoPlaceFiles twoPlaceOptions .nointerface =
          .ok (some (.file selfSource, none)) := rfl
      have hroot : RootRefers twoPlaceFiles twoPlaceOptions
          ⟨.nointerface, [], none⟩ id (.smi selfSource .allUserpath) := by
        apply RootRefers.provide hfile
        unfold Found
        decide
      have hf : Refers twoPlaceFiles twoPlaceOptions.loadPath id
          (.smi selfSource .allUserpath)
          (.smi (.userpath, ⟨true, ["s", "f.smi"]⟩) .allUserpath) := by
        apply Refers.require rfl (List.mem_cons_of_mem _ List.mem_cons_self)
        unfold Found
        decide
      have hg : Refers twoPlaceFiles twoPlaceOptions.loadPath id
          (.smi (.userpath, ⟨true, ["s", "f.smi"]⟩) .allUserpath)
          (.smi (.userpath, ⟨true, ["s", "g.smi"]⟩) .allUserpath) := by
        apply Refers.localRequire rfl List.mem_cons_self rfl
        unfold Found
        decide
      have hback : Refers twoPlaceFiles twoPlaceOptions.loadPath id
          (.smi (.userpath, ⟨true, ["s", "g.smi"]⟩) .allUserpath)
          (.smi (.userpath, ⟨true, ["s", "f.smi"]⟩) .allUserpath) := by
        apply Refers.require rfl List.mem_cons_self
        unfold Found
        decide
      exact ⟨_, ⟨_, hroot, .single hf⟩, Or.inr ⟨_, .tail (.single hg) hback, rfl⟩⟩
    have hstops : ∀ error, load twoPlaceFiles 9 0 twoPlaceOptions
          ⟨.nointerface, [], none⟩ =
          (.error error : Except LoadError (LoadResult String String)) →
        ∃ filename, error.kind = .circularLoad filename := by
      intro error hload
      rw [hresult] at hload
      cases hload
    obtain ⟨error, filename, hload, -⟩ := hall _ _ hstops hcycle
    rw [hresult] at hload
    cases hload

end LoadFile

end SmlSharp
