/-
Every load terminates: while a file is being loaded its mark stays in the table,
so the depth of nested loads is bounded by the number of files.
-/
import SmlSharp.LoadFile.NodeGraph

namespace SmlSharp

namespace LoadFile

open InterfaceName

variable {T I : Type}

/-! ### Files that are not in the table -/

/-- The number of files that were not visited yet. -/
def remaining (fs : FileSystem T I) (state : LoadState T I) : Nat :=
  fs.files.countP fun filename => (state.loaded.find filename).isNone

theorem countP_lt_countP {α : Type} {p q : α → Bool} {l : List α}
    (hle : ∀ a ∈ l, p a = true → q a = true) {b : α} (hmem : b ∈ l)
    (hq : q b = true) (hp : p b = false) : l.countP p < l.countP q := by
  induction l with
  | nil => cases hmem
  | cons a l ih =>
    have htail : ∀ a ∈ l, p a = true → q a = true := fun a ha =>
      hle a (List.mem_cons_of_mem _ ha)
    have hmono : l.countP p ≤ l.countP q := List.countP_mono_left htail
    rw [List.countP_cons, List.countP_cons]
    rcases List.mem_cons.mp hmem with rfl | hmem
    · simp only [hp, hq, Bool.false_eq_true, ↓reduceIte]
      omega
    · have hlt := ih htail hmem
      by_cases hpa : p a = true
      · simp only [hpa, hle a List.mem_cons_self hpa, ↓reduceIte]
        omega
      · simp only [hpa, Bool.false_eq_true, ↓reduceIte]
        omega

variable {state : LoadState T I} {filename : Filename} {fs : FileSystem T I} {source : Source}
  {loader : Loader} {path : RequirePath.Path} {filePathLoc : FileOrPath × Loc} {loc : Loc}
  {error : LoadError} {n : Nat} {f g : RequireFn (LoadState T I) T I}

theorem LoadState.Extends.find_none {state' : LoadState T I}
    (hextends : state.Extends state')
    (hnone : state'.loaded.find filename = none) :
    state.loaded.find filename = none := by
  cases hfind : state.loaded.find filename with
  | none => rfl
  | some result =>
    cases hcycle : result.isCycle with
    | true =>
      have hmark : state.InProgress filename := by
        cases result with
        | cycle => exact hfind
        | sml result => cases hcycle
        | smi result => cases hcycle
      have hmark' := (hextends.inProgress filename).mpr hmark
      rw [LoadState.InProgress, hnone] at hmark'
      cases hmark'
    | false =>
      have hmem := (state.mem_done_iff filename result).mpr ⟨hfind, hcycle⟩
      have hmem' := hextends.done.subset hmem
      rw [LoadState.mem_done_iff, hnone] at hmem'
      cases hmem'.1

theorem remaining_le_of_extends (fs : FileSystem T I)
    {state' : LoadState T I} (hextends : state.Extends state') :
    remaining fs state' ≤ remaining fs state := by
  apply List.countP_mono_left
  intro filename _ hnone
  rw [Option.isNone_iff_eq_none] at hnone ⊢
  exact hextends.find_none hnone

theorem remaining_start_lt (hmem : filename ∈ fs.files)
    (hnew : state.loaded.find filename = none) :
    remaining fs (state.start filename) < remaining fs state := by
  refine countP_lt_countP ?_ hmem (by simp [hnew])
    (by simp [LoadState.start_find])
  intro filename' _ hnone
  rw [LoadState.start_find] at hnone
  split at hnone
  · cases hnone
  · exact hnone

theorem remaining_le_files (fs : FileSystem T I) (state : LoadState T I) :
    remaining fs state ≤ fs.files.length :=
  List.countP_le_length

theorem openFileOnPath_ok {loadPath : List Source}
    (hopen : openFileOnPath fs loadPath filename = .ok source) :
    fs.openIn source.2 = .ok () := by
  induction loadPath with
  | nil => cases hopen
  | cons head loadPath ih =>
    simp only [openFileOnPath] at hopen
    split at hopen
    · next hok =>
        cases hopen
        exact hok
    · exact ih hopen
    · cases hopen

theorem searchPath_ok (hsearch : searchPath fs loader path = .ok source) :
    fs.openIn source.2 = .ok () := by
  simp only [searchPath, except_bind_ok] at hsearch
  obtain ⟨filename, -, hsearch⟩ := hsearch
  split at hsearch
  · split at hsearch
    · next hok =>
        cases hsearch
        exact hok
    · cases hsearch
    · cases hsearch
  · split at hsearch
    · exact openFileOnPath_ok hsearch
    · split at hsearch
      · exact openFileOnPath_ok hsearch
      · exact openFileOnPath_ok hsearch

theorem openFileOrPath_ok (hopen : openFileOrPath fs loader filePathLoc = .ok source) :
    fs.openIn source.2 = .ok () := by
  obtain ⟨⟨file⟩ | ⟨path⟩, loc⟩ := filePathLoc
  · simp only [openFileOrPath, openFileExact] at hopen
    split at hopen
    · next hok =>
        cases hopen
        exact hok
    · cases hopen
  · simp only [openFileOrPath, openPath] at hopen
    split at hopen
    · next hsearch =>
        cases hopen
        exact searchPath_ok hsearch
    all_goals cases hopen

/-- A file that is opened is one of the files of the file map. -/
theorem visitFile_mem {loader' : Loader}
    (hvisit : visitFile fs loader filePathLoc = .ok (loader', source)) :
    source.2 ∈ fs.files := by
  simp only [visitFile, except_bind_ok, except_pure_ok] at hvisit
  obtain ⟨⟨place, filename⟩, hopen, real, hreal, hresult⟩ := hvisit
  cases hresult
  have hok := openFileOrPath_ok hopen
  rw [realPath] at hreal
  split at hreal
  · next hempty =>
      rw [hempty, fs.openIn_empty] at hok
      cases hok
  · split at hreal
    · next hreal' =>
        cases hreal
        exact fs.realPath_mem hok hreal'
    · cases hreal

/-! ### Errors of opening and parsing a file -/

/-- Errors that are about a single file or reference. -/
def LoadErrorKind.Ordinary : LoadErrorKind → Prop
  | .circularLoad _ => False
  | .outOfFuel => False
  | _ => True

theorem openPath_error (hopen : openPath fs loader path loc = .error error) :
    error.kind.Ordinary := by
  unfold openPath at hopen
  split at hopen <;> cases hopen <;> exact trivial

theorem visitFile_error (hvisit : visitFile fs loader filePathLoc = .error error) :
    error.kind.Ordinary := by
  simp only [visitFile, except_bind_error] at hvisit
  rcases hvisit with hopen | ⟨⟨place, filename⟩, -, hreal⟩
  · obtain ⟨⟨file⟩ | ⟨path⟩, loc⟩ := filePathLoc
    · simp only [openFileOrPath, openFileExact] at hopen
      split at hopen <;> cases hopen
      exact trivial
    · exact openPath_error hopen
  · rcases hreal with hreal | ⟨real, -, hpure⟩
    · rw [realPath] at hreal
      split at hreal
      · cases hreal
      · split at hreal <;> cases hreal
        exact trivial
    · cases hpure

theorem liftParse_error {α : Type} {x : Except String α} (hparse : liftParse loc x = .error error) :
    error.kind.Ordinary := by
  cases x with
  | ok parsed => cases hparse
  | error message =>
    cases hparse
    exact trivial

theorem liftBug_error {α : Type} {x : Except String α}
    (hbug : liftBug x = .error error) : error.kind.Ordinary := by
  cases x with
  | ok value => cases hbug
  | error message =>
    cases hbug
    exact trivial

theorem finish_error {result : EvalResult T I}
    (hfinish : state.finish filename result = .error error) :
    error.kind.Ordinary := by
  simp only [LoadState.finish, except_bind_error] at hfinish
  rcases hfinish with hremove | ⟨_, -, hpure⟩
  · exact liftBug_error hremove
  · cases hpure

/-- A file that is visited is in progress, or the error is an ordinary one. -/
theorem visitAndParseSmi_error
    (hvisited : visitAndParseSmi fs state loader filePathLoc = .error error) :
    error.kind.Ordinary ∨
      ∃ loader' source, visitFile fs loader filePathLoc = .ok (loader', source) ∧
        state.InProgress source.2 ∧ error.kind = .circularLoad source.2 := by
  simp only [visitAndParseSmi, except_bind_error] at hvisited
  rcases hvisited with hvisit | ⟨⟨loader', source⟩, hvisit, hfound⟩
  · exact Or.inl (visitFile_error hvisit)
  · split at hfound
    · cases hfound
    · cases hfound
      exact Or.inl trivial
    · next hcycle =>
        cases hfound
        exact Or.inr ⟨loader', source, hvisit, hcycle, rfl⟩
    · simp only [except_bind_error] at hfound
      rcases hfound with hparse | ⟨_, -, hpure⟩
      · exact Or.inl (liftParse_error hparse)
      · cases hpure

theorem visitAndParseSml_error
    (hvisited : visitAndParseSml fs state loader filePathLoc = .error error) :
    error.kind.Ordinary ∨
      ∃ loader' source,
        visitFile fs { loader with loadPath := [] } filePathLoc =
          .ok (loader', source) ∧
        state.InProgress source.2 ∧ error.kind = .circularLoad source.2 := by
  simp only [visitAndParseSml, except_bind_error] at hvisited
  rcases hvisited with hvisit | ⟨⟨loader', source⟩, hvisit, hfound⟩
  · exact Or.inl (visitFile_error hvisit)
  · split at hfound
    · cases hfound
    · cases hfound
      exact Or.inl trivial
    · next hcycle =>
        cases hfound
        exact Or.inr ⟨loader', source, hvisit, hcycle, rfl⟩
    · simp only [except_bind_error] at hfound
      rcases hfound with hparse | ⟨_, -, hpure⟩
      · exact Or.inl (liftParse_error hparse)
      · cases hpure

theorem checkAllowed_error {allow : AllowUse} {node : FileDependencyNode}
    (hallow : checkAllowed allow node path loc = .error error) :
    error.kind.Ordinary := by
  cases allow with
  | allowAll => cases hallow
  | allowOnly names =>
    rw [checkAllowed] at hallow
    split at hallow <;> cases hallow
    exact trivial

theorem requireInit_error {options : List (String × Loc)} {init : Bool}
    (hinit : requireInit options init = .error error) :
    error.kind.Ordinary := by
  induction options generalizing init with
  | nil => cases hinit
  | cons option options ih =>
    unfold requireInit at hinit
    split at hinit
    · cases hinit
    · next heq =>
        cases heq
        exact ih hinit
    · cases hinit
      exact trivial

theorem evalRequireOptions_error {options : List (String × Loc)}
    {args : SmiResult T I}
    (heval : evalRequireOptions options args = .error error) :
    error.kind.Ordinary := by
  simp only [evalRequireOptions, except_bind_error] at heval
  rcases heval with hinit | ⟨_, -, hpure⟩
  · exact requireInit_error hinit
  · cases hpure

/-! ### Two runs with enough fuel -/

def OutOfFuel {α : Type} (x : Except LoadError α) : Prop :=
  ∃ loc, x = .error ⟨loc, .outOfFuel⟩

theorem not_outOfFuel {α : Type} {x : Except LoadError α}
    (hordinary : ∀ error, x = .error error → error.kind.Ordinary) :
    ¬ OutOfFuel x := by
  rintro ⟨loc, herror⟩
  exact hordinary _ herror

section Agree

variable {fs : FileSystem T I} {loadPath : List Source}

/-- Two functions agree, without running out of fuel, where fewer than `n` files
remain. -/
def UseAgree (fs : FileSystem T I) (loadPath : List Source) (n : Nat)
    (f g : UseFn (LoadState T I) T) : Prop :=
  ∀ state loader pathLoc, Invariant fs loadPath (fun _ => True) state →
    remaining fs state < n →
    f state loader pathLoc = g state loader pathLoc ∧
      ¬ OutOfFuel (f state loader pathLoc)

def RequireAgree (fs : FileSystem T I) (loadPath : List Source) (n : Nat)
    (f g : RequireFn (LoadState T I) T I) : Prop :=
  ∀ state loader mode filePathLoc, loader.loadPath = loadPath →
    Invariant fs loadPath (fun _ => True) state → remaining fs state < n →
    f state loader mode filePathLoc = g state loader mode filePathLoc ∧
      ¬ OutOfFuel (f state loader mode filePathLoc)

theorem outOfFuel_bind {α β : Type} {x : Except LoadError α}
    {f : α → Except LoadError β} :
    OutOfFuel (x >>= f) ↔ OutOfFuel x ∨ ∃ a, x = .ok a ∧ OutOfFuel (f a) := by
  cases x <;> simp [OutOfFuel, bind, Except.bind]

theorem not_outOfFuel_ok {α : Type} (a : α) :
    ¬ OutOfFuel (.ok a : Except LoadError α) := by
  simp [OutOfFuel]

/-- Two computations agree when their first parts do and what follows agrees on
the results of these. -/
theorem agree_bind {α β : Type} {x y : Except LoadError α}
    {f g : α → Except LoadError β} (hxy : x = y ∧ ¬ OutOfFuel x)
    (hfg : ∀ a, x = .ok a → f a = g a ∧ ¬ OutOfFuel (f a)) :
    (x >>= f) = (y >>= g) ∧ ¬ OutOfFuel (x >>= f) := by
  obtain ⟨rfl, hfuel⟩ := hxy
  refine ⟨?_, ?_⟩
  · cases x with
    | error e => rfl
    | ok a => exact (hfg a rfl).1
  · rw [outOfFuel_bind]
    rintro (hout | ⟨a, hok, hout⟩)
    · exact hfuel hout
    · exact (hfg a hok).2 hout

theorem agree_pure {α : Type} (a : α) : (pure a : Except LoadError α) = pure a ∧
      ¬ OutOfFuel (pure a : Except LoadError α) :=
  ⟨rfl, not_outOfFuel_ok a⟩

/-- A part that both computations share. -/
theorem agree_self {α : Type} {x : Except LoadError α}
    (hordinary : ∀ error, x = .error error → error.kind.Ordinary) :
    x = x ∧ ¬ OutOfFuel x :=
  ⟨rfl, not_outOfFuel hordinary⟩

theorem evalTopList_agree {f g : UseFn (LoadState T I) T}
    (hok : UseOk fs loadPath (fun _ => True) f)
    (hagree : UseAgree fs loadPath n f g)
    (loader : Loader) (allow : AllowUse) (tops : List (Top T))
    (hinv : Invariant fs loadPath (fun _ => True) state)
    (hremaining : remaining fs state < n) :
    evalTopList f state loader allow tops =
        evalTopList g state loader allow tops ∧
      ¬ OutOfFuel (evalTopList f state loader allow tops) := by
  induction tops generalizing state with
  | nil => exact ⟨rfl, not_outOfFuel_ok _⟩
  | cons top tops ih =>
    simp only [evalTopList]
    have htop : evalTop f state loader allow top =
          evalTop g state loader allow top ∧
        ¬ OutOfFuel (evalTop f state loader allow top) := by
      cases top with
      | topdec topdecs => exact ⟨rfl, not_outOfFuel_ok _⟩
      | use path loc =>
        simp only [evalTop]
        apply agree_bind (hagree state loader (path, loc) hinv hremaining)
        rintro ⟨state₁, used⟩ -
        apply agree_bind (agree_self fun _ => checkAllowed_error)
        intro _ _
        exact agree_pure _
    apply agree_bind htop
    rintro ⟨state₁, first⟩ hfirst
    obtain ⟨hstep, -⟩ := evalTop_ok hok hfirst hinv
    have hle := remaining_le_of_extends fs hstep.extends_
    apply agree_bind (ih hstep.inv (by omega))
    intro _ _
    exact agree_pure _

theorem evalUnit_agree {f g : UseFn (LoadState T I) T}
    (hok : UseOk fs loadPath (fun _ => True) f)
    (hagree : UseAgree fs loadPath n f g)
    (loader : Loader) (abunit : UnitParseResult T)
    (hinv : Invariant fs loadPath (fun _ => True) state)
    (hremaining : remaining fs state < n) :
    evalUnit f state loader abunit = evalUnit g state loader abunit ∧
      ¬ OutOfFuel (evalUnit f state loader abunit) := by
  match abunit with
  | .eof => exact ⟨rfl, not_outOfFuel_ok _⟩
  | .unit ⟨.interface path loc, _, _⟩ =>
    exact ⟨rfl, by simp [evalUnit, OutOfFuel]⟩
  | .unit ⟨.nointerface, tops, _⟩ =>
    exact evalTopList_agree hok hagree loader .allowAll tops hinv hremaining

theorem evalIrequire_agree {u v : UseFn (LoadState T I) T} (hreq : RequireAgree fs loadPath n f g)
    (huse : UseAgree fs loadPath n u v) (mode : FileLoadMode) (irequire : Irequire)
    (hpath : loader.loadPath = loadPath)
    (hinv : Invariant fs loadPath (fun _ => True) state)
    (hremaining : remaining fs state < n) :
    evalIrequire f u state loader mode irequire =
        evalIrequire g v state loader mode irequire ∧
      ¬ OutOfFuel (evalIrequire f u state loader mode irequire) := by
  cases irequire with
  | require path options loc =>
    simp only [evalIrequire]
    apply agree_bind (hreq state loader _ _ hpath hinv hremaining)
    rintro ⟨state₁, loaded⟩ -
    apply agree_bind (agree_self fun _ => evalRequireOptions_error)
    intro _ _
    exact agree_pure _
  | localRequire path options loc =>
    simp only [evalIrequire]
    split
    · apply agree_bind (hreq state loader _ _ hpath hinv hremaining)
      rintro ⟨state₁, loaded⟩ -
      apply agree_bind (agree_self fun _ => evalRequireOptions_error)
      intro _ _
      exact agree_pure _
    · exact ⟨rfl, not_outOfFuel_ok _⟩
  | localUse path loc =>
    simp only [evalIrequire]
    split
    · apply agree_bind (huse state loader _ hinv hremaining)
      rintro ⟨state₁, used⟩ -
      exact agree_pure _
    · exact ⟨rfl, not_outOfFuel_ok _⟩

theorem evalIrequireList_agree {u v : UseFn (LoadState T I) T}
    (hreqOk : RequireOk fs loadPath (fun _ => True) f)
    (huseOk : UseOk fs loadPath (fun _ => True) u)
    (hreq : RequireAgree fs loadPath n f g)
    (huse : UseAgree fs loadPath n u v) (mode : FileLoadMode) (irequires : List Irequire)
    (hpath : loader.loadPath = loadPath)
    (hinv : Invariant fs loadPath (fun _ => True) state)
    (hremaining : remaining fs state < n) :
    evalIrequireList f u state loader mode irequires =
        evalIrequireList g v state loader mode irequires ∧
      ¬ OutOfFuel (evalIrequireList f u state loader mode irequires) := by
  induction irequires generalizing state with
  | nil => exact ⟨rfl, not_outOfFuel_ok _⟩
  | cons irequire irequires ih =>
    simp only [evalIrequireList]
    apply agree_bind
      (evalIrequire_agree hreq huse mode irequire hpath hinv hremaining)
    rintro ⟨state₁, first⟩ hfirst
    obtain ⟨hstep, -⟩ :=
      evalIrequire_ok hreqOk huseOk hfirst hpath trivial hinv
    have hle := remaining_le_of_extends fs hstep.extends_
    apply agree_bind (ih hstep.inv (by omega))
    rintro ⟨state₂, rest⟩ -
    cases first with
    | none => exact agree_pure _
    | some first => exact agree_pure _

theorem loadRequireList_agree (hreqOk : RequireOk fs loadPath (fun _ => True) f)
    (hreq : RequireAgree fs loadPath n f g) (mode : FileLoadMode)
    (pathLocs : List (FileOrPath × Loc)) (hpath : loader.loadPath = loadPath)
    (hinv : Invariant fs loadPath (fun _ => True) state)
    (hremaining : remaining fs state < n) :
    loadRequireList f state loader mode pathLocs =
        loadRequireList g state loader mode pathLocs ∧
      ¬ OutOfFuel (loadRequireList f state loader mode pathLocs) := by
  induction pathLocs generalizing state with
  | nil => exact ⟨rfl, not_outOfFuel_ok _⟩
  | cons pathLoc pathLocs ih =>
    simp only [loadRequireList]
    apply agree_bind (hreq state loader mode pathLoc hpath hinv hremaining)
    rintro ⟨state₁, first⟩ hfirst
    obtain ⟨hstep, -⟩ := hreqOk _ _ _ _ _ _ hfirst hpath trivial hinv
    have hle := remaining_le_of_extends fs hstep.extends_
    apply agree_bind (ih hstep.inv (by omega))
    intro _ _
    exact agree_pure _

theorem visitAndParseSmi_agree (state : LoadState T I) (loader : Loader)
    (filePathLoc : FileOrPath × Loc) :
    visitAndParseSmi fs state loader filePathLoc =
        visitAndParseSmi fs state loader filePathLoc ∧
      ¬ OutOfFuel (visitAndParseSmi fs state loader filePathLoc) := by
  refine ⟨rfl, ?_⟩
  rintro ⟨loc, herror⟩
  rcases visitAndParseSmi_error herror with hordinary | ⟨_, _, -, -, hkind⟩
  · exact hordinary
  · cases hkind

theorem visitAndParseSml_agree (state : LoadState T I) (loader : Loader)
    (filePathLoc : FileOrPath × Loc) :
    visitAndParseSml fs state loader filePathLoc =
        visitAndParseSml fs state loader filePathLoc ∧
      ¬ OutOfFuel (visitAndParseSml fs state loader filePathLoc) := by
  refine ⟨rfl, ?_⟩
  rintro ⟨loc, herror⟩
  rcases visitAndParseSml_error herror with hordinary | ⟨_, _, -, -, hkind⟩
  · exact hordinary
  · cases hkind

theorem loadUse_agree (fs : FileSystem T I) (loadPath : List Source)
    (fuel fuel' : Nat) : UseAgree fs loadPath (min fuel fuel') (loadUse fs fuel)
      (loadUse fs fuel') := by
  induction fuel generalizing fuel' with
  | zero =>
    intro state loader pathLoc hinv hremaining
    omega
  | succ fuel ih =>
    cases fuel' with
    | zero =>
      intro state loader pathLoc hinv hremaining
      omega
    | succ fuel' =>
      rintro state loader ⟨path, loc⟩ hinv hremaining
      simp only [loadUse]
      apply agree_bind (visitAndParseSml_agree state loader _)
      intro visited hvisited
      obtain ⟨source, hvisit, hcase⟩ := visitAndParseSml_cases hvisited
      rcases hcase with ⟨found, hfind, rfl⟩ | ⟨hnew, abunit, -, rfl⟩
      · exact agree_pure _
      · have hlt := remaining_start_lt (visitFile_mem hvisit) hnew
        apply agree_bind (evalUnit_agree
          (loadUse_ok fs loadPath (fun _ => True) fuel) (ih fuel')
          (fileLoader source []) abunit (hinv.start hnew) (by omega))
        rintro ⟨state₁, tops⟩ -
        apply agree_bind (agree_self fun _ => finish_error)
        intro _ _
        exact agree_pure _

theorem loadRequire_agree (fs : FileSystem T I) (loadPath : List Source)
    (fuel fuel' : Nat) :
    RequireAgree fs loadPath (min fuel fuel') (loadRequire fs fuel)
      (loadRequire fs fuel') := by
  have hP : ∀ mode : FileLoadMode, True → True := fun _ h => h
  induction fuel generalizing fuel' with
  | zero =>
    intro state loader mode filePathLoc hpath hinv hremaining
    omega
  | succ fuel ih =>
    cases fuel' with
    | zero =>
      intro state loader mode filePathLoc hpath hinv hremaining
      omega
    | succ fuel' =>
      intro state loader mode filePathLoc hpath hinv hremaining
      subst hpath
      have hreqOk := loadRequire_ok fs loader.loadPath (fun _ => True) hP fuel
      have huseOk := loadUse_ok fs loader.loadPath (fun _ => True) fuel
      simp only [loadRequire]
      apply agree_bind (visitAndParseSmi_agree state loader _)
      intro visited hvisited
      obtain ⟨source, hvisit, hcase⟩ := visitAndParseSmi_cases hvisited
      rcases hcase with ⟨found, hfind, rfl⟩ | ⟨hnew, parsed, -, rfl⟩
      · exact agree_pure _
      · have hlt := remaining_start_lt (visitFile_mem hvisit) hnew
        have hpath : (fileLoader source loader.loadPath).loadPath =
          loader.loadPath := rfl
        cases parsed with
        | includes includes topdecs =>
          apply agree_bind (loadRequireList_agree hreqOk (ih fuel') mode _
            hpath (hinv.start hnew) (by omega))
          rintro ⟨state₁, evaluated⟩ -
          apply agree_bind (agree_self fun _ => finish_error)
          intro _ _
          exact agree_pure _
        | interface requires provide =>
          apply agree_bind (evalIrequireList_agree hreqOk huseOk (ih fuel')
            (loadUse_agree fs loader.loadPath fuel fuel') mode requires
            hpath (hinv.start hnew) (by omega))
          rintro ⟨state₁, evaluated⟩ -
          apply agree_bind (agree_self fun _ => finish_error)
          intro _ _
          exact agree_pure _

end Agree

/-! ### Whole loads -/

theorem interfaceFileLoc_error {options : LoadOptions}
    {interface : InterfaceDecl}
    (hfile : interfaceFileLoc fs options interface = .error error) :
    error.kind.Ordinary := by
  cases interface with
  | nointerface =>
    simp only [interfaceFileLoc] at hfile
    split at hfile
    · cases hfile
    · split at hfile <;> cases hfile
  | interface path loc =>
    simp only [interfaceFileLoc] at hfile
    split at hfile
    · cases hfile
      exact trivial
    · split at hfile <;> cases hfile
      exact trivial

theorem realPath_error (hreal : realPath fs filename = .error error) :
    error.kind.Ordinary := by
  rw [realPath] at hreal
  split at hreal
  · cases hreal
  · split at hreal <;> cases hreal
    exact trivial

theorem baseFilenameReal_error {options : LoadOptions}
    (hbase : baseFilenameReal fs options = .error error) :
    error.kind.Ordinary := by
  unfold baseFilenameReal at hbase
  split at hbase
  · cases hbase
  · simp only [except_bind_error] at hbase
    rcases hbase with hreal | ⟨_, -, hpure⟩
    · exact realPath_error hreal
    · cases hpure

theorem removeBase_error {base : Option Filename} (hremove : removeBase base state = .error error) :
    error.kind.Ordinary := by
  cases base with
  | none => cases hremove
  | some file =>
    simp only [removeBase, except_bind_error] at hremove
    rcases hremove with hbug | ⟨_, -, hpure⟩
    · exact liftBug_error hbug
    · cases hpure

theorem listNodes_error {loaded : Assoc Filename (EvalResult T I)}
    (hnodes : listNodes loaded = .error error) :
    error.kind.Ordinary := by
  have hall : ∀ results : List (EvalResult T I), ∀ error,
      results.mapM EvalResult.node? = .error error → error.kind.Ordinary := by
    intro results
    induction results with
    | nil =>
      intro error hmap
      cases hmap
    | cons result results ih =>
      intro error hmap
      rw [List.mapM_cons, except_bind_error] at hmap
      rcases hmap with hnode | ⟨_, -, hmap⟩
      · cases result <;> cases hnode
        exact trivial
      · rw [except_bind_error] at hmap
        rcases hmap with hmap | ⟨_, -, hpure⟩
        · exact ih error hmap
        · cases hpure
  exact hall _ error hnodes

theorem checkHashDuplication_error {decs : List (InterfaceDec I)}
    {seen : List InterfaceName}
    (hcheck : checkHashDuplication decs seen = .error error) :
    error.kind.Ordinary := by
  induction decs generalizing seen with
  | nil => cases hcheck
  | cons dec decs ih =>
    simp only [checkHashDuplication] at hcheck
    split at hcheck
    · cases hcheck
      exact trivial
    · exact ih hcheck

theorem loadProvideInterface_agree {fuel fuel' : Nat} (mode : FileLoadMode)
    (interfaceFile : Option (FileOrPath × Loc))
    (hinv : Invariant fs loader.loadPath (fun _ => True) state)
    (hremaining : remaining fs state < min fuel fuel') :
    loadProvideInterface fs fuel state loader mode interfaceFile =
        loadProvideInterface fs fuel' state loader mode interfaceFile ∧
      ¬ OutOfFuel
        (loadProvideInterface fs fuel state loader mode interfaceFile) := by
  cases interfaceFile with
  | none => exact ⟨rfl, not_outOfFuel_ok _⟩
  | some filePathLoc =>
    simp only [loadProvideInterface]
    apply agree_bind (loadRequire_agree fs loader.loadPath fuel fuel' state
      loader mode filePathLoc rfl hinv hremaining)
    rintro ⟨state₁, result⟩ -
    apply agree_self
    intro error herror
    split at herror
    · cases herror
      exact trivial
    · simp only [except_bind_error] at herror
      rcases herror with hbug | ⟨_, -, hcheck | ⟨_, -, hpure⟩⟩
      · exact liftBug_error hbug
      · exact checkHashDuplication_error hcheck
      · cases hpure

theorem load_agree (fs : FileSystem T I) {fuel fuel' : Nat} (nextId : Nat)
    (options : LoadOptions) (unit : SmlUnit T)
    (hfuel : fs.files.length < fuel) (hfuel' : fs.files.length < fuel') :
    load fs fuel nextId options unit = load fs fuel' nextId options unit ∧
      ¬ OutOfFuel (load fs fuel nextId options unit) := by
  have hP : ∀ mode : FileLoadMode, True → True := fun _ h => h
  simp only [load]
  apply agree_bind (agree_self fun _ => interfaceFileLoc_error)
  rintro interfaceFile -
  apply agree_bind (agree_self fun _ => baseFilenameReal_error)
  rintro base -
  have hle := remaining_le_files fs (initialState base nextId : LoadState T I)
  have hinv : Invariant fs options.loadPath (fun _ => True)
      (initialState base nextId) :=
    invariant_of_done_nil (initialState_done base nextId)
  apply agree_bind (loadProvideInterface_agree options.loadMode interfaceFile
    hinv (by omega))
  rintro ⟨state₁, provided⟩ hprovide
  apply agree_bind (agree_self fun _ => removeBase_error)
  rintro state₂ hremove
  have hstep := loadProvideInterface_inv (P := fun _ => True) hP hprovide trivial
    (initialState_done base nextId)
  have hbase : ∀ file, base = some file → state₁.InProgress file := by
    intro file hfile
    rw [hstep.extends_.inProgress]
    exact (initialState_inProgress base nextId file).mpr hfile
  have hinv₂ := removeBase_inv hbase hremove hstep.inv
  have hle₂ := remaining_le_files fs state₂
  apply agree_bind (evalTopList_agree
    (loadUse_ok fs options.loadPath (fun _ => True) fuel)
    (loadUse_agree fs options.loadPath fuel fuel') _ _ unit.tops hinv₂ (by omega))
  rintro ⟨state₃, tops⟩ -
  apply agree_bind (agree_self fun _ => listNodes_error)
  intro _ _
  exact agree_pure _

end LoadFile

end SmlSharp
