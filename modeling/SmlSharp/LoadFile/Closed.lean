/-
The table of visited files is closed under dependencies: every completed entry
is the evaluation of its file over the entries before it.  This is the
invariant of the whole loader, proved once for every run.
-/
import SmlSharp.LoadFile.Run

namespace SmlSharp

namespace LoadFile

open InterfaceName

variable {T I : Type}

/-! ### What one step of the loader can do -/

/-- The loader for the references of a file. -/
def fileLoader (source : Source) (loadPath : List Source) : Loader :=
  ⟨.dir (source.1, Filename.dirname source.2), loadPath⟩

variable {fs : FileSystem T I} {loader : Loader} {filePathLoc : FileOrPath × Loc}
  {state : LoadState T I} {fuel : Nat} {state' : LoadState T I} {mode : FileLoadMode}
  {P : FileLoadMode → Prop} {filename : Filename} {result : EvalResult T I}
  {require : RequireFn (LoadState T I) T I}

theorem visitFile_loader {loader' : Loader} {source : Source}
    (hvisit : visitFile fs loader filePathLoc = .ok (loader', source)) :
    loader' = fileLoader source loader.loadPath := by
  simp only [visitFile, except_bind_ok, except_pure_ok] at hvisit
  obtain ⟨⟨place, filename⟩, -, real, -, hresult⟩ := hvisit
  cases hresult
  rfl

theorem liftParse_ok {α : Type} {loc : Loc} {x : Except String α} {parsed : α}
    (hparse : liftParse loc x = .ok parsed) : x = .ok parsed := by
  cases x with
  | ok value =>
    cases hparse
    rfl
  | error message => cases hparse

theorem visitAndParseSmi_cases {visited : NewOrLoaded (SmiResult T I) (Itop T I)}
    (hvisited : visitAndParseSmi fs state loader filePathLoc = .ok visited) :
    ∃ source, visitFile fs loader filePathLoc =
        .ok (fileLoader source loader.loadPath, source) ∧
      ((∃ result, state.loaded.find source.2 = some (.smi result) ∧
          visited = .loaded result) ∨ (state.loaded.find source.2 = none ∧
          ∃ parsed, fs.parseSmi source.2 = .ok parsed ∧
            visited = .new (fileLoader source loader.loadPath) parsed source)) := by
  simp only [visitAndParseSmi, except_bind_ok] at hvisited
  obtain ⟨⟨loader', source⟩, hvisit, hfound⟩ := hvisited
  have hloader := visitFile_loader hvisit
  subst hloader
  refine ⟨source, hvisit, ?_⟩
  split at hfound
  · next result hfind =>
      cases hfound
      exact Or.inl ⟨result, hfind, rfl⟩
  · cases hfound
  · cases hfound
  · next hfind =>
      simp only [except_bind_ok, except_pure_ok] at hfound
      obtain ⟨parsed, hparse, rfl⟩ := hfound
      exact Or.inr ⟨hfind, parsed, liftParse_ok hparse, rfl⟩

theorem visitAndParseSml_cases {visited : NewOrLoaded (SmlResult T) (UnitParseResult T)}
    (hvisited : visitAndParseSml fs state loader filePathLoc = .ok visited) :
    ∃ source, visitFile fs { loader with loadPath := [] } filePathLoc =
        .ok (fileLoader source [], source) ∧
      ((∃ result, state.loaded.find source.2 = some (.sml result) ∧
          visited = .loaded result) ∨
        (state.loaded.find source.2 = none ∧
          ∃ parsed, fs.parseSml source.2 = .ok parsed ∧
            visited = .new (fileLoader source []) parsed source)) := by
  simp only [visitAndParseSml, except_bind_ok] at hvisited
  obtain ⟨⟨loader', source⟩, hvisit, hfound⟩ := hvisited
  have hloader := visitFile_loader hvisit
  subst hloader
  refine ⟨source, hvisit, ?_⟩
  split at hfound
  · next result hfind =>
      cases hfound
      exact Or.inl ⟨result, hfind, rfl⟩
  · cases hfound
  · cases hfound
  · next hfind =>
      simp only [except_bind_ok, except_pure_ok] at hfound
      obtain ⟨parsed, hparse, rfl⟩ := hfound
      exact Or.inr ⟨hfind, parsed, liftParse_ok hparse, rfl⟩

/-- A successful `loadUse` finds the file completed or completes it. -/
theorem loadUse_cases {path : RequirePath.Path}
    {loc : Loc} {result : SmlResult T}
    (hload : loadUse fs fuel state loader (path, loc) = .ok (state', result)) :
    ∃ fuel' source, fuel = fuel' + 1 ∧
      visitFile fs { loader with loadPath := [] } (.path path, loc) =
        .ok (fileLoader source [], source) ∧
      ((∃ found, state.loaded.find source.2 = some (.sml found) ∧
          state' = state ∧ result = { found with loc := loc }) ∨
        (state.loaded.find source.2 = none ∧
          ∃ abunit state₁ tops, fs.parseSml source.2 = .ok abunit ∧
            evalUnit (loadUse fs fuel') (state.start source.2)
              (fileLoader source []) abunit = .ok (state₁, tops) ∧
            result = smlResult source loc tops ∧
            state₁.finish source.2 (.sml result) = .ok state')) := by
  cases fuel with
  | zero => cases hload
  | succ fuel =>
    simp only [loadUse, except_bind_ok] at hload
    obtain ⟨visited, hvisited, hload⟩ := hload
    obtain ⟨source, hvisit, hcase⟩ := visitAndParseSml_cases hvisited
    refine ⟨fuel, source, rfl, hvisit, ?_⟩
    rcases hcase with ⟨found, hfind, rfl⟩ | ⟨hfind, abunit, hparse, rfl⟩
    · cases hload
      exact Or.inl ⟨found, hfind, rfl, rfl⟩
    · simp only [except_bind_ok, except_pure_ok, Prod.mk.injEq] at hload
      obtain ⟨⟨state₁, tops⟩, heval, state₂, hfinish, rfl, rfl⟩ := hload
      exact Or.inr ⟨hfind, abunit, state₁, tops, hparse, heval, rfl, hfinish⟩

/-- A successful `loadRequire` finds the file completed, or completes an
include file or an interface. -/
theorem loadRequire_cases {result : SmiResult T I}
    (hload : loadRequire fs fuel state loader mode filePathLoc =
      .ok (state', result)) :
    ∃ fuel' source, fuel = fuel' + 1 ∧
      visitFile fs loader filePathLoc =
        .ok (fileLoader source loader.loadPath, source) ∧
      ((∃ found, state.loaded.find source.2 = some (.smi found) ∧
          state' = state ∧ result = { found with loc := filePathLoc.2 }) ∨
        (state.loaded.find source.2 = none ∧
          ∃ includes topdecs state₁ evaluated,
            fs.parseSmi source.2 = .ok (.includes includes topdecs) ∧
            loadRequireList (loadRequire fs fuel') (state.start source.2)
              (fileLoader source loader.loadPath) mode
              (includes.map fun entry => (.path entry.1, entry.2)) =
                .ok (state₁, evaluated) ∧
            result = includesResult source filePathLoc.2 topdecs evaluated ∧
            state₁.finish source.2 (.smi result) = .ok state') ∨
        (state.loaded.find source.2 = none ∧
          ∃ requires provide state₁ evaluated,
            fs.parseSmi source.2 = .ok (.interface requires provide) ∧
            evalIrequireList (loadRequire fs fuel') (loadUse fs fuel')
              (state.start source.2) (fileLoader source loader.loadPath) mode
              requires = .ok (state₁, evaluated) ∧
            result = interfaceResult fs state₁.nextId source filePathLoc.2
              provide evaluated ∧
            LoadState.finish { state₁ with nextId := state₁.nextId + 1 }
              source.2 (.smi result) = .ok state')) := by
  cases fuel with
  | zero => cases hload
  | succ fuel =>
    simp only [loadRequire, except_bind_ok] at hload
    obtain ⟨visited, hvisited, hload⟩ := hload
    obtain ⟨source, hvisit, hcase⟩ := visitAndParseSmi_cases hvisited
    refine ⟨fuel, source, rfl, hvisit, ?_⟩
    rcases hcase with ⟨found, hfind, rfl⟩ | ⟨hfind, parsed, hparse, rfl⟩
    · cases hload
      exact Or.inl ⟨found, hfind, rfl, rfl⟩
    · cases parsed with
      | includes includes topdecs =>
        simp only [except_bind_ok, except_pure_ok, Prod.mk.injEq] at hload
        obtain ⟨⟨state₁, evaluated⟩, heval, state₂, hfinish, rfl, rfl⟩ :=
          hload
        exact Or.inr (Or.inl ⟨hfind, includes, topdecs, state₁, evaluated,
          hparse, heval, rfl, hfinish⟩)
      | interface requires provide =>
        simp only [except_bind_ok, except_pure_ok, Prod.mk.injEq] at hload
        obtain ⟨⟨state₁, evaluated⟩, heval, state₂, hfinish, rfl, rfl⟩ :=
          hload
        exact Or.inr (Or.inr ⟨hfind, requires, provide, state₁, evaluated,
          hparse, heval, rfl, hfinish⟩)

/-! ### The invariant -/

/-- `result` is what the file evaluates to over the entries `done`.  `loadPath`
is the load path of the whole load, and `P` holds of the modes in use. -/
inductive EntryOk (fs : FileSystem T I) (loadPath : List Source)
    (P : FileLoadMode → Prop) (done : Entries T I) :
    Filename → EvalResult T I → Prop
  | sml {source : Source} {abunit : UnitParseResult T} {tops : TopsResult T}
      (loc : Loc)
      (parse : fs.parseSml source.2 = .ok abunit)
      (eval : evalUnit (lookupUse fs done) () (fileLoader source []) abunit =
        .ok ((), tops)) :
      EntryOk fs loadPath P done source.2 (.sml (smlResult source loc tops))
  | includes {source : Source} {includes : List (RequirePath.Path × Loc)}
      {topdecs : List T} {mode : FileLoadMode}
      {evaluated : IncludesResult T I} (loc : Loc)
      (parse : fs.parseSmi source.2 = .ok (.includes includes topdecs))
      (hmode : P mode)
      (eval : loadRequireList (lookupRequire fs done) ()
        (fileLoader source loadPath) mode
        (includes.map fun entry => (.path entry.1, entry.2)) =
          .ok ((), evaluated)) :
      EntryOk fs loadPath P done source.2
        (.smi (includesResult source loc topdecs evaluated))
  | interface {source : Source} {requires : List Irequire} {provide : List I}
      {mode : FileLoadMode} {evaluated : RequiresResult T I} (id : Nat)
      (loc : Loc)
      (parse : fs.parseSmi source.2 = .ok (.interface requires provide))
      (hmode : P mode)
      (eval : evalIrequireList (lookupRequire fs done) (lookupUse fs done) ()
        (fileLoader source loadPath) mode requires = .ok ((), evaluated)) :
      EntryOk fs loadPath P done source.2
        (.smi (interfaceResult fs id source loc provide evaluated))

/-- Every entry is the evaluation of its file over the entries before it. -/
def Closed (fs : FileSystem T I) (loadPath : List Source)
    (P : FileLoadMode → Prop) (done : Entries T I) : Prop :=
  ∀ pre filename result post, done = pre ++ (filename, result) :: post →
    EntryOk fs loadPath P pre filename result

theorem closed_nil (fs : FileSystem T I) (loadPath : List Source)
    (P : FileLoadMode → Prop) : Closed fs loadPath P [] := by
  intro pre filename result post heq
  simp at heq

theorem Closed.snoc {done : Entries T I} (hclosed : Closed fs loadPath P done)
    (hentry : EntryOk fs loadPath P done filename result) :
    Closed fs loadPath P (done ++ [(filename, result)]) := by
  intro pre filename' result' post heq
  rcases List.eq_nil_or_concat post with rfl | ⟨init, last, rfl⟩
  · obtain ⟨rfl, hlast⟩ := List.append_inj' heq rfl
    cases hlast
    exact hentry
  · have heq' : done ++ [(filename, result)] =
        (pre ++ (filename', result') :: init) ++ [last] := by simpa using heq
    obtain ⟨hdone, -⟩ := List.append_inj' heq' rfl
    exact hclosed pre filename' result' init hdone

/-- The declarations of the completed interfaces, in the order of completion. -/
def interfaceDecsOf (done : Entries T I) : List (InterfaceDec I) :=
  done.filterMap fun entry => entry.2.interfaceDec?

/-- The identifiers of the completed interfaces, in the order of completion. -/
def interfaceIds (done : Entries T I) : List Nat :=
  done.filterMap fun entry => entry.2.interfaceDec?.map InterfaceDec.interfaceId

/-- The invariant of a load. -/
structure Invariant (fs : FileSystem T I) (loadPath : List Source)
    (P : FileLoadMode → Prop) (state : LoadState T I) : Prop where
  closed : Closed fs loadPath P state.done
  idsAscend : (interfaceIds state.done).Pairwise (· < ·)
  idsUsed : ∀ id ∈ interfaceIds state.done, id < state.nextId

theorem Invariant.start {fs : FileSystem T I} {loadPath : List Source}
    {P : FileLoadMode → Prop} {state : LoadState T I} {filename : Filename}
    (hinv : Invariant fs loadPath P state)
    (hnew : state.loaded.find filename = none) :
    Invariant fs loadPath P (state.start filename) := by
  have hdone := state.start_done hnew
  exact ⟨hdone ▸ hinv.closed, hdone ▸ hinv.idsAscend, hdone ▸ hinv.idsUsed⟩

/-- The entry of a file without an interface keeps the invariant. -/
theorem Invariant.snoc {fs : FileSystem T I} {loadPath : List Source}
    {P : FileLoadMode → Prop} {state state' : LoadState T I}
    {filename : Filename} {result : EvalResult T I}
    (hinv : Invariant fs loadPath P state)
    (hentry : EntryOk fs loadPath P state.done filename result)
    (hdone : state'.done = state.done ++ [(filename, result)])
    (hnext : state.nextId ≤ state'.nextId)
    (hdec : ∀ dec, result.interfaceDec? = some dec →
      dec.interfaceId = state.nextId ∧ state.nextId < state'.nextId) :
    Invariant fs loadPath P state' := by
  have hids : interfaceIds state'.done = interfaceIds state.done ++
      (result.interfaceDec?.map InterfaceDec.interfaceId).toList := by
    rw [hdone, interfaceIds, List.filterMap_append]
    cases hresult : result.interfaceDec? <;> simp [interfaceIds, hresult]
  refine ⟨hdone ▸ hinv.closed.snoc hentry, ?_, ?_⟩
  · rw [hids, List.pairwise_append]
    refine ⟨hinv.idsAscend, by cases result.interfaceDec? <;> simp, ?_⟩
    intro old hold new hnew
    simp only [Option.mem_toList, Option.map_eq_some_iff] at hnew
    obtain ⟨dec, hresult, rfl⟩ := hnew
    rw [(hdec dec hresult).1]
    exact hinv.idsUsed old hold
  · intro id hid
    rw [hids, List.mem_append] at hid
    rcases hid with hid | hid
    · exact lt_of_lt_of_le (hinv.idsUsed id hid) hnext
    · simp only [Option.mem_toList, Option.map_eq_some_iff] at hid
      obtain ⟨dec, hresult, rfl⟩ := hid
      rw [(hdec dec hresult).1]
      exact (hdec dec hresult).2

/-! ### The invariant over runs -/

section Spec

variable {fs : FileSystem T I} {loadPath : List Source}
  {P : FileLoadMode → Prop}

/-- What is proved of a step of the loader that reaches `state'`. -/
structure StepOk (fs : FileSystem T I) (loadPath : List Source)
    (P : FileLoadMode → Prop) (state state' : LoadState T I) : Prop where
  inv : Invariant fs loadPath P state'
  extends_ : state.Extends state'

theorem StepOk.refl {state : LoadState T I}
    (hinv : Invariant fs loadPath P state) : StepOk fs loadPath P state state :=
  ⟨hinv, LoadState.Extends.refl state⟩

theorem StepOk.trans {state₁ state₂ state₃ : LoadState T I}
    (first : StepOk fs loadPath P state₁ state₂)
    (rest : StepOk fs loadPath P state₂ state₃) :
    StepOk fs loadPath P state₁ state₃ :=
  ⟨rest.inv, first.extends_.trans rest.extends_⟩

/-- A load of a `_use`d file keeps the invariant, completes no interface, and
its result is the one found in the table afterwards. -/
def UseOk (fs : FileSystem T I) (loadPath : List Source)
    (P : FileLoadMode → Prop) (use : UseFn (LoadState T I) T) : Prop :=
  ∀ state loader pathLoc state' result,
    use state loader pathLoc = .ok (state', result) →
    Invariant fs loadPath P state →
    StepOk fs loadPath P state state' ∧
      interfaceDecsOf state'.done = interfaceDecsOf state.done ∧
      lookupUse fs state'.done () loader pathLoc = .ok ((), result)

/-- The same for a load of an interface file in a mode in use. -/
def RequireOk (fs : FileSystem T I) (loadPath : List Source)
    (P : FileLoadMode → Prop) (require : RequireFn (LoadState T I) T I) : Prop :=
  ∀ state loader mode filePathLoc state' result,
    require state loader mode filePathLoc = .ok (state', result) →
    loader.loadPath = loadPath → P mode →
    Invariant fs loadPath P state →
    StepOk fs loadPath P state state' ∧
      lookupRequire fs state'.done () loader mode filePathLoc =
        .ok ((), result)

theorem evalTop_ok {use : UseFn (LoadState T I) T}
    (huse : UseOk fs loadPath P use) {allow : AllowUse} {top : Top T} {result : TopResult T}
    (heval : evalTop use state loader allow top = .ok (state', result))
    (hinv : Invariant fs loadPath P state) : StepOk fs loadPath P state state' ∧
      interfaceDecsOf state'.done = interfaceDecsOf state.done ∧
      evalTop (lookupUse fs state'.done) () loader allow top =
        .ok ((), result) := by
  cases top with
  | topdec topdecs =>
    cases heval
    exact ⟨StepOk.refl hinv, rfl, rfl⟩
  | use path loc =>
    simp only [evalTop, except_bind_ok] at heval ⊢
    obtain ⟨⟨state₁, used⟩, hload, ⟨⟨⟩, hallow, hresult⟩⟩ := heval
    simp only [except_pure_ok, Prod.mk.injEq] at hresult
    obtain ⟨rfl, rfl⟩ := hresult
    obtain ⟨hstep, hdecs, hlookup⟩ := huse _ _ _ _ _ hload hinv
    exact ⟨hstep, hdecs, ((), used), hlookup, (), hallow, rfl⟩

theorem evalTopList_ok {use : UseFn (LoadState T I) T}
    (huse : UseOk fs loadPath P use) {allow : AllowUse} {tops : List (Top T)}
    {result : TopsResult T}
    (heval : evalTopList use state loader allow tops = .ok (state', result))
    (hinv : Invariant fs loadPath P state) : StepOk fs loadPath P state state' ∧
      interfaceDecsOf state'.done = interfaceDecsOf state.done ∧
      evalTopList (lookupUse fs state'.done) () loader allow tops =
        .ok ((), result) := by
  induction tops generalizing state result with
  | nil =>
    cases heval
    exact ⟨StepOk.refl hinv, rfl, rfl⟩
  | cons top tops ih =>
    simp only [evalTopList, except_bind_ok] at heval ⊢
    obtain ⟨⟨state₁, first⟩, hfirst, ⟨state₂, rest⟩, hrest, hresult⟩ := heval
    simp only [except_pure_ok, Prod.mk.injEq] at hresult
    obtain ⟨rfl, rfl⟩ := hresult
    obtain ⟨hstep₁, hdecs₁, hlookup₁⟩ := evalTop_ok huse hfirst hinv
    obtain ⟨hstep₂, hdecs₂, hlookup₂⟩ := ih hrest hstep₁.inv
    have hle := lookupUse_mono fs hstep₂.extends_.done
    exact ⟨hstep₁.trans hstep₂, hdecs₂.trans hdecs₁, ((), first), evalTop_mono hle hlookup₁,
      ((), rest), hlookup₂, rfl⟩

theorem evalUnit_ok {use : UseFn (LoadState T I) T}
    (huse : UseOk fs loadPath P use) {abunit : UnitParseResult T} {result : TopsResult T}
    (heval : evalUnit use state loader abunit = .ok (state', result))
    (hinv : Invariant fs loadPath P state) : StepOk fs loadPath P state state' ∧
      interfaceDecsOf state'.done = interfaceDecsOf state.done ∧
      evalUnit (lookupUse fs state'.done) () loader abunit =
        .ok ((), result) := by
  match abunit with
  | .eof =>
    cases heval
    exact ⟨StepOk.refl hinv, rfl, rfl⟩
  | .unit ⟨.interface path loc, _, _⟩ => cases heval
  | .unit ⟨.nointerface, tops, _⟩ => exact evalTopList_ok huse heval hinv

theorem evalIrequire_ok {use : UseFn (LoadState T I) T} (hreq : RequireOk fs loadPath P require)
    (huse : UseOk fs loadPath P use)
    {irequire : Irequire} {result : Option (RequiresResult T I)}
    (heval : evalIrequire require use state loader mode irequire =
      .ok (state', result))
    (hpath : loader.loadPath = loadPath) (hmode : P (nextMode mode))
    (hinv : Invariant fs loadPath P state) : StepOk fs loadPath P state state' ∧
      evalIrequire (lookupRequire fs state'.done) (lookupUse fs state'.done) ()
        loader mode irequire = .ok ((), result) := by
  cases irequire with
  | require path options loc =>
    simp only [evalIrequire, except_bind_ok] at heval ⊢
    obtain ⟨⟨state₁, loaded⟩, hload, options', hoptions, hresult⟩ := heval
    simp only [except_pure_ok, Prod.mk.injEq] at hresult
    obtain ⟨rfl, rfl⟩ := hresult
    obtain ⟨hstep, hlookup⟩ := hreq _ _ _ _ _ _ hload hpath hmode hinv
    exact ⟨hstep, ((), loaded), hlookup, options', hoptions, rfl⟩
  | localRequire path options loc =>
    simp only [evalIrequire] at heval ⊢
    by_cases hfollow : followsLocalRequire mode (baseDirPlace loader) = true
    · simp only [hfollow, ↓reduceIte, except_bind_ok] at heval ⊢
      obtain ⟨⟨state₁, loaded⟩, hload, options', hoptions, hresult⟩ := heval
      simp only [except_pure_ok, Prod.mk.injEq] at hresult
      obtain ⟨rfl, rfl⟩ := hresult
      obtain ⟨hstep, hlookup⟩ := hreq _ _ _ _ _ _ hload hpath hmode hinv
      exact ⟨hstep, ((), loaded), hlookup, options', hoptions, rfl⟩
    · simp only [hfollow, Bool.false_eq_true, ↓reduceIte, Except.ok.injEq,
        Prod.mk.injEq] at heval ⊢
      obtain ⟨rfl, rfl⟩ := heval
      exact ⟨StepOk.refl hinv, trivial, rfl⟩
  | localUse path loc =>
    simp only [evalIrequire] at heval ⊢
    by_cases hfollow : followsLocalUse mode (baseDirPlace loader) = true
    · simp only [hfollow, ↓reduceIte, except_bind_ok] at heval ⊢
      obtain ⟨⟨state₁, used⟩, hload, hresult⟩ := heval
      simp only [except_pure_ok, Prod.mk.injEq] at hresult
      obtain ⟨rfl, rfl⟩ := hresult
      obtain ⟨hstep, -, hlookup⟩ := huse _ _ _ _ _ hload hinv
      exact ⟨hstep, ((), used), hlookup, rfl⟩
    · simp only [hfollow, Bool.false_eq_true, ↓reduceIte, Except.ok.injEq,
        Prod.mk.injEq] at heval ⊢
      obtain ⟨rfl, rfl⟩ := heval
      exact ⟨StepOk.refl hinv, trivial, rfl⟩

theorem evalIrequireList_ok
    {use : UseFn (LoadState T I) T} (hreq : RequireOk fs loadPath P require)
    (huse : UseOk fs loadPath P use)
    {irequires : List Irequire} {result : RequiresResult T I}
    (heval : evalIrequireList require use state loader mode irequires =
      .ok (state', result))
    (hpath : loader.loadPath = loadPath) (hmode : P (nextMode mode))
    (hinv : Invariant fs loadPath P state) : StepOk fs loadPath P state state' ∧
      evalIrequireList (lookupRequire fs state'.done)
        (lookupUse fs state'.done) () loader mode irequires =
          .ok ((), result) := by
  induction irequires generalizing state result with
  | nil =>
    cases heval
    exact ⟨StepOk.refl hinv, rfl⟩
  | cons irequire irequires ih =>
    simp only [evalIrequireList, except_bind_ok] at heval ⊢
    obtain ⟨⟨state₁, first⟩, hfirst, ⟨state₂, rest⟩, hrest, hresult⟩ := heval
    have hstate : state₂ = state' := by
      cases first <;> simp_all [except_pure_ok]
    subst hstate
    obtain ⟨hstep₁, hlookup₁⟩ :=
      evalIrequire_ok hreq huse hfirst hpath hmode hinv
    obtain ⟨hstep₂, hlookup₂⟩ := ih hrest hstep₁.inv
    have hpre := hstep₂.extends_.done
    refine ⟨hstep₁.trans hstep₂, ((), first),
      evalIrequire_mono (lookupRequire_mono fs hpre)
        (lookupUse_mono fs hpre) hlookup₁, ((), rest), hlookup₂, ?_⟩
    cases first <;> simp_all [except_pure_ok]

theorem loadRequireList_ok (hreq : RequireOk fs loadPath P require)
    {pathLocs : List (FileOrPath × Loc)} {result : IncludesResult T I}
    (heval : loadRequireList require state loader mode pathLocs =
      .ok (state', result))
    (hpath : loader.loadPath = loadPath) (hmode : P mode)
    (hinv : Invariant fs loadPath P state) : StepOk fs loadPath P state state' ∧
      loadRequireList (lookupRequire fs state'.done) () loader mode pathLocs =
        .ok ((), result) := by
  induction pathLocs generalizing state result with
  | nil =>
    cases heval
    exact ⟨StepOk.refl hinv, rfl⟩
  | cons pathLoc pathLocs ih =>
    simp only [loadRequireList, except_bind_ok] at heval ⊢
    obtain ⟨⟨state₁, first⟩, hfirst, ⟨state₂, rest⟩, hrest, hresult⟩ := heval
    simp only [except_pure_ok, Prod.mk.injEq] at hresult
    obtain ⟨rfl, rfl⟩ := hresult
    obtain ⟨hstep₁, hlookup₁⟩ := hreq _ _ _ _ _ _ hfirst hpath hmode hinv
    obtain ⟨hstep₂, hlookup₂⟩ := ih hrest hstep₁.inv
    have hle := lookupRequire_mono fs hstep₂.extends_.done
    exact ⟨hstep₁.trans hstep₂, ((), first), hle _ _ _ _ hlookup₁,
      ((), rest), hlookup₂, rfl⟩

/-- Loading a new file: the mark is set, the references are evaluated, and the
mark gives way to the entry at the end of the table. -/
theorem finish_ok {state₁ state₂ : LoadState T I}
    (hnew : state.loaded.find filename = none)
    (hstep : StepOk fs loadPath P (state.start filename) state₁)
    (hloaded : state₂.loaded = state₁.loaded)
    (hnext : state₁.nextId ≤ state₂.nextId)
    (hdec : ∀ dec, result.interfaceDec? = some dec →
      dec.interfaceId = state₁.nextId ∧ state₁.nextId < state₂.nextId)
    (hresult : result.isCycle = false)
    (hentry : EntryOk fs loadPath P state₁.done filename result)
    (hfinish : state₂.finish filename result = .ok state') :
    StepOk fs loadPath P state state' ∧
      findDone state'.done filename = some result ∧
      state'.done = state₁.done ++ [(filename, result)] := by
  have hsame : state₂.done = state₁.done := by
    simp only [LoadState.done, hloaded]
  have hmark : state₂.InProgress filename := by
    have hstart : (state.start filename).InProgress filename :=
      (state.start_inProgress filename filename).mpr (Or.inl rfl)
    unfold LoadState.InProgress
    rw [hloaded]
    exact (hstep.extends_.inProgress filename).mpr hstart
  obtain ⟨hdone, hnext', hprogress⟩ :=
    LoadState.finish_spec hmark hresult hfinish
  rw [hsame] at hdone
  have hnotIn : ¬ state.InProgress filename := by
    unfold LoadState.InProgress
    simp [hnew]
  have hinv : Invariant fs loadPath P state' := by
    refine hstep.inv.snoc hentry hdone (hnext'.symm ▸ hnext) ?_
    intro dec hsome
    exact hnext'.symm ▸ hdec dec hsome
  refine ⟨⟨hinv, ⟨?_, fun filename' => ?_⟩⟩, ?_, hdone⟩
  · rw [hdone, ← state.start_done hnew]
    exact hstep.extends_.done.trans (List.prefix_append _ _)
  · rw [hprogress]
    have hmiddle : state₂.InProgress filename' ↔
        (state.start filename).InProgress filename' := by
      unfold LoadState.InProgress
      rw [hloaded]
      exact hstep.extends_.inProgress filename'
    rw [hmiddle, state.start_inProgress]
    constructor
    · rintro ⟨rfl | hold, hne⟩
      · exact absurd rfl hne
      · exact hold
    · intro hold
      exact ⟨Or.inr hold, fun heq => hnotIn (heq ▸ hold)⟩
  · apply findDone_of_mem state'.done_keys_nodup
    simp [hdone]

theorem loadUse_ok (fs : FileSystem T I) (loadPath : List Source)
    (P : FileLoadMode → Prop) (fuel : Nat) :
    UseOk fs loadPath P (loadUse fs fuel) := by
  induction fuel with
  | zero =>
    intro state loader pathLoc state' result hload
    cases hload
  | succ fuel ih =>
    rintro state loader ⟨path, loc⟩ state' result hload hinv
    obtain ⟨fuel', source, hfuel, hvisit, hcase⟩ := loadUse_cases hload
    cases hfuel
    rcases hcase with ⟨found, hfind, rfl, rfl⟩ |
      ⟨hnew, abunit, state₁, tops, hparse, heval, rfl, hfinish⟩
    · refine ⟨StepOk.refl hinv, rfl, lookupUse_ok.mpr
        ⟨_, source, found, hvisit, ?_, rfl⟩⟩
      exact (state'.findDone_done _ _).mpr ⟨hfind, rfl⟩
    · obtain ⟨hstep, hdecs, hlookup⟩ :=
        evalUnit_ok ih heval (hinv.start hnew)
      obtain ⟨hok, hfound, hdone⟩ := finish_ok hnew hstep rfl le_rfl
        (by intro dec hsome; cases hsome) rfl
        (EntryOk.sml loc hparse hlookup) hfinish
      refine ⟨hok, ?_, lookupUse_ok.mpr ⟨_, source, _, hvisit, hfound, rfl⟩⟩
      rw [state.start_done hnew] at hdecs
      rw [hdone, ← hdecs]
      simp [interfaceDecsOf, EvalResult.interfaceDec?]

theorem loadRequire_ok (fs : FileSystem T I) (loadPath : List Source)
    (P : FileLoadMode → Prop) (hP : ∀ mode, P mode → P (nextMode mode))
    (fuel : Nat) : RequireOk fs loadPath P (loadRequire fs fuel) := by
  induction fuel with
  | zero =>
    intro state loader mode filePathLoc state' result hload
    cases hload
  | succ fuel ih =>
    intro state loader mode filePathLoc state' result hload hpath hmode hinv
    obtain ⟨fuel', source, hfuel, hvisit, hcase⟩ := loadRequire_cases hload
    cases hfuel
    subst hpath
    rcases hcase with ⟨found, hfind, rfl, rfl⟩ |
      ⟨hnew, includes, topdecs, state₁, evaluated, hparse, heval, rfl,
        hfinish⟩ |
      ⟨hnew, requires, provide, state₁, evaluated, hparse, heval, rfl,
        hfinish⟩
    · refine ⟨StepOk.refl hinv, lookupRequire_ok.mpr
        ⟨_, source, found, hvisit, ?_, rfl⟩⟩
      exact (state'.findDone_done _ _).mpr ⟨hfind, rfl⟩
    · obtain ⟨hstep, hlookup⟩ :=
        loadRequireList_ok ih heval rfl hmode (hinv.start hnew)
      obtain ⟨hok, hfound, -⟩ := finish_ok hnew hstep rfl le_rfl
        (by intro dec hsome; cases hsome) rfl
        (EntryOk.includes filePathLoc.2 hparse hmode hlookup) hfinish
      exact ⟨hok, lookupRequire_ok.mpr ⟨_, source, _, hvisit, hfound, rfl⟩⟩
    · obtain ⟨hstep, hlookup⟩ := evalIrequireList_ok ih
        (loadUse_ok fs loader.loadPath P fuel) heval rfl (hP mode hmode)
        (hinv.start hnew)
      have hnext : { state₁ with nextId := state₁.nextId + 1 }.loaded =
        state₁.loaded := rfl
      obtain ⟨hok, hfound, -⟩ := finish_ok hnew hstep hnext (Nat.le_succ _)
        (by
          intro dec hsome
          cases hsome
          exact ⟨rfl, Nat.lt_succ_self _⟩) rfl
        (EntryOk.interface state₁.nextId filePathLoc.2 hparse hmode hlookup)
        hfinish
      exact ⟨hok, lookupRequire_ok.mpr ⟨_, source, _, hvisit, hfound, rfl⟩⟩

/-- A load that starts without completed entries completes its file last, over
the entries before it. -/
theorem loadRequire_last (hP : ∀ mode, P mode → P (nextMode mode)) {result : SmiResult T I}
    (hload : loadRequire fs fuel state loader mode filePathLoc =
      .ok (state', result)) (hmode : P (nextMode mode))
    (hinv : Invariant fs loader.loadPath P state)
    (hnone : state.done = []) (hdec : result.dec ≠ none) :
    ∃ state₁ source requires provide evaluated,
      visitFile fs loader filePathLoc =
        .ok (fileLoader source loader.loadPath, source) ∧
      state.loaded.find source.2 = none ∧
      fs.parseSmi source.2 = .ok (.interface requires provide) ∧
      StepOk fs loader.loadPath P (state.start source.2) state₁ ∧
      evalIrequireList (lookupRequire fs state₁.done)
        (lookupUse fs state₁.done) () (fileLoader source loader.loadPath) mode
        requires = .ok ((), evaluated) ∧
      result = interfaceResult fs state₁.nextId source filePathLoc.2 provide
        evaluated ∧ state'.done = state₁.done ++ [(source.2, .smi result)] ∧
      state'.nextId = state₁.nextId + 1 ∧
      ∀ filename, state'.InProgress filename ↔ state.InProgress filename := by
  obtain ⟨fuel', source, hfuel, hvisit, hcase⟩ := loadRequire_cases hload
  rcases hcase with ⟨found, hfind, rfl, rfl⟩ |
    ⟨-, includes, topdecs, state₁, evaluated, -, -, rfl, -⟩ |
    ⟨hnew, requires, provide, state₁, evaluated, hparse, heval, rfl,
      hfinish⟩
  · have hmem := (state'.mem_done_iff source.2 (.smi found)).mpr ⟨hfind, rfl⟩
    rw [hnone] at hmem
    cases hmem
  · exact absurd rfl hdec
  · obtain ⟨hstep, hlookup⟩ := evalIrequireList_ok
      (loadRequire_ok fs loader.loadPath P hP fuel')
      (loadUse_ok fs loader.loadPath P fuel') heval rfl hmode
      (hinv.start hnew)
    have hmark : state₁.InProgress source.2 :=
      (hstep.extends_.inProgress source.2).mpr
        ((state.start_inProgress source.2 source.2).mpr (Or.inl rfl))
    have hmark' : LoadState.InProgress
        { state₁ with nextId := state₁.nextId + 1 } source.2 := hmark
    obtain ⟨hdone, hnext, hprogress⟩ :=
      LoadState.finish_spec hmark' rfl hfinish
    refine ⟨state₁, source, requires, provide, evaluated, hvisit, hnew, hparse,
      hstep, hlookup, rfl, hdone, hnext, fun filename => ?_⟩
    have hnotIn : ¬ state.InProgress source.2 := by
      unfold LoadState.InProgress
      simp [hnew]
    rw [hprogress]
    have hmiddle := (hstep.extends_.inProgress filename).trans
      (state.start_inProgress source.2 filename)
    constructor
    · rintro ⟨hold, hne⟩
      exact (hmiddle.mp hold).resolve_left hne
    · intro hold
      exact ⟨hmiddle.mpr (Or.inr hold), fun heq => hnotIn (heq ▸ hold)⟩

end Spec

end LoadFile

end SmlSharp
