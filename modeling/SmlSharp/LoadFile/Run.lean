/-
What a successful load does to the table of visited files.  The completed
entries only grow at their end, the files in progress stay the same, and every
completed entry is what its file evaluates to when each file it refers to is
looked up among the entries completed before it.
-/
import SmlSharp.LoadFile.Loader
import SmlSharp.Lib.Except

namespace SmlSharp

namespace LoadFile

open InterfaceName

variable {T I : Type}

/-! ### Completed entries and files in progress -/

def EvalResult.isCycle : EvalResult T I → Bool
  | .cycle => true
  | _ => false

abbrev Entries (T I : Type) := List (Filename × EvalResult T I)

/-- The completed entries, in the order of completion. -/
def LoadState.done (state : LoadState T I) : Entries T I :=
  state.loaded.entries.filter fun entry => !entry.2.isCycle

def LoadState.InProgress (state : LoadState T I) (filename : Filename) : Prop :=
  state.loaded.find filename = some .cycle

def findDone (done : Entries T I) (filename : Filename) :
    Option (EvalResult T I) :=
  (done.find? fun entry => entry.1 = filename).map Prod.snd

variable {filename : Filename} {result : EvalResult T I} {pre : Entries T I} {loader : Loader}
  {mode : FileLoadMode} {f g : UseFn Unit T}

theorem mem_of_findDone {done : Entries T I} (hfind : findDone done filename = some result) :
    (filename, result) ∈ done := by
  simp only [findDone, Option.map_eq_some_iff] at hfind
  obtain ⟨⟨filename', result'⟩, hfind, rfl⟩ := hfind
  have hkey := List.find?_some hfind
  simp only [decide_eq_true_eq] at hkey
  exact hkey ▸ List.mem_of_find?_eq_some hfind

theorem findDone_append_of_some {post : Entries T I} (hfind : findDone pre filename = some result) :
    findDone (pre ++ post) filename = some result := by
  simp only [findDone, Option.map_eq_some_iff] at hfind ⊢
  obtain ⟨entry, hentry, hresult⟩ := hfind
  exact ⟨entry, by rw [List.find?_append, hentry]; rfl, hresult⟩

theorem findDone_of_prefix {done : Entries T I} (hpre : pre <+: done)
    (hfind : findDone pre filename = some result) :
    findDone done filename = some result := by
  obtain ⟨post, rfl⟩ := hpre
  exact findDone_append_of_some hfind

theorem findDone_eq_none_iff {done : Entries T I} :
    findDone done filename = none ↔ filename ∉ done.map Prod.fst := by
  simp only [findDone, Option.map_eq_none_iff, List.find?_eq_none,
    decide_eq_true_eq, List.mem_map, not_exists, not_and]

theorem findDone_of_mem {done : Entries T I}
    (hnodup : (done.map Prod.fst).Nodup) (hmem : (filename, result) ∈ done) :
    findDone done filename = some result := by
  induction done with
  | nil => cases hmem
  | cons entry rest ih =>
    obtain ⟨hhead, hrest⟩ := List.nodup_cons.mp hnodup
    rcases List.mem_cons.mp hmem with rfl | hmem
    · simp [findDone]
    · have hne : entry.1 ≠ filename := by
        rintro rfl
        exact hhead (List.mem_map.mpr ⟨_, hmem, rfl⟩)
      simpa [findDone, List.find?_cons, hne] using ih hrest hmem

theorem LoadState.done_keys_nodup (state : LoadState T I) :
    (state.done.map Prod.fst).Nodup :=
  state.loaded.entries_keys_nodup.sublist (List.filter_sublist.map Prod.fst)

theorem LoadState.mem_done_iff (state : LoadState T I) (filename : Filename)
    (result : EvalResult T I) : (filename, result) ∈ state.done ↔
      state.loaded.find filename = some result ∧ result.isCycle = false := by
  simp [done, Assoc.mem_entries_iff]

theorem LoadState.findDone_done (state : LoadState T I) (filename : Filename)
    (result : EvalResult T I) : findDone state.done filename = some result ↔
      state.loaded.find filename = some result ∧ result.isCycle = false := by
  rw [← mem_done_iff]
  exact ⟨mem_of_findDone, findDone_of_mem state.done_keys_nodup⟩

theorem LoadState.start_find (state : LoadState T I)
    (filename filename' : Filename) :
    (state.start filename).loaded.find filename' =
      if filename' = filename then some .cycle
      else state.loaded.find filename' :=
  Assoc.find_append _ _ _ _

theorem LoadState.start_done (state : LoadState T I)
    (hnew : state.loaded.find filename = none) :
    (state.start filename).done = state.done := by
  simp [done, start, Assoc.entries_append_new _ _ hnew, EvalResult.isCycle]

theorem LoadState.start_inProgress (state : LoadState T I)
    (filename filename' : Filename) :
    (state.start filename).InProgress filename' ↔
      filename' = filename ∨ state.InProgress filename' := by
  unfold InProgress
  rw [start_find]
  split <;> simp_all

/-- Finishing a file that is in progress appends its entry. -/
theorem LoadState.finish_spec {state state' : LoadState T I}
    (hmark : state.InProgress filename) (hresult : result.isCycle = false)
    (hfinish : state.finish filename result = .ok state') :
    state'.done = state.done ++ [(filename, result)] ∧
      state'.nextId = state.nextId ∧ ∀ filename', state'.InProgress filename' ↔
        state.InProgress filename' ∧ filename' ≠ filename := by
  simp only [finish, except_bind_ok, except_pure_ok] at hfinish
  obtain ⟨loaded, hremove, rfl⟩ := hfinish
  have hremove : state.loaded.remove filename = .ok loaded := by
    unfold liftBug at hremove
    split at hremove
    · cases hremove
      assumption
    · cases hremove
  have hnew : loaded.find filename = none := by
    rw [Assoc.find_remove hremove, if_pos rfl]
  refine ⟨?_, rfl, fun filename' => ?_⟩
  · have hkeep : ∀ entry ∈ state.loaded.entries,
        (decide (entry.1 ≠ filename) && !entry.2.isCycle) =
          !entry.2.isCycle := by
      rintro ⟨key, value⟩ hentry
      by_cases hkey : key = filename
      · subst hkey
        rw [Assoc.mem_entries_iff, hmark] at hentry
        cases hentry
        simp [EvalResult.isCycle]
      · simp [hkey]
    simp only [done, Assoc.entries_append_new _ _ hnew,
      Assoc.entries_remove hremove, List.filter_append, List.filter_filter]
    congr 1
    · apply List.filter_congr
      intro entry hentry
      rw [Bool.and_comm]
      exact hkeep entry hentry
    · simp [hresult]
  · simp only [InProgress, Assoc.find_append, Assoc.find_remove hremove]
    by_cases hkey : filename' = filename
    · subst hkey
      cases result <;> simp_all [EvalResult.isCycle]
    · simp [hkey]

/-- A load grows the completed entries at their end. -/
structure LoadState.Extends (state state' : LoadState T I) : Prop where
  done : state.done <+: state'.done
  inProgress : ∀ filename, state'.InProgress filename ↔ state.InProgress filename

theorem LoadState.Extends.refl (state : LoadState T I) : state.Extends state :=
  ⟨List.prefix_rfl, fun _ => Iff.rfl⟩

theorem LoadState.Extends.trans {state₁ state₂ state₃ : LoadState T I}
    (first : state₁.Extends state₂) (rest : state₂.Extends state₃) :
    state₁.Extends state₃ :=
  ⟨first.done.trans rest.done,
    fun filename => (rest.inProgress filename).trans (first.inProgress filename)⟩

/-! ### Evaluation by look-up -/

/-- `loadUse` on files that are all completed. -/
def lookupUse (fs : FileSystem T I) (done : Entries T I) : UseFn Unit T :=
  fun _ loader (path, loc) => do
    let (_, source) ← visitFile fs { loader with loadPath := [] } (.path path, loc)
    match findDone done source.2 with
    | some (.sml result) => return ((), { result with loc := loc })
    | _ => .error ⟨none, .bug "not completed"⟩

/-- `loadRequire` on files that are all completed. -/
def lookupRequire (fs : FileSystem T I) (done : Entries T I) :
    RequireFn Unit T I :=
  fun _ loader _ filePathLoc => do
    let (_, source) ← visitFile fs loader filePathLoc
    match findDone done source.2 with
    | some (.smi result) => return ((), { result with loc := filePathLoc.2 })
    | _ => .error ⟨none, .bug "not completed"⟩

theorem lookupUse_ok {fs : FileSystem T I} {done : Entries T I} {path : RequirePath.Path}
    {loc : Loc}
    {result : SmlResult T} :
    lookupUse fs done () loader (path, loc) = .ok ((), result) ↔
      ∃ loader' source found,
        visitFile fs { loader with loadPath := [] } (.path path, loc) =
          .ok (loader', source) ∧
        findDone done source.2 = some (.sml found) ∧
        result = { found with loc := loc } := by
  simp only [lookupUse, except_bind_ok]
  constructor
  · rintro ⟨⟨loader', source⟩, hvisit, hfound⟩
    refine ⟨loader', source, ?_⟩
    split at hfound
    · next found hfind => cases hfound; exact ⟨found, hvisit, hfind, rfl⟩
    · cases hfound
  · rintro ⟨loader', source, found, hvisit, hfind, rfl⟩
    exact ⟨(loader', source), hvisit, by simp [hfind, pure, Except.pure]⟩

theorem lookupRequire_ok {fs : FileSystem T I} {done : Entries T I} {filePathLoc : FileOrPath × Loc}
    {result : SmiResult T I} :
    lookupRequire fs done () loader mode filePathLoc = .ok ((), result) ↔
      ∃ loader' source found,
        visitFile fs loader filePathLoc = .ok (loader', source) ∧
        findDone done source.2 = some (.smi found) ∧
        result = { found with loc := filePathLoc.2 } := by
  simp only [lookupRequire, except_bind_ok]
  constructor
  · rintro ⟨⟨loader', source⟩, hvisit, hfound⟩
    refine ⟨loader', source, ?_⟩
    split at hfound
    · next found hfind => cases hfound; exact ⟨found, hvisit, hfind, rfl⟩
    · cases hfound
  · rintro ⟨loader', source, found, hvisit, hfind, rfl⟩
    exact ⟨(loader', source), hvisit, by simp [hfind, pure, Except.pure]⟩

/-- One loading function agrees with another wherever it succeeds. -/
def UseFn.Le (f g : UseFn Unit T) : Prop :=
  ∀ loader pathLoc result, f () loader pathLoc = .ok ((), result) →
    g () loader pathLoc = .ok ((), result)

def RequireFn.Le (f g : RequireFn Unit T I) : Prop :=
  ∀ loader mode filePathLoc result,
    f () loader mode filePathLoc = .ok ((), result) →
    g () loader mode filePathLoc = .ok ((), result)

theorem lookupUse_mono (fs : FileSystem T I) {done : Entries T I}
    (hpre : pre <+: done) : (lookupUse fs pre).Le (lookupUse fs done) := by
  rintro loader ⟨path, loc⟩ result hlookup
  obtain ⟨loader', source, found, hvisit, hfind, hresult⟩ :=
    lookupUse_ok.mp hlookup
  exact lookupUse_ok.mpr
    ⟨loader', source, found, hvisit, findDone_of_prefix hpre hfind, hresult⟩

theorem lookupRequire_mono (fs : FileSystem T I) {done : Entries T I}
    (hpre : pre <+: done) :
    (lookupRequire fs pre).Le (lookupRequire fs done) := by
  intro loader mode filePathLoc result hlookup
  obtain ⟨loader', source, found, hvisit, hfind, hresult⟩ :=
    lookupRequire_ok.mp hlookup
  exact lookupRequire_ok.mpr
    ⟨loader', source, found, hvisit, findDone_of_prefix hpre hfind, hresult⟩

theorem evalTop_mono (hle : f.Le g)
    {allow : AllowUse} {top : Top T} {result : TopResult T}
    (heval : evalTop f () loader allow top = .ok ((), result)) :
    evalTop g () loader allow top = .ok ((), result) := by
  cases top with
  | topdec topdecs => exact heval
  | use path loc =>
    simp only [evalTop, except_bind_ok] at heval ⊢
    obtain ⟨⟨⟨⟩, used⟩, hload, hrest⟩ := heval
    exact ⟨((), used), hle _ _ _ hload, hrest⟩

theorem evalTopList_mono (hle : f.Le g)
    {allow : AllowUse} {tops : List (Top T)} {result : TopsResult T}
    (heval : evalTopList f () loader allow tops = .ok ((), result)) :
    evalTopList g () loader allow tops = .ok ((), result) := by
  induction tops generalizing result with
  | nil => exact heval
  | cons top tops ih =>
    simp only [evalTopList, except_bind_ok] at heval ⊢
    obtain ⟨⟨⟨⟩, first⟩, hfirst, ⟨⟨⟩, rest⟩, hrest, hresult⟩ := heval
    exact ⟨((), first), evalTop_mono hle hfirst, ((), rest), ih hrest, hresult⟩

theorem evalUnit_mono (hle : f.Le g)
    {abunit : UnitParseResult T} {result : TopsResult T}
    (heval : evalUnit f () loader abunit = .ok ((), result)) :
    evalUnit g () loader abunit = .ok ((), result) := by
  match abunit with
  | .eof => exact heval
  | .unit ⟨.interface path loc, _, _⟩ => cases heval
  | .unit ⟨.nointerface, tops, _⟩ => exact evalTopList_mono hle heval

theorem evalIrequire_mono {f g : RequireFn Unit T I} {u v : UseFn Unit T}
    (hreq : f.Le g) (huse : u.Le v)
    {irequire : Irequire} {result : Option (RequiresResult T I)}
    (heval : evalIrequire f u () loader mode irequire = .ok ((), result)) :
    evalIrequire g v () loader mode irequire = .ok ((), result) := by
  cases irequire with
  | require path options loc =>
    simp only [evalIrequire, except_bind_ok] at heval ⊢
    obtain ⟨⟨⟨⟩, loaded⟩, hload, hrest⟩ := heval
    exact ⟨((), loaded), hreq _ _ _ _ hload, hrest⟩
  | localRequire path options loc =>
    simp only [evalIrequire] at heval ⊢
    by_cases hfollow : followsLocalRequire mode (baseDirPlace loader) = true
    · simp only [hfollow, ↓reduceIte, except_bind_ok] at heval ⊢
      obtain ⟨⟨⟨⟩, loaded⟩, hload, hrest⟩ := heval
      exact ⟨((), loaded), hreq _ _ _ _ hload, hrest⟩
    · simpa [hfollow] using heval
  | localUse path loc =>
    simp only [evalIrequire] at heval ⊢
    by_cases hfollow : followsLocalUse mode (baseDirPlace loader) = true
    · simp only [hfollow, ↓reduceIte, except_bind_ok] at heval ⊢
      obtain ⟨⟨⟨⟩, loaded⟩, hload, hrest⟩ := heval
      exact ⟨((), loaded), huse _ _ _ hload, hrest⟩
    · simpa [hfollow] using heval

theorem evalIrequireList_mono {f g : RequireFn Unit T I} {u v : UseFn Unit T}
    (hreq : f.Le g) (huse : u.Le v)
    {irequires : List Irequire} {result : RequiresResult T I}
    (heval : evalIrequireList f u () loader mode irequires = .ok ((), result)) :
    evalIrequireList g v () loader mode irequires = .ok ((), result) := by
  induction irequires generalizing result with
  | nil => exact heval
  | cons irequire irequires ih =>
    simp only [evalIrequireList, except_bind_ok] at heval ⊢
    obtain ⟨⟨⟨⟩, first⟩, hfirst, ⟨⟨⟩, rest⟩, hrest, hresult⟩ := heval
    exact ⟨((), first), evalIrequire_mono hreq huse hfirst,
      ((), rest), ih hrest, hresult⟩

theorem loadRequireList_mono {f g : RequireFn Unit T I} (hreq : f.Le g)
    {pathLocs : List (FileOrPath × Loc)} {result : IncludesResult T I}
    (heval : loadRequireList f () loader mode pathLocs = .ok ((), result)) :
    loadRequireList g () loader mode pathLocs = .ok ((), result) := by
  induction pathLocs generalizing result with
  | nil => exact heval
  | cons pathLoc pathLocs ih =>
    simp only [loadRequireList, except_bind_ok] at heval ⊢
    obtain ⟨⟨⟨⟩, first⟩, hfirst, ⟨⟨⟩, rest⟩, hrest, hresult⟩ := heval
    exact ⟨((), first), hreq _ _ _ _ hfirst, ((), rest), ih hrest, hresult⟩

end LoadFile

end SmlSharp
