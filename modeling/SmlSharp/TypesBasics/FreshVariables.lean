/-
The fresh type variables of a substitution, and their depth.
-/
import Mathlib.Data.List.Range
import SmlSharp.Lib.KeyedList
import SmlSharp.TypesBasics.FreshSubst

namespace SmlSharp

namespace TypesBasics

/-- A bound variable with its kind, and the fresh variable for it. -/
structure FreshFor (lambdaDepth : Int) (utvarOpt : Option Utvar) (store store' : Store)
    (subst : List (Nat × Ty)) (entry : Nat × Kind) (fresh : Nat × Ty) : Prop where
  key : fresh.1 = entry.1
  cell : ∃ r kind', fresh.2 = .tyvarTy r ∧ store.length ≤ r ∧
    store'.get r = .tvar ⟨lambdaDepth, kind', utvarOpt⟩ ∧
    Converges (fun fuel => substBTvarKind store'.link subst fuel entry.2) kind'

/-- Every bound variable has a fresh variable of its own, of the depth and of the
substituted kind. -/
structure Freshens (lambdaDepth : Int) (utvarOpt : Option Utvar) (boundEnv : BoundEnv)
    (store : Store) (subst : List (Nat × Ty)) (store' : Store) : Prop where
  fresh : List.Forall₂ (FreshFor lambdaDepth utvarOpt store store' subst) boundEnv.entries
    subst
  distinct : (subst.map Prod.snd).Nodup
  others : ∀ r, r < store.length → store'.get r = store.get r

/-- A bound variable, its kind and the number of its cell. -/
abbrev Row := Nat × Kind × Nat

def Row.entry (row : Row) : Nat × Kind := (row.1, row.2.1)

def Row.fresh (row : Row) : Nat × Ty := (row.1, .tyvarTy row.2.2)

/-- The cells are numbered from `start` on. -/
def rows (start : Nat) : List (Nat × Kind) → List Row
  | [] => []
  | (i, kind) :: entries => (i, kind, start) :: rows (start + 1) entries

theorem rows_entries (start : Nat) (entries : List (Nat × Kind)) :
    (rows start entries).map Row.entry = entries := by
  induction entries generalizing start with
  | nil => rfl
  | cons entry entries ih =>
    rw [rows, List.map_cons, ih]
    rfl

theorem rows_cells (start : Nat) (entries : List (Nat × Kind)) :
    (rows start entries).map (fun row => row.2.2) = List.range' start entries.length := by
  induction entries generalizing start with
  | nil => rfl
  | cons entry entries ih =>
    rw [rows, List.map_cons, ih, List.length_cons, List.range'_succ]

theorem newTys_eq (lambdaDepth : Int) (utvarOpt : Option Utvar) (entries : List (Nat × Kind))
    (store : Store) : newTys lambdaDepth utvarOpt entries store =
      ((rows store.length entries).map Row.fresh,
        store ++ List.replicate entries.length (.tvar ⟨lambdaDepth, univKind, utvarOpt⟩)) := by
  induction entries generalizing store with
  | nil => simp [newTys, rows]
  | cons entry entries ih =>
    rw [newTys, newtyRaw]
    dsimp only
    rw [ih, List.length_append]
    simp [rows, Row.fresh, List.replicate_succ]

theorem get_append_of_lt {store new : Store} {r : Nat} (hr : r < store.length) :
    Store.get (store ++ new) r = store.get r := by
  simp [Store.get, List.getD, List.getElem?_append_left hr]

theorem get_append_replicate {store : Store} {cell : TvState} {n r : Nat}
    (hle : store.length ≤ r) (hlt : r < store.length + n) :
    Store.get (store ++ List.replicate n cell) r = cell := by
  rw [Store.get, List.getD, List.getElem?_append_right hle,
    List.getElem?_replicate_of_lt (by omega)]
  rfl

section Rows

variable {rows' : List Row}

theorem newKinds_converges {link : Nat → Option Ty} {subst : List (Nat × Ty)}
    (boundEnv : BoundEnv) {newKind : Kind → Kind}
    (hkind : ∀ entry ∈ boundEnv.entries,
      Converges (fun fuel => substBTvarKind link subst fuel entry.2) (newKind entry.2))
    (hrows : ∀ row ∈ rows', row.entry ∈ boundEnv.entries) :
    Converges (fun fuel => newKinds link subst fuel boundEnv.entries (rows'.map Row.fresh))
      (rows'.map fun row => (.tyvarTy row.2.2, newKind row.2.1)) := by
  induction rows' with
  | nil => exact Converges.pure fun _ => rfl
  | cons row rows' ih =>
    have hmem := hrows row List.mem_cons_self
    have hlookup : boundEnv.entries.lookup row.1 = some row.2.1 := by
      exact (KeyedList.lookup_eq_some_iff boundEnv.keys).mpr hmem
    have hrest := ih fun row' hrow' => hrows row' (List.mem_cons_of_mem row hrow')
    have hnew := (hkind row.entry hmem).bind (g := fun fuel kind => do
        let newSubst ← newKinds link subst fuel boundEnv.entries (rows'.map Row.fresh)
        return (Ty.tyvarTy row.2.2, kind) :: newSubst)
      (hrest.map fun newSubst => (Ty.tyvarTy row.2.2, newKind row.2.1) :: newSubst)
    refine hnew.congr fun fuel => ?_
    rw [List.map_cons, Row.fresh, newKinds, hlookup]
    rfl

/-- The cells of the rows are written, each with its kind. -/
theorem writeKinds_ok (utvarOpt : Option Utvar) (newKind : Kind → Kind)
    (hcells : (rows'.map fun row => row.2.2).Nodup) (store : Store)
    (htvar : ∀ row ∈ rows', ∃ tvKind, store.get row.2.2 = .tvar tvKind) :
    ∃ store', writeKinds utvarOpt
        (rows'.map fun row => (.tyvarTy row.2.2, newKind row.2.1)) store = .ok store' ∧
      (∀ row ∈ rows', store'.get row.2.2 =
        .tvar ⟨infiniteDepth, newKind row.2.1, utvarOpt⟩) ∧
      ∀ v, (∀ row ∈ rows', v ≠ row.2.2) → store'.get v = store.get v := by
  induction rows' generalizing store with
  | nil => exact ⟨store, rfl, by simp, fun v _ => rfl⟩
  | cons row rows' ih =>
    obtain ⟨hrow, hcells⟩ := List.nodup_cons.mp hcells
    obtain ⟨tvKind, hget⟩ := htvar row List.mem_cons_self
    have hne : ∀ row' ∈ rows', row'.2.2 ≠ row.2.2 := fun row' hrow' heq =>
      hrow (List.mem_map.mpr ⟨row', hrow', heq⟩)
    obtain ⟨store', hrun, hwritten, hothers⟩ := ih hcells
      (store.set row.2.2 (.tvar ⟨infiniteDepth, newKind row.2.1, utvarOpt⟩)) fun row' hrow' => by
        rw [get_set_ne (hne row' hrow').symm]
        exact htvar row' (List.mem_cons_of_mem row hrow')
    refine ⟨store', ?_, fun row' hrow' => ?_, fun v hv => ?_⟩
    · rw [List.map_cons, writeKinds, hget]
      exact hrun
    · rcases List.mem_cons.mp hrow' with rfl | hrow'
      · rw [hothers _ fun row'' hrow'' => (hne row'' hrow'').symm,
          get_set_self (lt_length_of_tvar hget)]
      · exact hwritten row' hrow'
    · rw [hothers v fun row' hrow' => hv row' (List.mem_cons_of_mem row hrow'),
        get_set_ne (hv row List.mem_cons_self).symm]

end Rows

/-! ### The fresh substitution -/

/-- Writing to unsolved cells only leaves the links. -/
theorem link_congr {store store' : Store} (h : ∀ r, store'.get r = store.get r ∨
      ∃ tvKind tvKind', store.get r = .tvar tvKind ∧ store'.get r = .tvar tvKind') :
    store'.link = store.link := by
  funext r
  unfold Store.link
  rcases h r with heq | ⟨tvKind, tvKind', hget, hget'⟩
  · rw [heq]
  · rw [hget, hget']

section Fresh

variable (store : Store) (entries : List (Nat × Kind)) (cell : TvState)

theorem get_new_cell {row : Row} (hrow : row ∈ rows store.length entries) :
    Store.get (store ++ List.replicate entries.length cell) row.2.2 = cell := by
  have hmem : row.2.2 ∈ List.range' store.length entries.length := by
    rw [← rows_cells]
    exact List.mem_map_of_mem (f := fun row : Row => row.2.2) hrow
  rw [List.mem_range'_1] at hmem
  exact get_append_replicate hmem.1 hmem.2

theorem substituted_of_new {tvKind : TvKind} {r : Nat} {ty : Ty}
    (h : Store.get (store ++ List.replicate entries.length (.tvar tvKind)) r =
      .substituted ty) : store.get r = .substituted ty := by
  by_cases hold : r < store.length
  · rwa [get_append_of_lt hold] at h
  · by_cases hnew : r < store.length + entries.length
    · rw [get_append_replicate (Nat.le_of_not_lt hold) hnew] at h
      nomatch h
    · rw [Store.get, List.getD, List.getElem?_eq_none (Nat.le_of_not_lt hold)]
      rwa [Store.get, List.getD, List.getElem?_eq_none (by simp; omega)] at h

end Fresh

/-- All bound variables get fresh variables of the substituted kinds, but of the
depth that is written. -/
theorem makeFreshSubst_freshens (lambdaDepth : Int) (utvarOpt : Option Utvar)
    (boundEnv : BoundEnv) (store : Store)
    (hkinds : ∀ entry ∈ boundEnv.entries, ∃ n, Kind.within store False n entry.2) :
    ∃ subst store',
      Converges (makeFreshSubst lambdaDepth utvarOpt boundEnv store) (subst, store') ∧
      Freshens infiniteDepth utvarOpt boundEnv store subst store' := by
  let cell : TvState := .tvar ⟨lambdaDepth, univKind, utvarOpt⟩
  let mid := store ++ List.replicate boundEnv.entries.length cell
  let rows' := rows store.length boundEnv.entries
  have hentries : rows'.map Row.entry = boundEnv.entries := rows_entries _ _
  have hcells : rows'.map (fun row => row.2.2) =
      List.range' store.length boundEnv.entries.length := rows_cells _ _
  have hmid : ∀ row ∈ rows', mid.get row.2.2 = cell := fun row hrow =>
    get_new_cell store boundEnv.entries cell hrow
  have hends : ∀ kind, ∃ kind', (∃ entry ∈ boundEnv.entries, entry.2 = kind) →
      Converges (fun fuel => substBTvarKind mid.link (rows'.map Row.fresh) fuel kind) kind' := by
    intro kind
    by_cases hmem : ∃ entry ∈ boundEnv.entries, entry.2 = kind
    · obtain ⟨entry, hentry, rfl⟩ := hmem
      obtain ⟨n, hwithin⟩ := hkinds entry hentry
      have hle : WithinLe store False mid n n :=
        withinLe (fun r ty => substituted_of_new store boundEnv.entries) (Nat.le_refl n)
      obtain ⟨kind', hkind'⟩ := (substEnds mid (rows'.map Row.fresh) n).kind entry.2
        (hle.kind entry.2 hwithin)
      exact ⟨kind', fun _ => hkind'⟩
    · exact ⟨kind, fun h => absurd h hmem⟩
  choose newKind hnewKind using hends
  have hmem : ∀ row ∈ rows', row.entry ∈ boundEnv.entries := by
    intro row hrow
    rw [← hentries]
    exact List.mem_map_of_mem hrow
  have hconv := newKinds_converges boundEnv
    (fun entry hentry => hnewKind entry.2 ⟨entry, hentry, rfl⟩) hmem
  have hnodup : (rows'.map fun row => row.2.2).Nodup := by
    rw [hcells]
    exact List.nodup_range'
  obtain ⟨store', hwrite, hwritten, hothers⟩ :=
    writeKinds_ok utvarOpt newKind hnodup mid fun row hrow => ⟨_, hmid row hrow⟩
  have hlink : store'.link = mid.link := by
    apply link_congr
    intro r
    by_cases hr : ∃ row ∈ rows', r = row.2.2
    · obtain ⟨row, hrow, rfl⟩ := hr
      exact Or.inr ⟨_, _, hmid row hrow, hwritten row hrow⟩
    · exact Or.inl (hothers r fun row hrow heq => hr ⟨row, hrow, heq⟩)
  have hlt : ∀ row ∈ rows', store.length ≤ row.2.2 := by
    intro row hrow
    have hmem := List.mem_map_of_mem (f := fun row : Row => row.2.2) hrow
    rw [hcells, List.mem_range'_1] at hmem
    exact hmem.1
  refine ⟨rows'.map Row.fresh, store', ?_, ?_, ?_, fun r hr => ?_⟩
  · unfold makeFreshSubst
    simp only [newTys_eq]
    have hwrite' : Converges (fun _ => writeKinds utvarOpt
        (rows'.map fun row => (.tyvarTy row.2.2, newKind row.2.1)) mid) store' :=
      Converges.pure fun _ => hwrite
    exact hconv.bind (hwrite'.map fun store => (rows'.map Row.fresh, store))
  · rw [← hentries, List.forall₂_map_left_iff, List.forall₂_map_right_iff, List.forall₂_same]
    intro row hrow
    refine ⟨rfl, row.2.2, newKind row.2.1, rfl, hlt row hrow, hwritten row hrow, ?_⟩
    rw [hlink]
    exact hnewKind row.2.1 ⟨row.entry, hmem row hrow, rfl⟩
  · rw [List.map_map]
    have hmap : rows'.map (Prod.snd ∘ Row.fresh) =
        (rows'.map fun row => row.2.2).map Ty.tyvarTy := by
      rw [List.map_map]
      rfl
    rw [hmap]
    exact hnodup.map fun r r' heq => Ty.tyvarTy.inj heq
  · rw [hothers r fun row hrow heq => absurd (hlt row hrow) (by omega), get_append_of_lt hr]

theorem Freshens.depth_eq {lambdaDepth lambdaDepth' : Int} {utvarOpt : Option Utvar}
    {boundEnv : BoundEnv} {store store' : Store} {subst : List (Nat × Ty)}
    (h : Freshens lambdaDepth utvarOpt boundEnv store subst store')
    (h' : Freshens lambdaDepth' utvarOpt boundEnv store subst store')
    (hne : boundEnv.entries ≠ []) : lambdaDepth = lambdaDepth' := by
  have hfresh := h.fresh
  have hfresh' := h'.fresh
  cases hentries : boundEnv.entries with
  | nil => exact absurd hentries hne
  | cons entry entries =>
    rw [hentries] at hfresh hfresh'
    cases hfresh with
    | cons hhead _ =>
      cases hfresh' with
      | cons hhead' _ =>
        obtain ⟨r, kind', hr, -, hget, -⟩ := hhead.cell
        obtain ⟨r', kind'', hr', -, hget', -⟩ := hhead'.cell
        obtain rfl := Ty.tyvarTy.inj (hr.symm.trans hr')
        have heq := TvState.tvar.inj (hget.symm.trans hget')
        exact congrArg TvKind.lambdaDepth heq

/-- The fresh variables have the depth that was passed if and only if that is the
infinite one, or there are none. -/
theorem makeFreshSubst_freshens_iff (lambdaDepth : Int) (utvarOpt : Option Utvar)
    (boundEnv : BoundEnv) (store : Store)
    (hkinds : ∀ entry ∈ boundEnv.entries, ∃ n, Kind.within store False n entry.2) :
    ∃ subst store',
      Converges (makeFreshSubst lambdaDepth utvarOpt boundEnv store) (subst, store') ∧
      (Freshens lambdaDepth utvarOpt boundEnv store subst store' ↔
        lambdaDepth = infiniteDepth ∨ boundEnv.entries = []) := by
  obtain ⟨subst, store', hconv, hfreshens⟩ :=
    makeFreshSubst_freshens lambdaDepth utvarOpt boundEnv store hkinds
  refine ⟨subst, store', hconv, fun h => ?_, fun h => ?_⟩
  · by_cases hempty : boundEnv.entries = []
    · exact Or.inr hempty
    · exact Or.inl (h.depth_eq hfreshens hempty)
  · rcases h with rfl | hempty
    · exact hfreshens
    · have hfresh := hfreshens.fresh
      rw [hempty] at hfresh
      exact ⟨hempty ▸ List.forall₂_nil_left_iff.mpr (List.forall₂_nil_left_iff.mp hfresh),
        hfreshens.distinct, hfreshens.others⟩

/-- One bound variable whose kind mentions the variable itself. -/
def loopEnv : BoundEnv := ⟨[(7, .kind (.record [("next", .boundvarTy 7)]) emptyProperties none)],
  by decide⟩

theorem loopEnv_within (store : Store) :
    ∀ entry ∈ loopEnv.entries, ∃ n, Kind.within store False n entry.2 := by
  intro entry hentry
  rw [List.mem_singleton.mp hentry]
  refine ⟨3, fun field hfield => ?_⟩
  rw [List.mem_singleton.mp hfield]
  trivial

/-- The fresh variable gets the kind with itself in it, and the depth decides.
-/
theorem makeFreshSubst_freshens_iff_loop :
    ∃ subst store',
      Converges (makeFreshSubst 3 none loopEnv []) (subst, store') ∧
      (Freshens 3 none loopEnv [] subst store' ↔
        3 = infiniteDepth ∨ loopEnv.entries = []) :=
  makeFreshSubst_freshens_iff 3 none loopEnv [] (loopEnv_within [])

/-- A fresh variable for the depth 3 has the infinite depth. -/
theorem freshSubstWithLambdaDepth_infinite :
    ∃ subst store',
      Converges (freshSubstWithLambdaDepth 3 loopEnv []) (subst, store') ∧
      ¬ Freshens 3 none loopEnv [] subst store' := by
  obtain ⟨subst, store', hconv, hfreshens⟩ :=
    makeFreshSubst_freshens 3 none loopEnv [] (loopEnv_within [])
  refine ⟨subst, store', hconv, fun h => ?_⟩
  exact absurd (h.depth_eq hfreshens (List.cons_ne_nil _ _)) (by decide)

end TypesBasics

end SmlSharp
