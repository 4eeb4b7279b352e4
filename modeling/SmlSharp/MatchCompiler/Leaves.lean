/-
The leaves of a decision tree: a leaf binds every variable of the patterns of
the rule whose branch it ends in.
-/
import Mathlib.Data.Nat.Basic
import Mathlib.Tactic.Tauto
import SmlSharp.Lib.KeyedSet
import SmlSharp.MatchCompiler.Construct

namespace SmlSharp

namespace MatchCompiler

variable {τ : Type}

/-! ### The variables of patterns -/

abbrev VarInfoSet (τ : Type) := KeyedSet (@VarInfo.id τ)

mutual

def getVars : Pat τ → VarInfoSet τ
  | .varPat x => KeyedSet.singleton x
  | .dataConPat _ _ _ arg _ => getVars arg
  | .exnConPat _ _ arg _ => getVars arg
  | .recPat fields _ => getFieldVars fields KeyedSet.empty
  | .layerPat left right => (getVars left).union (getVars right)
  | .orPat left right => (getVars left).union (getVars right)
  | .wildPat _ => KeyedSet.empty
  | .constPat _ _ => KeyedSet.empty

def getFieldVars : List (String × Pat τ) → VarInfoSet τ → VarInfoSet τ
  | [], vars => vars
  | (_, pat) :: rest, vars => getFieldVars rest ((getVars pat).union vars)

end

def getVarsInPatList : List (Pat τ) → VarInfoSet τ
  | [] => KeyedSet.empty
  | pat :: pats => (getVars pat).union (getVarsInPatList pats)

attribute [local simp] getVars getFieldVars getVarsInPatList

theorem mem_getFieldVars {id : Nat} {fields : List (String × Pat τ)}
    {vars : VarInfoSet τ} : id ∈ getFieldVars fields vars ↔
      id ∈ getFieldVars fields KeyedSet.empty ∨ id ∈ vars := by
  induction fields generalizing vars with
  | nil => simp
  | cons field rest ih =>
    obtain ⟨label, pat⟩ := field
    simp only [getFieldVars]
    rw [ih, @ih (KeyedSet.union _ KeyedSet.empty)]
    simp [or_assoc]

/-- The environment has a variable of this id. -/
def Env.Has (env : Env τ) (id : Nat) : Prop :=
  ∃ entry ∈ env, entry.1.id = id

theorem Env.has_insert {env : Env τ} {x path : VarInfo τ} {id : Nat} :
    (env.insert x path).Has id ↔ x.id = id ∨ env.Has id := by
  constructor
  · rintro ⟨entry, hentry, rfl⟩
    rcases List.mem_cons.mp hentry with rfl | hold
    · exact Or.inl rfl
    · exact Or.inr ⟨entry, List.mem_of_mem_filter hold, rfl⟩
  · rintro (rfl | ⟨entry, hentry, rfl⟩)
    · exact ⟨_, List.mem_cons_self, rfl⟩
    · by_cases hid : entry.1.id = x.id
      · exact ⟨_, List.mem_cons_self, hid.symm⟩
      · refine ⟨entry, List.mem_cons_of_mem _ (List.mem_filter.mpr ?_), rfl⟩
        exact ⟨hentry, by simpa using hid⟩

/-- The variable is bound by the row, or will be by one of its patterns. -/
def Row.Binds (row : Row τ) (id : Nat) : Prop :=
  row.env.Has id ∨ id ∈ getVarsInPatList row.pats

/-- The rows that a step makes keep the branch and the variables of the rows
that they come from. -/
def Carries (rows rows' : List (Row τ)) : Prop :=
  ∀ row' ∈ rows', ∃ row ∈ rows, row'.branch = row.branch ∧
    ∀ id, row.Binds id → row'.Binds id

/-! ### The steps keep the variables -/

variable {S : Semantics τ}

theorem removeHead_binds (path : VarInfo τ) (branch : Nat)
    (rest : List (Pat τ)) (pat : Pat τ) (env : Env τ) {c : Col τ}
    (hfits : c.Fits S pat) : Carries [⟨pat :: rest, branch, env⟩]
      (removeHead path branch rest pat env) := by
  intro row' hrow'
  refine ⟨_, List.mem_cons_self, ?_⟩
  fun_induction removeHead path branch rest pat env generalizing row' c with
  | case1 x env =>
    obtain rfl := List.mem_singleton.mp hrow'
    refine ⟨rfl, fun id hid => ?_⟩
    simp only [Row.Binds, getVarsInPatList, getVars, KeyedSet.mem_union,
      KeyedSet.mem_singleton, KeyedSet.mem_empty, Env.has_insert] at hid ⊢
    tauto
  | case2 x pat env ih =>
    have hpat : ∃ ty, (Col.whole ty).Fits S pat := by
      cases c with
      | whole ty => exact ⟨ty, by simpa [Col.Fits, Pat.Typed] using hfits.2⟩
      | part ty fields => simp [Col.Fits] at hfits
      | unused ty => simp [Col.Fits] at hfits
    obtain ⟨ty, hpat⟩ := hpat
    obtain ⟨hbranch, hbinds⟩ := ih hpat row' hrow'
    refine ⟨hbranch, fun id hid => hbinds id ?_⟩
    simp only [Row.Binds, getVarsInPatList, getVars, KeyedSet.mem_union,
      KeyedSet.mem_singleton, Env.has_insert] at hid ⊢
    tauto
  | case3 left right env =>
    cases c with
    | whole ty => simp [Col.Fits, Pat.Typed] at hfits
    | part ty fields => simp [Col.Fits] at hfits
    | unused ty => simp [Col.Fits] at hfits
  | case4 pat env =>
    obtain rfl := List.mem_singleton.mp hrow'
    exact ⟨rfl, fun id hid => hid⟩

theorem removeOtherPat_carries (path : VarInfo τ) {c : Col τ}
    {cols : List (Col τ)} (rows : List (Row τ))
    (hfits : ∀ row ∈ rows, List.Forall₂ (Col.Fits S) (c :: cols) row.pats) :
    Carries rows (removeOtherPat path rows) := by
  induction rows with
  | nil => simp [Carries, removeOtherPat]
  | cons row rows ih =>
    have htail := ih fun other hother => hfits other (by simp [hother])
    obtain ⟨pats, branch, env⟩ := row
    have hrow := hfits _ List.mem_cons_self
    cases hrow with
    | cons hhead _ =>
      intro row' hrow'
      rcases List.mem_append.mp hrow' with hnew | hold
      · obtain ⟨row, hrow, hcarried⟩ :=
          removeHead_binds path branch _ _ env hhead row' hnew
        obtain rfl := List.mem_singleton.mp hrow
        exact ⟨_, List.mem_cons_self, hcarried⟩
      · obtain ⟨row, hrow, hcarried⟩ := htail row' hold
        exact ⟨row, List.mem_cons_of_mem _ hrow, hcarried⟩

/-- A selection keeps the variables of the rows it selects. -/
def KeepsVars (rows : List (Row τ)) (select : Row τ → Option (Row τ)) : Prop :=
  ∀ row ∈ rows, ∀ row', select row = some row' → row'.env = row.env ∧
    ∀ id ∈ getVarsInPatList row.pats, id ∈ getVarsInPatList row'.pats

theorem Selects.carries {cols : List (Col τ)} {rows : List (Row τ)}
    {select : Row τ → Option (Row τ)} (hselects : Selects S cols rows select)
    (hkeeps : KeepsVars rows select) :
    Carries rows (rows.filterMap select) := by
  intro row' hrow'
  obtain ⟨row, hrow, hselect⟩ := List.mem_filterMap.mp hrow'
  obtain ⟨henv, hvars⟩ := hkeeps row hrow row' hselect
  refine ⟨row, hrow, (hselects row hrow row' hselect).1, fun id hid => ?_⟩
  rw [Row.Binds, henv]
  exact hid.imp_right (hvars id)

theorem selWild_keepsVars (rows : List (Row τ)) : KeepsVars rows selWild := by
  intro row _ row' hselect
  fun_cases selWild row with
  | case1 ty rest branch env =>
    obtain rfl : _ = row' := by simpa [selWild] using hselect
    exact ⟨rfl, by simp⟩
  | case2 => simp_all [selWild]

theorem selConst_keepsVars (rows : List (Row τ)) (k : Const) :
    KeepsVars rows (selConst k) := by
  intro row _ row' hselect
  fun_cases selConst k row with
  | case1 ty rest branch env =>
    obtain rfl : _ = row' := by simpa [selConst] using hselect
    exact ⟨rfl, by simp⟩
  | case2 c ty rest branch env hne => simp [selConst, hne] at hselect
  | case3 ty rest branch env =>
    obtain rfl : _ = row' := by simpa [selConst] using hselect
    exact ⟨rfl, by simp⟩
  | case4 => simp_all [selConst]

theorem selCon_keepsVars {K κ : Type} [DecidableEq κ] {key : K → κ}
    {readCon : Pat τ → Option (K × Pat τ)}
    (hread : ∀ pat con arg, readCon pat = some (con, arg) →
      getVars pat = getVars arg) (k : κ) (argTy : τ) (rows : List (Row τ)) :
    KeepsVars rows (selCon key readCon k argTy) := by
  rintro ⟨pats, branch, env⟩ _ row' hselect
  cases pats with
  | nil => simp [selCon] at hselect
  | cons pat rest =>
    cases hr : readCon pat with
    | some found =>
      obtain ⟨con, arg⟩ := found
      by_cases hk : key con = k
      · obtain rfl : _ = row' := by simpa [selCon, hr, hk] using hselect
        refine ⟨rfl, ?_⟩
        simp only [getVarsInPatList, hread pat con arg hr]
        exact fun id hid => hid
      · simp [selCon, hr, hk] at hselect
    | none =>
      cases pat with
      | wildPat ty =>
        obtain rfl : _ = row' := by simpa [selCon, hr] using hselect
        exact ⟨rfl, by simp⟩
      | _ => simp [selCon, hr] at hselect

theorem selOnly_keepsVars (fieldTy : τ) (rows : List (Row τ)) :
    KeepsVars rows (selOnly fieldTy) := by
  intro row _ row' hselect
  fun_cases selOnly fieldTy row with
  | case1 label pat ty rest branch env =>
    obtain rfl : _ = row' := by simpa [selOnly] using hselect
    exact ⟨rfl, by simp⟩
  | case2 ty rest branch env =>
    obtain rfl : _ = row' := by simpa [selOnly] using hselect
    exact ⟨rfl, by simp⟩
  | case3 => simp_all [selOnly]

theorem selFirst_keepsVars (recordTy fieldTy : τ) (rows : List (Row τ)) :
    KeepsVars rows (selFirst recordTy fieldTy) := by
  intro row _ row' hselect
  fun_cases selFirst recordTy fieldTy row with
  | case1 label pat fields ty rest branch env =>
    obtain rfl : _ = row' := by simpa [selFirst] using hselect
    refine ⟨rfl, fun id hid => ?_⟩
    simp only [getVarsInPatList, getVars, getFieldVars, KeyedSet.mem_union]
      at hid ⊢
    rw [mem_getFieldVars, KeyedSet.mem_union] at hid
    tauto
  | case2 ty rest branch env =>
    obtain rfl : _ = row' := by simpa [selFirst] using hselect
    exact ⟨rfl, by simp⟩
  | case3 => simp_all [selFirst]

theorem selDrop_keepsVars {rows : List (Row τ)}
    (hrows : ∀ row ∈ rows, HasHead (fun pat => ∀ id, id ∉ getVars pat) row) :
    KeepsVars rows selDrop := by
  intro row hrow row' hselect
  obtain ⟨pat, rest, hpats, hnone⟩ := hrows row hrow
  obtain ⟨pats, branch, env⟩ := row
  obtain rfl : pats = pat :: rest := hpats
  obtain rfl : _ = row' := by simpa [selDrop] using hselect
  exact ⟨rfl, by simp [hnone]⟩

/-! ### The leaves of a tree -/

/-- The leaves of a tree: the branches, with the variables bound there. -/
inductive Tree.Leaf (branch : Nat) (env : Env τ) : Tree τ → Prop where
  | leaf : Leaf branch env (.leafNode branch env)
  | eq {path : VarInfo τ} {branches : List (Const × Tree τ)} {c : Const}
      {tree default : Tree τ} : (c, tree) ∈ branches → Leaf branch env tree →
      Leaf branch env (.eqNode path branches default)
  | eqDefault {path : VarInfo τ} {branches : List (Const × Tree τ)}
      {default : Tree τ} : Leaf branch env default →
      Leaf branch env (.eqNode path branches default)
  | data {path : VarInfo τ} {branches : List (DataKey τ × Tree τ)}
      {key : DataKey τ} {tree default : Tree τ} : (key, tree) ∈ branches →
      Leaf branch env tree → Leaf branch env (.dataConNode path branches default)
  | dataDefault {path : VarInfo τ} {branches : List (DataKey τ × Tree τ)}
      {default : Tree τ} : Leaf branch env default →
      Leaf branch env (.dataConNode path branches default)
  | exn {path : VarInfo τ} {branches : List (ExnConKey τ × Tree τ)}
      {key : ExnConKey τ} {tree default : Tree τ} : (key, tree) ∈ branches →
      Leaf branch env tree → Leaf branch env (.exnConNode path branches default)
  | exnDefault {path : VarInfo τ} {branches : List (ExnConKey τ × Tree τ)}
      {default : Tree τ} : Leaf branch env default →
      Leaf branch env (.exnConNode path branches default)
  | record {path : VarInfo τ} {label : String} {child : Tree τ} :
      Leaf branch env child → Leaf branch env (.recNode path label child)
  | univ {path : VarInfo τ} {child : Tree τ} : Leaf branch env child →
      Leaf branch env (.univNode path child)

/-- Every leaf binds the variables of a row with its branch. -/
def Covered (rows : List (Row τ)) (tree : Tree τ) : Prop :=
  ∀ branch env, tree.Leaf branch env → ∃ row ∈ rows, row.branch = branch ∧
    ∀ id, row.Binds id → env.Has id

theorem Covered.of_carries {rows rows' : List (Row τ)} {tree : Tree τ}
    (hcovered : Covered rows' tree) (hcarries : Carries rows rows') :
    Covered rows tree := by
  intro branch env hleaf
  obtain ⟨row', hrow', rfl, hbinds'⟩ := hcovered branch env hleaf
  obtain ⟨row, hrow, hbranch, hbinds⟩ := hcarries row' hrow'
  exact ⟨row, hrow, hbranch.symm, fun id hid => hbinds' id (hbinds id hid)⟩

/-- Every tree of the map is built from the rows under its key. -/
theorem buildAll_mem {K : Type}
    {build : List (Row τ) → Build → Except Failure (Tree τ × Build)}
    {branches : List (K × List (Row τ))} {trees : List (K × Tree τ)}
    {st st' : Build} (hall : buildAll build branches st = .ok (trees, st')) :
    ∀ key tree, (key, tree) ∈ trees → ∃ rows st₁ st₂, (key, rows) ∈ branches ∧
      build rows st₁ = .ok (tree, st₂) := by
  induction branches generalizing trees st with
  | nil =>
    obtain ⟨rfl, -⟩ : [] = trees ∧ st = st' := by simpa [buildAll] using hall
    simp
  | cons entry rest ih =>
    obtain ⟨key', rows⟩ := entry
    simp only [buildAll, except_bind_ok] at hall
    obtain ⟨⟨tree, st₁⟩, hbuild, ⟨others, st₂⟩, hrest, hok⟩ := hall
    obtain ⟨rfl, rfl⟩ : (key', tree) :: others = trees ∧ st₂ = st' := by
      simpa using hok
    intro key tree' hmem
    rcases List.mem_cons.mp hmem with heq | hlater
    · obtain ⟨rfl, rfl⟩ : key = key' ∧ tree' = tree := by simpa using heq
      exact ⟨rows, st, st₁, List.mem_cons_self, hbuild⟩
    · obtain ⟨rows', st₁', st₂', hmem', hbuild'⟩ := ih hrest key tree' hlater
      exact ⟨rows', st₁', st₂', List.mem_cons_of_mem _ hmem', hbuild'⟩

theorem argTree_ok {build : List (VarInfo τ) → List (Row τ) → Build →
      Except Failure (Tree τ × Build)} {paths : List (VarInfo τ)}
    {rows : List (Row τ)} {st : Build} {result : Tree τ × Build}
    (hok : argTree build paths rows st = .ok result) :
    ∃ arg st', build (arg :: paths) rows st' = .ok result := by
  fun_cases argTree build paths rows st with
  | case1 pat pats branch env rows => exact ⟨_, _, hok⟩
  | case2 => simp_all [argTree]

section Make

variable {build : List (VarInfo τ) → List (Row τ) → Build →
    Except Failure (Tree τ × Build)}
  (hbuild : ∀ cols paths rows st tree st',
    (∀ row ∈ rows, List.Forall₂ (Col.Fits S) cols row.pats) →
    build paths rows st = .ok (tree, st') → Covered rows tree)
  {c : Col τ} {cols : List (Col τ)} {rows : List (Row τ)}
  (hfit : ∀ row ∈ rows, FitRow S c cols row) {path : VarInfo τ}
  {paths : List (VarInfo τ)} {st st' : Build} {tree : Tree τ}

include hbuild

omit hfit in
/-- The tree of a selection of the rows. -/
theorem covered_select {cols' : List (Col τ)} {rows : List (Row τ)}
    {select : Row τ → Option (Row τ)} (hselects : Selects S cols' rows select)
    (hkeeps : KeepsVars rows select) {paths' : List (VarInfo τ)}
    (hok : build paths' (rows.filterMap select) st = .ok (tree, st')) :
    Covered rows tree := by
  apply Covered.of_carries _ (hselects.carries hkeeps)
  apply hbuild cols' paths' _ st tree st' _ hok
  intro row' hrow'
  obtain ⟨row, hrow, hselect⟩ := List.mem_filterMap.mp hrow'
  exact (hselects row hrow row' hselect).2.2.1

include hfit

theorem makeUnivTree_covered
    (hheads : ∀ row ∈ rows, HasHead (fun pat => ∀ id, id ∉ getVars pat) row)
    (hok : makeUnivTree build path paths rows st = .ok (tree, st')) :
    Covered rows tree := by
  rw [makeUnivTree, mapM_dropHead hfit, except_ok_bind, except_bind_ok] at hok
  obtain ⟨⟨child, st₁⟩, hchild, hok⟩ := hok
  obtain ⟨rfl, -⟩ : Tree.univNode path child = tree ∧ st₁ = st' := by
    simpa using hok
  have hcovered := covered_select hbuild (selDrop_selects hfit)
    (selDrop_keepsVars hheads) hchild
  intro branch env hleaf
  cases hleaf with
  | univ hleaf => exact hcovered branch env hleaf

theorem makeEqTree_covered
    (hheads : ∀ row ∈ rows, HasHead (fun pat => IsWild pat ∨ IsConst pat) row)
    (hok : makeEqTree build path paths rows st = .ok (tree, st')) :
    Covered rows tree := by
  obtain ⟨branches, hbranches, hnodup, -, hfind⟩ :=
    constBranches_spec rows hheads
  rw [makeEqTree, hbranches, except_ok_bind] at hok
  simp only [except_bind_ok] at hok
  obtain ⟨⟨trees, st₁⟩, hall, ⟨default, st₂⟩, hdefault, hok⟩ := hok
  obtain ⟨rfl, -⟩ : Tree.eqNode path trees default = tree ∧ st₂ = st' := by
    simpa using hok
  intro branch env hleaf
  cases hleaf with
  | eq hmem hleaf =>
    obtain ⟨rows', st₃, st₄, hentry, htree⟩ := buildAll_mem hall _ _ hmem
    have hrows' := hfind _ _ (KeyedList.find_of_mem hnodup hentry)
    simp only at hrows'
    subst hrows'
    exact covered_select hbuild (selConst_selects hfit _)
      (selConst_keepsVars rows _) htree branch env hleaf
  | eqDefault hleaf =>
    exact covered_select hbuild (selWild_selects hfit)
      (selWild_keepsVars rows) hdefault branch env hleaf

omit hfit in
/-- The trees under the constructors of a column. -/
theorem conTrees_covered {K κ : Type} [DecidableEq κ] {key : K → κ}
    {readCon : Pat τ → Option (K × Pat τ)} {argument : κ → Col τ}
    (hread : ∀ pat con arg, readCon pat = some (con, arg) →
      getVars pat = getVars arg) {branches : List (K × List (Row τ))}
    (hrows : ∀ entry ∈ branches, entry.2 = rows.filterMap
      (selCon key readCon (key entry.1) (argument (key entry.1)).ty))
    (hselects : ∀ k, Selects S (argument k :: cols) rows
      (selCon key readCon k (argument k).ty)) {trees : List (K × Tree τ)}
    (hall : buildAll (argTree build paths) branches st = .ok (trees, st')) :
    ∀ con tree, (con, tree) ∈ trees → Covered rows tree := by
  intro con tree hmem
  obtain ⟨rows', st₁, st₂, hentry, htree⟩ := buildAll_mem hall con tree hmem
  have hrows' := hrows _ hentry
  simp only at hrows'
  subst hrows'
  obtain ⟨arg, st₃, hbuilt⟩ := argTree_ok htree
  exact covered_select hbuild (hselects _)
    (selCon_keepsVars hread _ _ rows) hbuilt

omit hfit in
theorem makeDataConTree_covered {ty : τ} {cons : List (Nat × Option τ)}
    (hfit : ∀ row ∈ rows, FitRow S (.whole ty) cols row)
    (hshape : S.shape ty = .data cons) {spans : Nat}
    (hok : makeDataConTree build spans path paths rows st = .ok (tree, st')) :
    Covered rows tree := by
  obtain ⟨branches, hbranches, -, -, -, -, hrows, hselects⟩ :=
    conBranches_typed DataKey.id readDataCon
      (fun k => argCol S (argTyOf cons k)) hfit (fun _ => rfl)
      readDataCon_weight (fun _ => dataCon_heads hshape)
      (fun _ _ _ => dataCon_args hshape)
  rw [makeDataConTree, hbranches, except_ok_bind, except_bind_ok] at hok
  obtain ⟨⟨trees, st₁⟩, hall, hok⟩ := hok
  have hcon := conTrees_covered hbuild (by
    intro pat con arg hread
    cases pat with
    | dataConPat c inst hasArg a t =>
      obtain ⟨-, rfl⟩ : (c, inst, hasArg) = con ∧ a = arg := by
        simpa [readDataCon] using hread
      rfl
    | _ => simp [readDataCon] at hread) hrows hselects hall
  have hnode : ∃ default, tree = .dataConNode path trees default ∧
      Covered rows default := by
    by_cases hspans : branches.length = spans
    · obtain ⟨rfl, -⟩ : Tree.dataConNode path trees .emptyNode = tree ∧
          st₁ = st' := by simpa [hspans] using hok
      refine ⟨.emptyNode, rfl, ?_⟩
      intro branch env hleaf
      cases hleaf
    · simp only [hspans, if_false, except_bind_ok] at hok
      obtain ⟨⟨default, st₂⟩, hdefault, hok⟩ := hok
      obtain ⟨rfl, -⟩ : Tree.dataConNode path trees default = tree ∧
          st₂ = st' := by simpa using hok
      exact ⟨default, rfl, covered_select hbuild (selWild_selects hfit)
        (selWild_keepsVars rows) hdefault⟩
  obtain ⟨default, rfl, hdefault⟩ := hnode
  intro branch env hleaf
  cases hleaf with
  | data hmem hleaf => exact hcon _ _ hmem branch env hleaf
  | dataDefault hleaf => exact hdefault branch env hleaf

omit hfit in
theorem makeExnConTree_covered {ty : τ}
    (hfit : ∀ row ∈ rows, FitRow S (.whole ty) cols row)
    (hshape : S.shape ty = .exn)
    (hok : makeExnConTree build path paths rows st = .ok (tree, st')) :
    Covered rows tree := by
  obtain ⟨branches, hbranches, -, -, -, -, hrows, hselects⟩ :=
    conBranches_typed ExnConKey.key readExnCon
      (fun k => argCol S (S.exnArg (S.exnTag k))) hfit (fun _ => rfl)
      readExnCon_weight (fun _ => exnCon_heads hshape)
      (fun _ _ _ => exnCon_args hshape)
  rw [makeExnConTree, hbranches, except_ok_bind] at hok
  simp only [except_bind_ok] at hok
  obtain ⟨⟨trees, st₁⟩, hall, ⟨default, st₂⟩, hdefault, hok⟩ := hok
  obtain ⟨rfl, -⟩ : Tree.exnConNode path trees default = tree ∧ st₂ = st' := by
    simpa using hok
  have hcon := conTrees_covered hbuild (by
    intro pat con arg hread
    cases pat with
    | exnConPat e hasArg a t =>
      obtain ⟨-, rfl⟩ : (e, hasArg) = con ∧ a = arg := by
        simpa [readExnCon] using hread
      rfl
    | _ => simp [readExnCon] at hread) hrows hselects hall
  intro branch env hleaf
  cases hleaf with
  | exn hmem hleaf => exact hcon _ _ hmem branch env hleaf
  | exnDefault hleaf =>
    exact covered_select hbuild (selWild_selects hfit)
      (selWild_keepsVars rows) hdefault branch env hleaf

theorem makeRecTree_covered {label : String} {fieldTy : τ}
    {fieldTys : List (String × τ)}
    (hfields : c.HasFields S ((label, fieldTy) :: fieldTys))
    (hok : (recordKind c.ty ((label, fieldTy) :: fieldTys)).make build path
      paths rows st = .ok (tree, st')) : Covered rows tree := by
  have hnode : ∃ child, tree = .recNode path label child ∧
      Covered rows child := by
    cases fieldTys with
    | nil =>
      obtain ⟨hselects, hmap⟩ := selOnly_selects hfields hfit
      simp only [recordKind, RootKind.make, makeNRecTree, hmap,
        except_ok_bind, except_bind_ok] at hok
      obtain ⟨⟨child, st₁⟩, hchild, hok⟩ := hok
      obtain ⟨rfl, -⟩ : Tree.recNode path label child = tree ∧ st₁ = st' := by
        simpa using hok
      exact ⟨child, rfl, covered_select hbuild hselects
        (selOnly_keepsVars fieldTy rows) hchild⟩
    | cons second others =>
      obtain ⟨hselects, hmap⟩ := selFirst_selects hfields hfit
      simp only [recordKind, RootKind.make, makeIRecTree, hmap,
        except_ok_bind, except_bind_ok] at hok
      obtain ⟨⟨child, st₁⟩, hchild, hok⟩ := hok
      obtain ⟨rfl, -⟩ : Tree.recNode path label child = tree ∧ st₁ = st' := by
        simpa using hok
      exact ⟨child, rfl, covered_select hbuild hselects
        (selFirst_keepsVars c.ty fieldTy rows) hchild⟩
  obtain ⟨child, rfl, hcovered⟩ := hnode
  intro branch env hleaf
  cases hleaf with
  | record hleaf => exact hcovered branch env hleaf

end Make

/-- The heads of a column that is dropped bind nothing. -/
theorem hasHead_wild_vars {row : Row τ} (hwild : HasHead IsWild row) :
    HasHead (fun pat => ∀ id, id ∉ getVars pat) row := by
  obtain ⟨pat, rest, hpats, ty, rfl⟩ := hwild
  exact ⟨_, rest, hpats, by simp⟩

theorem hasHead_unit_vars {c : Col τ} {cols : List (Col τ)} {row : Row τ}
    (hfields : c.HasFields S []) (hfit : FitRow S c cols row) :
    HasHead (fun pat => ∀ id, id ∉ getVars pat) row := by
  obtain ⟨pat, rest, hpats, hplain, hfits, -⟩ := hfit
  rcases head_record hfields hplain hfits with hwild | ⟨pats, rfl, htyped⟩
  · exact hasHead_wild_vars ⟨pat, rest, hpats, hwild⟩
  · cases pats with
    | nil => exact ⟨_, rest, hpats, by simp⟩
    | cons first others => simp [fieldsTyped] at htyped

/-- On a typed matrix every leaf of the tree binds the variables of a row with
its branch. -/
theorem matchToTree_covered {branchEnv : List Nat} (fuel : Nat)
    (cols : List (Col τ)) (paths : List (VarInfo τ)) (rows : List (Row τ))
    (st : Build) (tree : Tree τ) (st' : Build)
    (hfits : ∀ row ∈ rows, List.Forall₂ (Col.Fits S) cols row.pats)
    (hok : matchToTree S.toTypes branchEnv fuel paths rows st =
      .ok (tree, st')) : Covered rows tree := by
  induction fuel generalizing cols paths rows st tree st' with
  | zero => simp [matchToTree] at hok
  | succ fuel ih =>
    cases rows with
    | nil =>
      obtain ⟨rfl, -⟩ : Tree.emptyNode = tree ∧ _ = st' := by
        cases paths <;> simpa [matchToTree] using hok
      intro branch env hleaf
      cases hleaf
    | cons row rows =>
      have hrow := hfits row List.mem_cons_self
      cases paths with
      | nil =>
        obtain ⟨pats, branch, env⟩ := row
        cases pats with
        | cons pat pats => simp [matchToTree] at hok
        | nil =>
          by_cases hbranch : branch ∈ branchEnv
          · obtain ⟨rfl, -⟩ : Tree.leafNode branch env = tree ∧ _ = st' := by
              simpa [matchToTree, hbranch] using hok
            intro branch' env' hleaf
            cases hleaf with
            | leaf =>
              refine ⟨_, List.mem_cons_self, rfl, fun id hid => ?_⟩
              simpa [Row.Binds] using hid
          · simp [matchToTree, hbranch] at hok
      | cons path paths =>
        cases cols with
        | nil =>
          obtain ⟨pats, branch, env⟩ := row
          obtain rfl : pats = [] := List.forall₂_nil_left_iff.mp hrow
          simp [matchToTree, removeOtherPat, decideRootNode, bind,
            Except.bind] at hok
        | cons c cols =>
          apply Covered.of_carries _
            (removeOtherPat_carries path _ hfits)
          have hfit := moved_fitRow
            (removeOtherPat_moved path _ hfits) hfits
          obtain ⟨kind, hdecide, hdecided⟩ := decideRootNode_decided _
            fun row' hrow' => (hfit row' hrow').plainRow
          simp only [matchToTree, hdecide, except_ok_bind] at hok
          cases hdecided with
          | univ hwild =>
            exact makeUnivTree_covered ih hfit
              (fun row' hrow' => hasHead_wild_vars (hwild row' hrow'))
              hok
          | eq hc hshape =>
            subst hc
            exact makeEqTree_covered ih hfit
              (fun row' hrow' => hasHead_const hshape (hfit row' hrow'))
              hok
          | dataCon hc hshape =>
            subst hc
            exact makeDataConTree_covered ih hfit hshape hok
          | exnCon hc hshape =>
            subst hc
            exact makeExnConTree_covered ih hfit hshape hok
          | @record fields hfields =>
            cases fields with
            | nil =>
              exact makeUnivTree_covered ih hfit (fun row' hrow' =>
                hasHead_unit_vars hfields (hfit row' hrow')) hok
            | cons field fields =>
              exact makeRecTree_covered ih hfit hfields hok

end MatchCompiler

end SmlSharp
