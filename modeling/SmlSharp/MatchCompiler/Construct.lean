/-
The construction of a decision tree, node by node: it never fails on a typed
matrix, and every property that holds of each node when it holds of the nodes
below it holds of the whole tree.
-/
import SmlSharp.MatchCompiler.Select

namespace SmlSharp

namespace MatchCompiler

variable {τ : Type}

/-- A typed matrix over the variables that hold its columns. -/
structure Matrix (S : Semantics τ) (branchEnv : List Nat) (cols : List (Col τ))
    (paths : List (VarInfo τ)) (rows : List (Row τ)) (st : Build) : Prop where
  types : List.Forall₂ (fun c path => path.ty = c.ty) cols paths
  fits : ∀ row ∈ rows, List.Forall₂ (Col.Fits S) cols row.pats
  branch : ∀ row ∈ rows, row.branch ∈ branchEnv
  paths_lt : ∀ path ∈ paths, path.id < st.nextId
  env_lt : ∀ row ∈ rows, ∀ entry ∈ row.env, entry.2.id < st.nextId

/-- What is known of the tree of a smaller matrix. -/
structure Sub (S : Semantics τ) (branchEnv : List Nat)
    (P : List (Col τ) → List (VarInfo τ) → List (Row τ) → Build → Tree τ →
      Build → Prop)
    (cols : List (Col τ)) (paths : List (VarInfo τ)) (rows : List (Row τ))
    (st : Build) (tree : Tree τ) (st' : Build) : Prop where
  matrix : Matrix S branchEnv cols paths rows st
  le : st.nextId ≤ st'.nextId
  root : rows ≠ [] → ∀ path ∈ paths.head?, getPath tree = some path
  holds : P cols paths rows st tree st'

/-- A variable that no path and no row mentions. -/
def Unbound (arg : VarInfo τ) (paths : List (VarInfo τ))
    (rows : List (Row τ)) : Prop :=
  (∀ path ∈ paths, path.id ≠ arg.id) ∧
    ∀ row ∈ rows, ∀ entry ∈ row.env, entry.2.id ≠ arg.id

/-- The branches of a node, built one after the other. -/
inductive Chain {K : Type}
    (P : K → List (Row τ) → Build → Tree τ → Build → Prop) :
    List (K × List (Row τ)) → Build → List (K × Tree τ) → Build → Prop where
  | nil {st : Build} : Chain P [] st [] st
  | cons {key : K} {rows : List (Row τ)} {rest : List (K × List (Row τ))}
      {tree : Tree τ} {trees : List (K × Tree τ)} {st st' st'' : Build} :
      P key rows st tree st' → Chain P rest st' trees st'' →
      Chain P ((key, rows) :: rest) st ((key, tree) :: trees) st''

/-- The type of the argument of a constructor. -/
def argTyOf (cons : List (Nat × Option τ)) (id : Nat) : Option τ :=
  (cons.lookup id).join

/-- The column, its path and its value that are left of a record once its first
field is taken out. -/
def restCols (c : Col τ) : List (String × τ) → List (Col τ)
  | [] => []
  | field :: fields => [.part c.ty (field :: fields)]

def restOf {α : Type} (x : α) : List (String × τ) → List α
  | [] => []
  | _ :: _ => [x]

section Node

variable (S : Semantics τ) (branchEnv : List Nat)
  (P : List (Col τ) → List (VarInfo τ) → List (Row τ) → Build → Tree τ →
    Build → Prop)

/-- How a node is made from the nodes below it. -/
inductive Node : List (Col τ) → List (VarInfo τ) → List (Row τ) → Build →
    Tree τ → Build → Prop where
  | empty {cols : List (Col τ)} {paths : List (VarInfo τ)} {st : Build} :
      Node cols paths [] st .emptyNode { st with notExhaustive := true }
  | leaf {row : Row τ} {rows : List (Row τ)} {st : Build} : row.pats = [] →
      Node [] [] (row :: rows) st (.leafNode row.branch row.env)
        { st with used := row.branch :: st.used }
  | univ {c : Col τ} {cols : List (Col τ)} {path : VarInfo τ}
      {paths : List (VarInfo τ)} {rows sub : List (Row τ)} {st st' : Build}
      {tree : Tree τ} : rows ≠ [] →
      (∀ v vs, c.Holds S v → Reduces S path rows v vs vs sub) →
      Sub S branchEnv P cols paths sub st tree st' →
      Node (c :: cols) (path :: paths) rows st (.univNode path tree) st'
  | eq {ty : τ} {values : Const → Prop} {cols : List (Col τ)}
      {path : VarInfo τ} {paths : List (VarInfo τ)}
      {rows defRows : List (Row τ)} {branches : List (Const × List (Row τ))}
      {trees : List (Const × Tree τ)} {tree : Tree τ} {st st' st'' : Build} :
      rows ≠ [] → S.shape ty = .const values →
      (KeyedList.keys id branches).Nodup →
      (∀ entry ∈ branches, values entry.1) →
      (∀ entry ∈ branches, ∀ vs,
        Reduces S path rows (.const entry.1) vs vs entry.2) →
      (∀ k, k ∉ KeyedList.keys id branches → ∀ vs,
        Reduces S path rows (.const k) vs vs defRows) →
      Chain (fun _ rows st tree st' =>
        Sub S branchEnv P cols paths rows st tree st') branches st trees st' →
      Sub S branchEnv P cols paths defRows st' tree st'' →
      Node (.whole ty :: cols) (path :: paths) rows st
        (.eqNode path trees tree) st''
  | data {ty : τ} {cons : List (Nat × Option τ)} {cols : List (Col τ)}
      {path : VarInfo τ} {paths : List (VarInfo τ)}
      {rows defRows : List (Row τ)}
      {branches : List (DataKey τ × List (Row τ))}
      {trees : List (DataKey τ × Tree τ)} {tree : Tree τ}
      {st st' st'' : Build} :
      rows ≠ [] → S.shape ty = .data cons →
      (KeyedList.keys DataKey.id branches).Nodup →
      (∀ entry ∈ branches,
        (entry.1.id, argTyOf cons entry.1.id) ∈ cons ∧
          entry.1.2.2 = (argTyOf cons entry.1.id).isSome) →
      (∀ entry ∈ branches, ∀ argv w vs,
        HasType S (.data entry.1.id argv) ty → (∀ u, argv = some u → w = u) →
        Reduces S path rows (.data entry.1.id argv) vs (w :: vs) entry.2) →
      (∀ id argv vs, id ∉ KeyedList.keys DataKey.id branches →
        Reduces S path rows (.data id argv) vs vs defRows) →
      Chain (fun key rows st tree st' => ∃ arg, Unbound arg paths rows ∧
        getPath tree = some arg ∧
        Sub S branchEnv P (argCol S (argTyOf cons key.id) :: cols)
          (arg :: paths) rows { st with nextId := st.nextId + 1 } tree st')
        branches st trees st' →
      (branches.length = cons.length ∧ tree = .emptyNode ∧ st'' = st' ∨
        branches.length ≠ cons.length ∧
          Sub S branchEnv P cols paths defRows st' tree st'') →
      Node (.whole ty :: cols) (path :: paths) rows st
        (.dataConNode path trees tree) st''
  | exn {ty : τ} {cols : List (Col τ)}
      {path : VarInfo τ} {paths : List (VarInfo τ)}
      {rows defRows : List (Row τ)}
      {branches : List (ExnConKey τ × List (Row τ))}
      {trees : List (ExnConKey τ × Tree τ)} {tree : Tree τ}
      {st st' st'' : Build} :
      rows ≠ [] → S.shape ty = .exn →
      (KeyedList.keys ExnConKey.key branches).Nodup →
      (∀ entry ∈ branches, S.exnCons entry.1.key ∧
        entry.1.2 = (S.exnArg (S.exnTag entry.1.key)).isSome) →
      (∀ entry ∈ branches, ∀ argv w vs,
        HasType S (.exn (S.exnTag entry.1.key) argv) ty →
        (∀ u, argv = some u → w = u) →
        Reduces S path rows (.exn (S.exnTag entry.1.key) argv) vs (w :: vs)
          entry.2) →
      (∀ tag argv vs, (∀ entry ∈ branches, S.exnTag entry.1.key ≠ tag) →
        Reduces S path rows (.exn tag argv) vs vs defRows) →
      Chain (fun key rows st tree st' => ∃ arg, Unbound arg paths rows ∧
        getPath tree = some arg ∧
        Sub S branchEnv P (argCol S (S.exnArg (S.exnTag key.key)) :: cols)
          (arg :: paths) rows { st with nextId := st.nextId + 1 } tree st')
        branches st trees st' →
      Sub S branchEnv P cols paths defRows st' tree st'' →
      Node (.whole ty :: cols) (path :: paths) rows st
        (.exnConNode path trees tree) st''
  | record {c : Col τ} {cols : List (Col τ)} {path arg : VarInfo τ}
      {paths : List (VarInfo τ)} {rows sub : List (Row τ)} {label : String}
      {fieldTy : τ} {fieldTys : List (String × τ)} {tree : Tree τ}
      {st st' : Build} :
      rows ≠ [] → c.HasFields S ((label, fieldTy) :: fieldTys) →
      Unbound arg (path :: paths) sub → getPath tree = some arg →
      (∀ fields w vs, fields.lookup label = some w →
        Reduces S path rows (.record fields) vs
          (w :: (restOf (.record fields) fieldTys ++ vs)) sub) →
      Sub S branchEnv P (.whole fieldTy :: (restCols c fieldTys ++ cols))
        (arg :: (restOf path fieldTys ++ paths)) sub
        { st with nextId := st.nextId + 1 } tree st' →
      Node (c :: cols) (path :: paths) rows st (.recNode path label tree) st'

end Node

variable {c : Col τ} {cols : List (Col τ)} {path : VarInfo τ} {rows' : List (Row τ)}
  {cols' : List (Col τ)} {st' : Build} {ty : τ} {pat : Pat τ}

section Construct

variable {S : Semantics τ} {branchEnv : List Nat}
  {P : List (Col τ) → List (VarInfo τ) → List (Row τ) → Build → Tree τ →
    Build → Prop}

/-- The matrix without the variables of its first column. -/
theorem Matrix.moved {paths : List (VarInfo τ)} {rows : List (Row τ)} {st : Build}
    (hmatrix : Matrix S branchEnv (c :: cols) (path :: paths) rows st) :
    List.Forall₂ (Moved S c path) rows (removeOtherPat path rows) :=
  removeOtherPat_moved path rows hmatrix.fits

theorem moved_fitRow {rows : List (Row τ)}
    (hmoved : List.Forall₂ (Moved S c path) rows rows')
    (hfits : ∀ row ∈ rows, List.Forall₂ (Col.Fits S) (c :: cols) row.pats) :
    ∀ row ∈ rows', FitRow S c cols row := by
  induction hmoved with
  | nil => simp
  | @cons old new olds news hhead _ ih =>
    intro row hrow
    rcases List.mem_cons.mp hrow with rfl | hrow
    · obtain ⟨pat, pat', rest, hpats, hpats', hplain, hfit, -⟩ := hhead.pats
      have hold := hfits old List.mem_cons_self
      rw [hpats] at hold
      obtain ⟨-, hrest⟩ := List.forall₂_cons.mp hold
      exact ⟨pat', rest, hpats', hplain, hfit, hrest⟩
    · exact ih (fun other hother => hfits other (by simp [hother])) row hrow

theorem moved_mem {rows : List (Row τ)}
    (hmoved : List.Forall₂ (Moved S c path) rows rows') :
    ∀ row' ∈ rows', ∃ row ∈ rows, row'.branch = row.branch ∧
      ∀ entry ∈ row'.env, entry ∈ row.env ∨ entry.2 = path := by
  induction hmoved with
  | nil => simp
  | @cons old new olds news hhead _ ih =>
    intro row' hrow'
    rcases List.mem_cons.mp hrow' with rfl | hrow'
    · exact ⟨old, List.mem_cons_self, hhead.branch, hhead.env⟩
    · obtain ⟨row, hrow, hfacts⟩ := ih row' hrow'
      exact ⟨row, List.mem_cons_of_mem _ hrow, hfacts⟩

/-- Where the rows of a selection come from. -/
theorem select_from {rows : List (Row τ)}
    (hmoved : List.Forall₂ (Moved S c path) rows rows')
    {select : Row τ → Option (Row τ)}
    (hselects : Selects S cols' rows' select) :
    ∀ row' ∈ rows'.filterMap select, ∃ row ∈ rows,
      row'.branch = row.branch ∧ List.Forall₂ (Col.Fits S) cols' row'.pats ∧
      ∀ entry ∈ row'.env, entry ∈ row.env ∨ entry.2 = path := by
  intro row'' hrow''
  obtain ⟨row', hrow', hselect⟩ := List.mem_filterMap.mp hrow''
  obtain ⟨hbranch, henv, hfits, -⟩ := hselects row' hrow' row'' hselect
  obtain ⟨row, hrow, hbranch', henv'⟩ := moved_mem hmoved row' hrow'
  refine ⟨row, hrow, hbranch.trans hbranch', hfits, ?_⟩
  rw [henv]
  exact henv'

/-- The matrix of the rows that a selection makes. -/
theorem Matrix.select {paths paths' : List (VarInfo τ)}
    {rows : List (Row τ)} {st : Build}
    (hmatrix : Matrix S branchEnv (c :: cols) (path :: paths) rows st)
    (hmoved : List.Forall₂ (Moved S c path) rows rows')
    {select : Row τ → Option (Row τ)} (hselects : Selects S cols' rows' select)
    (htypes : List.Forall₂ (fun c path => path.ty = c.ty) cols' paths')
    (hpaths : ∀ path ∈ paths', path.id < st'.nextId)
    (hle : st.nextId ≤ st'.nextId) :
    Matrix S branchEnv cols' paths' (rows'.filterMap select) st' := by
  have hfrom := select_from hmoved hselects
  refine ⟨htypes, ?_, ?_, hpaths, ?_⟩
  · intro row' hrow'
    obtain ⟨row, -, -, hfits, -⟩ := hfrom row' hrow'
    exact hfits
  · intro row' hrow'
    obtain ⟨row, hrow, hbranch, -⟩ := hfrom row' hrow'
    exact hbranch ▸ hmatrix.branch row hrow
  · intro row' hrow' entry hentry
    obtain ⟨row, hrow, -, -, henv⟩ := hfrom row' hrow'
    rcases henv entry hentry with hold | hpath
    · exact Nat.lt_of_lt_of_le (hmatrix.env_lt row hrow entry hold) hle
    · rw [hpath]
      exact Nat.lt_of_lt_of_le (hmatrix.paths_lt path List.mem_cons_self) hle

/-- A reduction of the rows without variables is one of the rows. -/
theorem Reduces.of_moved {rows sub : List (Row τ)}
    (hmoved : List.Forall₂ (Moved S c path) rows rows') {v : Value}
    {vs vs' : List Value} (hreduces : Reduces S path rows' v vs vs' sub) :
    Reduces S path rows v vs vs' sub := by
  intro B bind ofEnv hlaw
  rw [← Moved.firstMatch_eq hmoved hlaw]
  exact hreduces B bind ofEnv hlaw

theorem buildAll_chain {K : Type}
    {P : K → List (Row τ) → Build → Tree τ → Build → Prop}
    (build : List (Row τ) → Build → Except Failure (Tree τ × Build))
    (branches : List (K × List (Row τ))) (st : Build)
    (hbuild : ∀ entry ∈ branches, ∀ st₁ : Build, st.nextId ≤ st₁.nextId →
      ∃ tree st₂, build entry.2 st₁ = .ok (tree, st₂) ∧
        st₁.nextId ≤ st₂.nextId ∧ P entry.1 entry.2 st₁ tree st₂) :
    ∃ trees st', buildAll build branches st = .ok (trees, st') ∧
      st.nextId ≤ st'.nextId ∧ Chain P branches st trees st' := by
  induction branches generalizing st with
  | nil => exact ⟨[], st, rfl, Nat.le_refl _, .nil⟩
  | cons entry rest ih =>
    obtain ⟨key, rows⟩ := entry
    obtain ⟨tree, st₁, hok, hle, hholds⟩ :=
      hbuild _ List.mem_cons_self st (Nat.le_refl _)
    obtain ⟨trees, st₂, hrest, hle', hchain⟩ := ih st₁
      fun other hother st₃ hst₃ =>
        hbuild other (by simp [hother]) st₃ (Nat.le_trans hle hst₃)
    refine ⟨(key, tree) :: trees, st₂, ?_, Nat.le_trans hle hle',
      .cons hholds hchain⟩
    simp only at hok
    simp [buildAll, hok, hrest, bind, Except.bind]

/-- The column of the argument of a constructor. -/
theorem mem_argTyOf {cons : List (Nat × Option τ)}
    (hnodup : (cons.map Prod.fst).Nodup) {con : Nat} {argTy : Option τ}
    (hmem : (con, argTy) ∈ cons) : argTyOf cons con = argTy := by
  induction cons with
  | nil => simp at hmem
  | cons head rest ih =>
    obtain ⟨con', argTy'⟩ := head
    obtain ⟨hfresh, hrest⟩ := List.nodup_cons.mp hnodup
    rcases List.mem_cons.mp hmem with heq | hlater
    · obtain ⟨rfl, rfl⟩ : con = con' ∧ argTy = argTy' := by simpa using heq
      simp [argTyOf]
    · have hne : con ≠ con' := by
        rintro rfl
        exact hfresh (List.mem_map.mpr ⟨(con, argTy), hlater, rfl⟩)
      have hbeq : (con == con') = false := by simpa using hne
      have htail := ih hrest hlater
      simpa [argTyOf, List.lookup_cons, hbeq] using htail

theorem readDataCon_weight (pat : Pat τ) (con : DataKey τ) (arg : Pat τ)
    (hread : readDataCon pat = some (con, arg)) : arg.weight < pat.weight := by
  cases pat with
  | dataConPat c inst hasArg a ty =>
    obtain ⟨-, rfl⟩ : (c, inst, hasArg) = con ∧ a = arg := by
      simpa [readDataCon] using hread
    simp [Pat.weight]
  | _ => simp [readDataCon] at hread

theorem readExnCon_weight (pat : Pat τ) (con : ExnConKey τ) (arg : Pat τ)
    (hread : readExnCon pat = some (con, arg)) : arg.weight < pat.weight := by
  cases pat with
  | exnConPat c hasArg a ty =>
    obtain ⟨-, rfl⟩ : (c, hasArg) = con ∧ a = arg := by
      simpa [readExnCon] using hread
    simp [Pat.weight]
  | _ => simp [readExnCon] at hread

theorem hasHead_const {values : Const → Prop}
    {row : Row τ} (hshape : S.shape ty = .const values)
    (hfit : FitRow S (.whole ty) cols row) :
    HasHead (fun pat => IsWild pat ∨ IsConst pat) row := by
  obtain ⟨pat, rest, hpats, hplain, hfits, -⟩ := hfit
  refine ⟨pat, rest, hpats, ?_⟩
  rcases head_const hshape hplain hfits with hwild | ⟨k, rfl, -⟩
  · exact Or.inl hwild
  · exact Or.inr ⟨k, ty, rfl⟩

/-- The constructor patterns of a column of a datatype, with the columns of
their arguments. -/
theorem dataCon_args {cons : List (Nat × Option τ)}
    (hshape : S.shape ty = .data cons) {con : DataKey τ}
    {arg : Pat τ} (hfits : (Col.whole ty).Fits S pat)
    (hread : readDataCon pat = some (con, arg)) :
    ((con.id, argTyOf cons con.id) ∈ cons ∧
        con.2.2 = (argTyOf cons con.id).isSome) ∧
      (argCol S (argTyOf cons con.id)).Fits S arg := by
  cases pat with
  | dataConPat c inst hasArg a t =>
    have hplain : Plain (Pat.dataConPat c inst hasArg a t) := trivial
    rcases head_data hshape hplain hfits with
      ⟨t', hwild⟩ | ⟨c', inst', hasArg', a', argTy, hpat, -, hmem, hhas, harg⟩
    · cases hwild
    · cases hpat
      obtain ⟨rfl, rfl⟩ : (c, inst, hasArg) = con ∧ a = arg := by
        simpa [readDataCon] using hread
      have heq : argTyOf cons c.id = argTy :=
        mem_argTyOf (S.data_nodup ty cons hshape) hmem
      simp only [DataKey.id, heq]
      exact ⟨⟨hmem, hhas⟩, harg⟩
  | _ => simp [readDataCon] at hread

theorem dataCon_heads {cons : List (Nat × Option τ)}
    (hshape : S.shape ty = .data cons) (hplain : Plain pat)
    (hfits : (Col.whole ty).Fits S pat) :
    IsWild pat ∨ ∃ found, readDataCon pat = some found := by
  rcases head_data hshape hplain hfits with
    hwild | ⟨c, inst, hasArg, arg, argTy, rfl, -⟩
  · exact Or.inl hwild
  · exact Or.inr ⟨_, rfl⟩

theorem exnCon_args (hshape : S.shape ty = .exn)
    {con : ExnConKey τ} {arg : Pat τ} (hfits : (Col.whole ty).Fits S pat)
    (hread : readExnCon pat = some (con, arg)) :
    (S.exnCons con.key ∧ con.2 = (S.exnArg (S.exnTag con.key)).isSome) ∧
      (argCol S (S.exnArg (S.exnTag con.key))).Fits S arg := by
  cases pat with
  | exnConPat e hasArg a t =>
    have hplain : Plain (Pat.exnConPat e hasArg a t) := trivial
    rcases head_exn hshape hplain hfits with
      ⟨t', hwild⟩ | ⟨e', hasArg', a', argTy, hpat, hcon, rfl, hhas, harg⟩
    · cases hwild
    · cases hpat
      obtain ⟨rfl, rfl⟩ : (e, hasArg) = con ∧ a = arg := by
        simpa [readExnCon] using hread
      exact ⟨⟨hcon, hhas⟩, harg⟩
  | _ => simp [readExnCon] at hread

theorem exnCon_heads (hshape : S.shape ty = .exn)
    (hplain : Plain pat) (hfits : (Col.whole ty).Fits S pat) :
    IsWild pat ∨ ∃ found, readExnCon pat = some found := by
  rcases head_exn hshape hplain hfits with
    hwild | ⟨e, hasArg, arg, argTy, rfl, -⟩
  · exact Or.inl hwild
  · exact Or.inr ⟨_, rfl⟩

/-- The branches of a typed column of constructors: where every pattern is a
wildcard or a constructor, `good` holds of the constructors, and the arguments
fit the columns of the constructors. -/
theorem conBranches_typed {K κ : Type} [DecidableEq κ] (key : K → κ)
    (readCon : Pat τ → Option (K × Pat τ)) (argument : κ → Col τ)
    {good : K → Prop} {rows : List (Row τ)}
    (hfit : ∀ row ∈ rows, FitRow S c cols row)
    (hwild : ∀ ty, readCon (.wildPat ty) = none)
    (hweight : ∀ pat con arg, readCon pat = some (con, arg) →
      arg.weight < pat.weight) (hheads : ∀ pat, Plain pat → c.Fits S pat →
      IsWild pat ∨ ∃ found, readCon pat = some found)
    (hargs : ∀ pat con arg, c.Fits S pat → readCon pat = some (con, arg) →
      good con ∧ (argument (key con)).Fits S arg) :
    ∃ branches, conBranches key readCon rows =
        .ok (branches, rows.filterMap selWild) ∧
      (KeyedList.keys key branches).Nodup ∧
      (∀ k, k ∈ KeyedList.keys key branches ↔ TestsCon key readCon k rows) ∧
      ArgHeads key (fun k => (argument k).ty) branches ∧
      (∀ entry ∈ branches, good entry.1) ∧
      (∀ entry ∈ branches, entry.2 = rows.filterMap
        (selCon key readCon (key entry.1) (argument (key entry.1)).ty)) ∧
      ∀ k, Selects S (argument k :: cols) rows
        (selCon key readCon k (argument k).ty) := by
  have hcon : ∀ row ∈ rows, HasHead (fun pat => IsWild pat ∨
      ∃ con arg, readCon pat = some (con, arg) ∧
        getTyInPat arg = (argument (key con)).ty) row := by
    intro row hrow
    obtain ⟨pat, rest, hpats, hplain, hfits, -⟩ := hfit row hrow
    refine ⟨pat, rest, hpats, ?_⟩
    rcases hheads pat hplain hfits with hiswild | ⟨⟨con, arg⟩, hread⟩
    · exact Or.inl hiswild
    · exact Or.inr ⟨con, arg, hread, (hargs _ _ _ hfits hread).2.getTyInPat⟩
  obtain ⟨branches, hbranches, hnodup, hkeys, hargHeads, hfrom, hfind⟩ :=
    conBranches_spec key readCon (fun k => (argument k).ty) rows hwild hcon
  refine ⟨branches, hbranches, hnodup, hkeys, hargHeads, ?_, ?_, ?_⟩
  · intro entry hentry
    obtain ⟨row, hrow, pat, rest, hpats, arg, hread⟩ := hfrom entry hentry
    obtain ⟨pat', rest', hpats', -, hfits, -⟩ := hfit row hrow
    obtain ⟨rfl, rfl⟩ : pat = pat' ∧ rest = rest' := by
      simpa [hpats] using hpats'
    exact (hargs pat entry.1 arg hfits hread).1
  · exact fun entry hentry => hfind _ entry (KeyedList.find_of_mem hnodup hentry)
  · intro k
    apply selCon_selects hfit hweight
    rintro pat con arg hfits hread rfl
    exact (hargs pat con arg hfits hread).2

/-- What the induction over the construction delivers for one matrix. -/
def Built (S : Semantics τ) (branchEnv : List Nat)
    (P : List (Col τ) → List (VarInfo τ) → List (Row τ) → Build → Tree τ →
      Build → Prop)
    (build : List (VarInfo τ) → List (Row τ) → Build →
      Except Failure (Tree τ × Build))
    (cols : List (Col τ)) (paths : List (VarInfo τ)) (rows : List (Row τ))
    (st : Build) : Prop :=
  ∃ tree st', build paths rows st = .ok (tree, st') ∧
    Sub S branchEnv P cols paths rows st tree st'

/-- The trees of smaller matrices, and how one node is made from them. -/
structure Smaller (S : Semantics τ) (branchEnv : List Nat)
    (P : List (Col τ) → List (VarInfo τ) → List (Row τ) → Build → Tree τ →
      Build → Prop)
    (build : List (VarInfo τ) → List (Row τ) → Build →
      Except Failure (Tree τ × Build)) (bound : Nat) : Prop where
  built : ∀ cols paths rows st, Matrix S branchEnv cols paths rows st →
    2 * rowsWeight rows + cols.length < bound →
    Built S branchEnv P build cols paths rows st

section Make

variable {build : List (VarInfo τ) → List (Row τ) → Build →
    Except Failure (Tree τ × Build)} {c : Col τ} {cols : List (Col τ)}
  {path : VarInfo τ} {paths : List (VarInfo τ)} {rows rows' : List (Row τ)}
  {st : Build}

/-- What is shared by the nodes of a column: the matrix, its rows without
variables, and the trees of the matrices that are lighter or narrower. -/
structure Column (S : Semantics τ) (branchEnv : List Nat)
    (P : List (Col τ) → List (VarInfo τ) → List (Row τ) → Build → Tree τ →
      Build → Prop)
    (build : List (VarInfo τ) → List (Row τ) → Build →
      Except Failure (Tree τ × Build))
    (c : Col τ) (cols : List (Col τ)) (path : VarInfo τ)
    (paths : List (VarInfo τ)) (rows rows' : List (Row τ)) (st : Build) :
    Prop where
  matrix : Matrix S branchEnv (c :: cols) (path :: paths) rows st
  moved : List.Forall₂ (Moved S c path) rows rows'
  nonempty : rows ≠ []
  smaller : Smaller S branchEnv P build
    (2 * rowsWeight rows' + cols.length + 1)

variable (hcolumn : Column S branchEnv P build c cols path paths rows rows' st)

include hcolumn

theorem Column.fitRow : ∀ row ∈ rows', FitRow S c cols row :=
  moved_fitRow hcolumn.moved hcolumn.matrix.fits

theorem Column.types : List.Forall₂ (fun c path => path.ty = c.ty) cols paths :=
  (List.forall₂_cons.mp hcolumn.matrix.types).2

/-- The tree of the rows without the column. -/
theorem Column.narrower {select : Row τ → Option (Row τ)}
    (hselects : Selects S cols rows' select) (hle : st.nextId ≤ st'.nextId) :
    Built S branchEnv P build cols paths (rows'.filterMap select) st' := by
  apply hcolumn.smaller.built
  · refine hcolumn.matrix.select hcolumn.moved hselects hcolumn.types ?_ hle
    intro p hp
    exact Nat.lt_of_lt_of_le
      (hcolumn.matrix.paths_lt p (List.mem_cons_of_mem _ hp)) hle
  · have hweight := hselects.rowsWeight_le
    omega

/-- The tree of lighter rows under columns of the tested value. -/
theorem Column.lighter {select : Row τ → Option (Row τ)}
    (newCols : List (Col τ)) (newPaths : List (VarInfo τ)) (st' : Build)
    (hselects : Selects S (newCols ++ cols) rows' select)
    (hle : st.nextId ≤ st'.nextId)
    (htypes : List.Forall₂ (fun c path => path.ty = c.ty) newCols newPaths)
    (hpaths : ∀ p ∈ newPaths, p.id < st'.nextId)
    (hweight : rowsWeight (rows'.filterMap select) < rowsWeight rows')
    (hlength : newCols.length ≤ 2) :
    Built S branchEnv P build (newCols ++ cols) (newPaths ++ paths)
      (rows'.filterMap select) st' := by
  apply hcolumn.smaller.built
  · refine hcolumn.matrix.select hcolumn.moved hselects ?_ ?_ hle
    · exact List.rel_append htypes hcolumn.types
    · intro p hp
      rcases List.mem_append.mp hp with hnew | hold
      · exact hpaths p hnew
      · exact Nat.lt_of_lt_of_le
          (hcolumn.matrix.paths_lt p (List.mem_cons_of_mem _ hold)) hle
  · simp only [List.length_append]
    omega

/-- A new variable is mentioned nowhere. -/
theorem Column.unbound (arg : VarInfo τ)
    {select : Row τ → Option (Row τ)} (hselects : Selects S cols' rows' select)
    (harg : st.nextId ≤ arg.id) :
    Unbound arg (path :: paths) (rows'.filterMap select) := by
  constructor
  · intro p hp
    exact Nat.ne_of_lt (Nat.lt_of_lt_of_le (hcolumn.matrix.paths_lt p hp) harg)
  · intro row' hrow' entry hentry
    obtain ⟨row, hrow, -, -, henv⟩ :=
      select_from hcolumn.moved hselects row' hrow'
    rcases henv entry hentry with hold | hpath
    · exact Nat.ne_of_lt
        (Nat.lt_of_lt_of_le (hcolumn.matrix.env_lt row hrow entry hold) harg)
    · rw [hpath]
      exact Nat.ne_of_lt (Nat.lt_of_lt_of_le
        (hcolumn.matrix.paths_lt path List.mem_cons_self) harg)

theorem Column.sub {tree : Tree τ}
    (hle : st.nextId ≤ st'.nextId) (hroot : getPath tree = some path)
    (hholds : P (c :: cols) (path :: paths) rows st tree st') :
    Sub S branchEnv P (c :: cols) (path :: paths) rows st tree st' where
  matrix := hcolumn.matrix
  le := hle
  root _ p hp := by
    obtain rfl : path = p := by simpa using hp
    exact hroot
  holds := hholds

/-- The node of a column, as its constructor delivers it. -/
def Made (S : Semantics τ) (branchEnv : List Nat)
    (P : List (Col τ) → List (VarInfo τ) → List (Row τ) → Build → Tree τ →
      Build → Prop) (cols : List (Col τ)) (path : VarInfo τ)
    (paths : List (VarInfo τ)) (rows : List (Row τ)) (st : Build)
    (result : Except Failure (Tree τ × Build)) : Prop :=
  ∃ tree st', result = .ok (tree, st') ∧ st.nextId ≤ st'.nextId ∧
    getPath tree = some path ∧
    Node S branchEnv P cols (path :: paths) rows st tree st'

theorem Column.makeUnivTree (hreduces : ∀ v vs, c.Holds S v →
      Reduces S path rows' v vs vs (rows'.filterMap selDrop)) :
    Made S branchEnv P (c :: cols) path paths rows st
      (makeUnivTree build path paths rows' st) := by
  obtain ⟨tree, st', hbuild, hsub⟩ := hcolumn.narrower
    (selDrop_selects hcolumn.fitRow) (Nat.le_refl _)
  refine ⟨.univNode path tree, st', ?_, hsub.le, rfl,
    .univ hcolumn.nonempty ?_ hsub⟩
  · simp [MatchCompiler.makeUnivTree, mapM_dropHead hcolumn.fitRow, hbuild,
      bind, Except.bind]
  · exact fun v vs hholds => (hreduces v vs hholds).of_moved hcolumn.moved

omit hcolumn in
theorem Column.makeEqTree {ty : τ} {values : Const → Prop}
    (hcolumn : Column S branchEnv P build (.whole ty) cols path paths rows rows'
      st) (hshape : S.shape ty = .const values) :
    Made S branchEnv P (.whole ty :: cols) path paths rows st
      (makeEqTree build path paths rows' st) := by
  have hfit := hcolumn.fitRow
  obtain ⟨branches, hbranches, hnodup, hkeys, hfind⟩ :=
    constBranches_spec rows' fun row hrow => hasHead_const hshape (hfit row hrow)
  have hrowsOf : ∀ entry ∈ branches,
      entry.2 = rows'.filterMap (selConst entry.1) := fun entry hentry =>
    hfind entry.1 entry (KeyedList.find_of_mem hnodup hentry)
  obtain ⟨trees, st₁, hall, hle₁, hchain⟩ := buildAll_chain
    (P := fun _ rows st tree st' => Sub S branchEnv P cols paths rows st tree st')
    (build paths) branches st (by
      intro entry hentry st₁ hst₁
      obtain ⟨tree, st₂, hbuild, hsub⟩ := hcolumn.narrower
        (selConst_selects hfit entry.1) hst₁
      rw [← hrowsOf entry hentry] at hbuild hsub
      exact ⟨tree, st₂, hbuild, hsub.le, hsub⟩)
  obtain ⟨tree, st₂, hdefault, hsub⟩ :=
    hcolumn.narrower (selWild_selects hfit) hle₁
  refine ⟨.eqNode path trees tree, st₂, ?_, Nat.le_trans hle₁ hsub.le, rfl,
    .eq hcolumn.nonempty hshape hnodup ?_ ?_ ?_ hchain hsub⟩
  · simp [MatchCompiler.makeEqTree, hbranches, hall, hdefault, bind, Except.bind]
  · intro entry hentry
    have hmem : entry.1 ∈ KeyedList.keys id branches :=
      List.mem_map.mpr ⟨entry, hentry, rfl⟩
    obtain ⟨row, hrow, pat, rest, hpats, t, rfl⟩ := (hkeys entry.1).mp hmem
    obtain ⟨pat', rest', hpats', hplain, hfits, -⟩ := hfit row hrow
    obtain ⟨rfl, rfl⟩ : Pat.constPat entry.1 t = pat' ∧ rest = rest' := by
      simpa [hpats] using hpats'
    rcases head_const hshape hplain hfits with ⟨t', hwild⟩ | ⟨k, hk, hvalues⟩
    · cases hwild
    · obtain ⟨rfl, -⟩ : entry.1 = k ∧ t = ty := by simpa using hk
      exact hvalues
  · intro entry hentry vs
    rw [hrowsOf entry hentry]
    exact (reduces_const hshape hfit entry.1 vs).of_moved hcolumn.moved
  · intro k hk vs
    have hnot : ¬ TestsConst k rows' := fun htests => hk ((hkeys k).mpr htests)
    have hreduces : Reduces S path rows' (.const k) vs vs
        (rows'.filterMap (selConst k)) := reduces_const hshape hfit k vs
    rw [filterMap_selConst_of_not hnot] at hreduces
    exact hreduces.of_moved hcolumn.moved

/-- The tree under a constructor, over a new variable for its argument. -/
theorem Column.argTree {argument : Col τ} {select : Row τ → Option (Row τ)}
    (hselects : Selects S (argument :: cols) rows' select)
    (hweight : rowsWeight (rows'.filterMap select) < rowsWeight rows')
    (hhead : ∃ pat rest branch env others,
      rows'.filterMap select = ⟨pat :: rest, branch, env⟩ :: others ∧
        getTyInPat pat = argument.ty)
    {st' : Build} (hle : st.nextId ≤ st'.nextId) :
    ∃ tree st'' arg,
      MatchCompiler.argTree build paths (rows'.filterMap select) st' =
          .ok (tree, st'') ∧
        Unbound arg paths (rows'.filterMap select) ∧ getPath tree = some arg ∧
        st'.nextId ≤ st''.nextId ∧
        Sub S branchEnv P (argument :: cols) (arg :: paths)
          (rows'.filterMap select) { st' with nextId := st'.nextId + 1 } tree
          st'' := by
  obtain ⟨pat, rest, branch, env, others, hrows, hty⟩ := hhead
  have hnew : st.nextId ≤ st'.nextId + 1 := by omega
  obtain ⟨tree, st'', hbuild, hsub⟩ := hcolumn.lighter [argument]
    [⟨[], getTyInPat pat, st'.nextId⟩] { st' with nextId := st'.nextId + 1 }
    hselects hnew
    (.cons hty .nil) (by simp) hweight (by simp)
  have hle' : st'.nextId + 1 ≤ st''.nextId := hsub.le
  have hunbound := hcolumn.unbound ⟨[], getTyInPat pat, st'.nextId⟩ hselects
    hle
  refine ⟨tree, st'', ⟨[], getTyInPat pat, st'.nextId⟩, ?_,
    ⟨fun p hp => hunbound.1 p (List.mem_cons_of_mem _ hp), hunbound.2⟩, ?_,
    by omega, hsub⟩
  · have hargs : MatchCompiler.argTree build paths (rows'.filterMap select)
          st' = build (⟨[], getTyInPat pat, st'.nextId⟩ :: paths)
          (rows'.filterMap select) { st' with nextId := st'.nextId + 1 } := by
      rw [hrows]
      rfl
    rw [hargs]
    exact hbuild
  · exact hsub.root (by simp [hrows]) _ rfl

omit hcolumn in
theorem Column.makeDataConTree {ty : τ} {cons : List (Nat × Option τ)}
    (hcolumn : Column S branchEnv P build (.whole ty) cols path paths rows rows'
      st) (hshape : S.shape ty = .data cons)
    (hsome : ∃ row ∈ rows', HasHead IsDataCon row) :
    Made S branchEnv P (.whole ty :: cols) path paths rows st
      (makeDataConTree build cons.length path paths rows' st) := by
  have hfit := hcolumn.fitRow
  obtain ⟨branches, hbranches, hnodup, hkeys, hargHeads, hkeyOf, hrowsOf,
    hselects⟩ := conBranches_typed DataKey.id readDataCon
      (fun k => argCol S (argTyOf cons k)) hfit (fun _ => rfl)
      readDataCon_weight (fun _ => dataCon_heads hshape)
      (fun _ _ _ => dataCon_args hshape)
  have hreadSome : ∃ row ∈ rows',
      HasHead (fun pat => ∃ found, readDataCon pat = some found) row := by
    obtain ⟨row, hrow, pat, rest, hpats, con, inst, hasArg, arg, t, rfl⟩ := hsome
    exact ⟨row, hrow, _, rest, hpats, _, rfl⟩
  obtain ⟨trees, st₁, hall, hle₁, hchain⟩ := buildAll_chain
    (P := fun key rows st tree st' => ∃ arg, Unbound arg paths rows ∧
      getPath tree = some arg ∧
      Sub S branchEnv P (argCol S (argTyOf cons (DataKey.id key)) :: cols)
        (arg :: paths) rows { st with nextId := st.nextId + 1 } tree st')
    (MatchCompiler.argTree build paths) branches st (by
      intro entry hentry st₁ hst₁
      have hhead := hargHeads entry hentry
      rw [hrowsOf entry hentry] at hhead ⊢
      obtain ⟨tree, st₂, arg, hok, harg, hroot, hle, hsub⟩ :=
        hcolumn.argTree (hselects entry.1.id)
          (selCon_lt (hselects _) readDataCon_weight hreadSome) hhead hst₁
      exact ⟨tree, st₂, hok, hle, arg, harg, hroot, hsub⟩)
  have hreduces : ∀ entry ∈ branches, ∀ argv w vs,
      HasType S (.data entry.1.id argv) ty → (∀ u, argv = some u → w = u) →
      Reduces S path rows (.data entry.1.id argv) vs (w :: vs) entry.2 := by
    intro entry hentry argv w vs htyped hw
    rw [hrowsOf entry hentry]
    exact (reduces_data hshape hfit htyped hw _ vs).of_moved hcolumn.moved
  have hdefault : ∀ id argv vs, id ∉ KeyedList.keys DataKey.id branches →
      Reduces S path rows (.data id argv) vs vs (rows'.filterMap selWild) := by
    intro id argv vs hid
    exact (reduces_data_default hshape hfit
      (fun htests => hid ((hkeys id).mpr htests)) argv vs).of_moved
        hcolumn.moved
  by_cases hspans : branches.length = cons.length
  · refine ⟨.dataConNode path trees .emptyNode, st₁, ?_, hle₁, rfl,
      .data hcolumn.nonempty hshape hnodup hkeyOf hreduces hdefault hchain
        (Or.inl ⟨hspans, rfl, rfl⟩)⟩
    simp [MatchCompiler.makeDataConTree, hbranches, hall, hspans, bind,
      Except.bind]
  · obtain ⟨tree, st₂, hdef, hsub⟩ :=
      hcolumn.narrower (selWild_selects hfit) hle₁
    refine ⟨.dataConNode path trees tree, st₂, ?_, Nat.le_trans hle₁ hsub.le,
      rfl, .data hcolumn.nonempty hshape hnodup hkeyOf hreduces hdefault hchain
        (Or.inr ⟨hspans, hsub⟩)⟩
    simp [MatchCompiler.makeDataConTree, hbranches, hall, hspans, hdef, bind,
      Except.bind]

omit hcolumn in
theorem Column.makeExnConTree {ty : τ}
    (hcolumn : Column S branchEnv P build (.whole ty) cols path paths rows rows'
      st) (hshape : S.shape ty = .exn)
    (hsome : ∃ row ∈ rows', HasHead IsExnCon row) :
    Made S branchEnv P (.whole ty :: cols) path paths rows st
      (makeExnConTree build path paths rows' st) := by
  have hfit := hcolumn.fitRow
  obtain ⟨branches, hbranches, hnodup, hkeys, hargHeads, hkeyOf, hrowsOf,
    hselects⟩ := conBranches_typed ExnConKey.key readExnCon
      (fun k => argCol S (S.exnArg (S.exnTag k))) hfit (fun _ => rfl)
      readExnCon_weight (fun _ => exnCon_heads hshape)
      (fun _ _ _ => exnCon_args hshape)
  have hreadSome : ∃ row ∈ rows',
      HasHead (fun pat => ∃ found, readExnCon pat = some found) row := by
    obtain ⟨row, hrow, pat, rest, hpats, exn, hasArg, arg, t, rfl⟩ := hsome
    exact ⟨row, hrow, _, rest, hpats, _, rfl⟩
  obtain ⟨trees, st₁, hall, hle₁, hchain⟩ := buildAll_chain
    (P := fun key rows st tree st' => ∃ arg, Unbound arg paths rows ∧
      getPath tree = some arg ∧
      Sub S branchEnv P
        (argCol S (S.exnArg (S.exnTag (ExnConKey.key key))) :: cols)
        (arg :: paths) rows { st with nextId := st.nextId + 1 } tree st')
    (MatchCompiler.argTree build paths) branches st (by
      intro entry hentry st₁ hst₁
      have hhead := hargHeads entry hentry
      rw [hrowsOf entry hentry] at hhead ⊢
      obtain ⟨tree, st₂, arg, hok, harg, hroot, hle, hsub⟩ :=
        hcolumn.argTree (hselects entry.1.key)
          (selCon_lt (hselects _) readExnCon_weight hreadSome) hhead hst₁
      exact ⟨tree, st₂, hok, hle, arg, harg, hroot, hsub⟩)
  obtain ⟨tree, st₂, hdef, hsub⟩ :=
    hcolumn.narrower (selWild_selects hfit) hle₁
  refine ⟨.exnConNode path trees tree, st₂, ?_, Nat.le_trans hle₁ hsub.le, rfl,
    .exn hcolumn.nonempty hshape hnodup hkeyOf ?_ ?_ hchain hsub⟩
  · simp [MatchCompiler.makeExnConTree, hbranches, hall, hdef, bind,
      Except.bind]
  · intro entry hentry argv w vs htyped hw
    rw [hrowsOf entry hentry]
    exact (reduces_exn hshape hfit (hkeyOf entry hentry).1 htyped hw _
      vs).of_moved hcolumn.moved
  · intro tag argv vs hno
    refine (reduces_exn_default hshape hfit ?_ argv vs).of_moved hcolumn.moved
    intro key htests
    obtain ⟨entry, hentry, rfl⟩ := List.mem_map.mp ((hkeys key).mpr htests)
    exact hno entry hentry

/-- The node of a record with fields. -/
theorem Column.makeRecTree {label : String} {fieldTy : τ}
    {fieldTys : List (String × τ)}
    (hfields : c.HasFields S ((label, fieldTy) :: fieldTys))
    (hsome : ∃ row ∈ rows', HasHead IsRecord row) :
    Made S branchEnv P (c :: cols) path paths rows st
      ((recordKind c.ty ((label, fieldTy) :: fieldTys)).make build path paths
        rows' st) := by
  have hfit := hcolumn.fitRow
  have hpath : path.id < st.nextId + 1 :=
    Nat.lt_succ_of_lt (hcolumn.matrix.paths_lt path List.mem_cons_self)
  cases fieldTys with
  | nil =>
    obtain ⟨hselects, hmap⟩ := selOnly_selects hfields hfit
    obtain ⟨tree, st', hbuild, hsub⟩ := hcolumn.lighter
      [.whole fieldTy] [⟨[], fieldTy, st.nextId⟩]
      { st with nextId := st.nextId + 1 } hselects (Nat.le_succ _)
      (.cons rfl .nil) (by simp) (selOnly_lt hfields hfit hsome) (by simp)
    have hle : st.nextId + 1 ≤ st'.nextId := hsub.le
    have hne : rows'.filterMap (selOnly fieldTy) ≠ [] := by
      obtain ⟨row, hrow, -⟩ := hsome
      obtain ⟨row', -, hselect, -⟩ := onlyField_row hfields hfit row hrow
      exact List.ne_nil_of_mem (List.mem_filterMap.mpr ⟨row, hrow, hselect⟩)
    refine ⟨.recNode path label tree, st', ?_, by omega, rfl,
      .record hcolumn.nonempty hfields (hcolumn.unbound _ hselects (Nat.le_refl _))
        (hsub.root hne _ rfl) ?_ hsub⟩
    · simp only [recordKind, RootKind.make, makeNRecTree, freshVar, hmap]
      simp only [List.cons_append, List.nil_append] at hbuild
      simp [hbuild, bind, Except.bind]
    · intro fields w vs hlookup
      exact (reduces_only hfields hfit hlookup vs).of_moved hcolumn.moved
  | cons second others =>
    obtain ⟨hselects, hmap⟩ := selFirst_selects hfields hfit
    obtain ⟨tree, st', hbuild, hsub⟩ := hcolumn.lighter
      [.whole fieldTy, .part c.ty (second :: others)]
      [⟨[], fieldTy, st.nextId⟩, path]
      { st with nextId := st.nextId + 1 } hselects (Nat.le_succ _)
      (.cons rfl (.cons (List.forall₂_cons.mp hcolumn.matrix.types).1 .nil))
      (by simpa using hpath) (selFirst_lt hfields hfit hsome) (by simp)
    have hle : st.nextId + 1 ≤ st'.nextId := hsub.le
    have hne : rows'.filterMap (selFirst c.ty fieldTy) ≠ [] := by
      obtain ⟨row, hrow, -⟩ := hsome
      obtain ⟨row', -, hselect, -⟩ := firstField_row hfields hfit row hrow
      exact List.ne_nil_of_mem (List.mem_filterMap.mpr ⟨row, hrow, hselect⟩)
    refine ⟨.recNode path label tree, st', ?_, by omega, rfl,
      .record hcolumn.nonempty hfields (hcolumn.unbound _ hselects (Nat.le_refl _))
        (hsub.root hne _ rfl) ?_ hsub⟩
    · simp only [recordKind, RootKind.make, makeIRecTree, freshVar, hmap]
      simp only [List.cons_append, List.nil_append] at hbuild
      simp [hbuild, bind, Except.bind]
    · intro fields w vs hlookup
      exact (reduces_first hfields hfit hlookup vs).of_moved hcolumn.moved

end Make

/-- Induction over the construction: on a typed matrix with enough fuel a tree
is built, and `P` holds of it when it holds of every node that is made from
trees of which it holds. -/
theorem matchToTree_induct (hnode : ∀ cols paths rows st tree st',
      Matrix S branchEnv cols paths rows st →
      Node S branchEnv P cols paths rows st tree st' →
      P cols paths rows st tree st') (fuel : Nat) (cols : List (Col τ))
    (paths : List (VarInfo τ)) (rows : List (Row τ)) (st : Build)
    (hmatrix : Matrix S branchEnv cols paths rows st)
    (hfuel : 2 * rowsWeight rows + cols.length < fuel) :
    Built S branchEnv P (matchToTree S.toTypes branchEnv fuel) cols paths rows
      st := by
  induction fuel generalizing cols paths rows st with
  | zero => omega
  | succ fuel ih =>
    cases rows with
    | nil =>
      exact ⟨.emptyNode, { st with notExhaustive := true },
        by cases paths <;> rfl, hmatrix, Nat.le_refl _, by simp,
        hnode _ _ _ _ _ _ hmatrix .empty⟩
    | cons row rows =>
      cases paths with
      | nil =>
        have hcols : cols = [] := by
          have htypes := hmatrix.types
          cases htypes with
          | nil => rfl
        subst hcols
        have hpats : row.pats = [] := by
          have hfits := hmatrix.fits row List.mem_cons_self
          exact List.forall₂_nil_left_iff.mp hfits
        obtain ⟨pats, branch, env⟩ := row
        obtain rfl : pats = [] := hpats
        have hbranch : branch ∈ branchEnv :=
          hmatrix.branch _ List.mem_cons_self
        refine ⟨_, _, ?_, hmatrix, ?_, by simp,
          hnode _ _ _ _ _ _ hmatrix (.leaf rfl)⟩
        · simp [matchToTree, hbranch]
        · exact Nat.le_refl _
      | cons path paths =>
        cases cols with
        | nil =>
          have htypes := hmatrix.types
          cases htypes
        | cons c cols =>
          have hmoved := hmatrix.moved
          have hweight := Moved.rowsWeight_le hmoved
          have hcolumn : Column S branchEnv P
              (matchToTree S.toTypes branchEnv fuel) c cols path paths
              (row :: rows) (removeOtherPat path (row :: rows)) st :=
            ⟨hmatrix, hmoved, by simp, ⟨by
              intro cols' paths' rows' st' hmatrix' hfuel'
              apply ih _ _ _ _ hmatrix'
              simp only [List.length_cons] at hfuel
              omega⟩⟩
          have hplain : ∀ row' ∈ removeOtherPat path (row :: rows),
              PlainRow S c row' :=
            fun row' hrow' => (hcolumn.fitRow row' hrow').plainRow
          obtain ⟨kind, hdecide, hdecided⟩ :=
            decideRootNode_decided _ hplain
          have hmade : Made S branchEnv P (c :: cols) path paths
              (row :: rows) st (kind.make
                (matchToTree S.toTypes branchEnv fuel) path paths
                (removeOtherPat path (row :: rows)) st) := by
            cases hdecided with
            | univ hwild =>
              exact hcolumn.makeUnivTree fun v vs _ =>
                reduces_wild hwild v vs
            | eq hc hshape =>
              subst hc
              exact hcolumn.makeEqTree hshape
            | dataCon hc hshape hsome =>
              subst hc
              exact hcolumn.makeDataConTree hshape hsome
            | exnCon hc hshape hsome =>
              subst hc
              exact hcolumn.makeExnConTree hshape hsome
            | @record fields hfields hsome =>
              cases fields with
              | nil =>
                exact hcolumn.makeUnivTree fun v vs hholds =>
                  reduces_unit hfields hcolumn.fitRow hholds vs
              | cons field fields =>
                exact hcolumn.makeRecTree hfields hsome
          obtain ⟨tree, st', hok, hle, hroot, hnode'⟩ := hmade
          refine ⟨tree, st', ?_, hcolumn.sub hle hroot
            (hnode _ _ _ _ _ _ hmatrix hnode')⟩
          simp [matchToTree, hdecide, hok, bind, Except.bind]

end Construct

end MatchCompiler

end SmlSharp
