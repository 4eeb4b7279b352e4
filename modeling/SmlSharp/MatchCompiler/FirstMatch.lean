/-
Following the tree of a matrix reaches the leaf of the first row that matches.
-/
import SmlSharp.MatchCompiler.Construct
import Mathlib.Data.List.Perm.Subperm

namespace SmlSharp

namespace MatchCompiler

variable {τ : Type} {S : Semantics τ}

/-- The values of the variables that hold the columns. -/
def valuesAt (ρ : Nat → Value) (paths : List (VarInfo τ)) : List Value :=
  paths.map fun path => ρ path.id

def Outcome.ofMatch : Option (Nat × Bindings) → Outcome
  | some (branch, b) => .leaf branch b
  | none => .matchFail

/-- The first row that matches, with the values of the variables. -/
def firstRow (S : Semantics τ) (ρ : Nat → Value) (vs : List Value)
    (rows : List (Row τ)) : Outcome :=
  .ofMatch (firstMatch S Bindings.insert (Env.values ρ) vs rows)

theorem values_insert (ρ : Nat → Value) (path : VarInfo τ) :
    EnvLaw Bindings.insert (Env.values (τ := τ) ρ) path (ρ path.id) := by
  intro env x
  simp [Env.values, Env.insert, Bindings.insert, List.filter_map,
    Function.comp_def]

variable {vs : List Value} {ρ : Nat → Value} {arg : VarInfo τ} {v : Value}
  {paths : List (VarInfo τ)} {cols : List (Col τ)} {tree : Tree τ} {ty : τ} {st st' : Build}
  {F : List (Row τ) → Outcome}

theorem firstMatch_congr {B : Type} {bind : B → VarInfo τ → Value → B}
    {ofEnv ofEnv' : Env τ → B} {rows : List (Row τ)}
    (hrows : ∀ row ∈ rows, ofEnv row.env = ofEnv' row.env) :
    firstMatch S bind ofEnv vs rows = firstMatch S bind ofEnv' vs rows := by
  induction rows with
  | nil => rfl
  | cons row rows ih =>
    have htail := ih fun other hother => hrows other (by simp [hother])
    simp only [firstMatch] at htail ⊢
    rw [List.findSome?_cons, List.findSome?_cons, htail, Row.outcome,
      Row.outcome, hrows row (by simp)]

theorem valuesAt_update (hne : ∀ path ∈ paths, path.id ≠ arg.id) :
    valuesAt (Function.update ρ arg.id v) paths = valuesAt ρ paths := by
  apply List.map_congr_left
  intro path hpath
  exact Function.update_of_ne (hne path hpath) v ρ

theorem firstRow_update {rows : List (Row τ)}
    (hne : ∀ row ∈ rows, ∀ entry ∈ row.env, entry.2.id ≠ arg.id) :
    firstRow S (Function.update ρ arg.id v) vs rows = firstRow S ρ vs rows := by
  apply congrArg Outcome.ofMatch
  apply firstMatch_congr
  intro row hrow
  apply List.map_congr_left
  intro entry hentry
  rw [Function.update_of_ne (hne row hrow entry hentry) v ρ]

theorem Reduces.firstRow {path : VarInfo τ} {rows rows' : List (Row τ)} {vs' : List Value}
    (hreduces : Reduces S path rows v vs vs' rows') (hv : ρ path.id = v) :
    firstRow S ρ (v :: vs) rows = firstRow S ρ vs' rows' := by
  subst hv
  exact congrArg Outcome.ofMatch (hreduces _ _ _ (values_insert ρ path))

/-- The tree finds the first row that matches, for all values of the columns. -/
def Follows (S : Semantics τ) (cols : List (Col τ)) (paths : List (VarInfo τ))
    (rows : List (Row τ)) (tree : Tree τ) : Prop :=
  ∀ ρ, List.Forall₂ (Col.Holds S) cols (valuesAt ρ paths) →
    tree.eval S ρ = firstRow S ρ (valuesAt ρ paths) rows

/-- A subtree over a new variable, with the variable's value. -/
theorem Follows.bound {c : Col τ} {rows : List (Row τ)}
    (hfollows : Follows S (c :: cols) (arg :: paths) rows tree)
    (hunbound : Unbound arg paths rows) (hroot : getPath tree = some arg) (hv : c.Holds S v)
    (hholds : List.Forall₂ (Col.Holds S) cols (valuesAt ρ paths)) :
    tree.eval S (bindPath ρ tree v) =
      firstRow S ρ (v :: valuesAt ρ paths) rows := by
  have hpath : bindPath ρ tree v = Function.update ρ arg.id v := by
    simp [bindPath, hroot]
  have hvalues : valuesAt (Function.update ρ arg.id v) (arg :: paths) =
      v :: valuesAt ρ paths := by
    have htail := valuesAt_update (ρ := ρ) (v := v) hunbound.1
    simp only [valuesAt, List.map_cons, Function.update_self] at htail ⊢
    rw [htail]
  have hrun := hfollows (Function.update ρ arg.id v)
    (hvalues ▸ List.Forall₂.cons hv hholds)
  rw [hpath, hrun, hvalues, firstRow_update hunbound.2]

/-- A subtree over a variable that is not bound, for a constructor without an
argument. -/
theorem Follows.unbound {rows : List (Row τ)}
    (hfollows : Follows S (.unused ty :: cols) (arg :: paths) rows tree)
    (hholds : List.Forall₂ (Col.Holds S) cols (valuesAt ρ paths)) :
    tree.eval S ρ = firstRow S ρ (ρ arg.id :: valuesAt ρ paths) rows := by
  have hfirst : (Col.unused ty).Holds S (ρ arg.id) := trivial
  exact hfollows ρ (List.Forall₂.cons hfirst hholds)

theorem evalConst_chain {Q : Const → List (Row τ) → Build → Tree τ → Build → Prop}
    {branches : List (Const × List (Row τ))} {trees : List (Const × Tree τ)}
    (hchain : Chain Q branches st trees st')
    (hQ : ∀ key rows st tree st', Q key rows st tree st' →
      tree.eval S ρ = F rows) (k : Const) : evalConst S ρ k trees =
      (KeyedList.find id k branches).map fun entry => F entry.2 := by
  induction hchain with
  | nil => rfl
  | @cons key rows rest tree trees st st' st'' hhead _ ih =>
    by_cases hkey : key = k
    · simp [evalConst, KeyedList.find, hkey, hQ _ _ _ _ _ hhead]
    · simpa [evalConst, KeyedList.find, hkey] using ih

/-- What the branch of a constructor evaluates to. -/
def evalArg (S : Semantics τ) (ρ : Nat → Value) (hasArg : Bool)
    (argv : Option Value) (tree : Tree τ) : Outcome :=
  match hasArg, argv with
  | true, some v => tree.eval S (bindPath ρ tree v)
  | _, _ => tree.eval S ρ

theorem evalData_cons (ρ : Nat → Value) (con : Nat) (argv : Option Value)
    (key : DataKey τ) (tree : Tree τ) (rest : List (DataKey τ × Tree τ)) :
    evalData S ρ con argv ((key, tree) :: rest) =
      if key.id = con then some (evalArg S ρ key.2.2 argv tree)
      else evalData S ρ con argv rest := by
  obtain ⟨c, inst, hasArg⟩ := key
  cases hasArg <;> cases argv <;> simp [evalData, evalArg]

theorem evalExn_cons (ρ : Nat → Value) (tag : Nat) (argv : Option Value)
    (key : ExnConKey τ) (tree : Tree τ) (rest : List (ExnConKey τ × Tree τ)) :
    evalExn S ρ tag argv ((key, tree) :: rest) =
      if S.exnTag key.key = tag then some (evalArg S ρ key.2 argv tree)
      else evalExn S ρ tag argv rest := by
  obtain ⟨e, hasArg⟩ := key
  cases hasArg <;> cases argv <;> simp [evalExn, evalArg]

theorem evalData_chain {Q : DataKey τ → List (Row τ) → Build → Tree τ → Build → Prop}
    {branches : List (DataKey τ × List (Row τ))}
    {trees : List (DataKey τ × Tree τ)} (hchain : Chain Q branches st trees st')
    (con : Nat) (argv : Option Value)
    (hQ : ∀ key rows st tree st', (key, rows) ∈ branches → key.id = con →
      Q key rows st tree st' → evalArg S ρ key.2.2 argv tree = F rows) :
    evalData S ρ con argv trees =
      (KeyedList.find DataKey.id con branches).map fun entry => F entry.2 := by
  induction hchain with
  | nil => rfl
  | @cons key rows rest tree trees st st' st'' hhead _ ih =>
    by_cases hkey : key.id = con
    · have heval := hQ key rows _ _ _ List.mem_cons_self hkey hhead
      simp [evalData_cons, KeyedList.find, hkey, heval]
    · have htail := ih fun key' rows' st tree st' hmem =>
        hQ key' rows' st tree st' (List.mem_cons_of_mem _ hmem)
      simpa [evalData_cons, KeyedList.find, hkey] using htail

theorem evalExn_chain {Q : ExnConKey τ → List (Row τ) → Build → Tree τ → Build → Prop}
    {branches : List (ExnConKey τ × List (Row τ))}
    {trees : List (ExnConKey τ × Tree τ)}
    (hchain : Chain Q branches st trees st') (tag : Nat) (argv : Option Value)
    (hQ : ∀ key rows st tree st', (key, rows) ∈ branches →
      S.exnTag key.key = tag → Q key rows st tree st' →
      evalArg S ρ key.2 argv tree = F rows) :
    (∃ entry ∈ branches, S.exnTag entry.1.key = tag ∧
        evalExn S ρ tag argv trees = some (F entry.2)) ∨
      (∀ entry ∈ branches, S.exnTag entry.1.key ≠ tag) ∧
        evalExn S ρ tag argv trees = none := by
  induction hchain with
  | nil => exact Or.inr ⟨by simp, rfl⟩
  | @cons key rows rest tree trees st st' st'' hhead _ ih =>
    by_cases hkey : S.exnTag key.key = tag
    · left
      refine ⟨(key, rows), List.mem_cons_self, hkey, ?_⟩
      have heval := hQ key rows _ _ _ List.mem_cons_self hkey hhead
      simp [evalExn_cons, hkey, heval]
    · rcases ih fun key' rows' st tree st' hmem =>
        hQ key' rows' st tree st' (List.mem_cons_of_mem _ hmem) with
        ⟨entry, hentry, htag, heval⟩ | ⟨hnone, heval⟩
      · left
        refine ⟨entry, List.mem_cons_of_mem _ hentry, htag, ?_⟩
        simpa [evalExn_cons, hkey] using heval
      · right
        constructor
        · intro entry hentry
          rcases List.mem_cons.mp hentry with rfl | hentry
          · exact hkey
          · exact hnone entry hentry
        · simpa [evalExn_cons, hkey] using heval

/-- Where every constructor has a branch, every value does. -/
theorem mem_keys_of_length {K V : Type} {key : K → Nat}
    {branches : List (K × V)} {cons : List (Nat × Option τ)}
    (hnodup : (KeyedList.keys key branches).Nodup)
    (hkeys : ∀ entry ∈ branches, ∃ argTy, (key entry.1, argTy) ∈ cons)
    (hlength : branches.length = cons.length) {con : Nat} {argTy : Option τ}
    (hcon : (con, argTy) ∈ cons) : con ∈ KeyedList.keys key branches := by
  have hsubset : KeyedList.keys key branches ⊆ cons.map Prod.fst := by
    intro k hk
    obtain ⟨entry, hentry, rfl⟩ := List.mem_map.mp hk
    obtain ⟨argTy', hmem⟩ := hkeys entry hentry
    exact List.mem_map.mpr ⟨_, hmem, rfl⟩
  have hsubperm : (KeyedList.keys key branches).Subperm (cons.map Prod.fst) :=
    hnodup.subperm hsubset
  have hperm := hsubperm.perm_of_length_le
    (by simp [KeyedList.keys, hlength])
  exact hperm.mem_iff.mpr (List.mem_map.mpr ⟨_, hcon, rfl⟩)

theorem data_of_shape {cons : List (Nat × Option τ)}
    (htyped : HasType S v ty) (hshape : S.shape ty = .data cons) :
    ∃ con argv, v = .data con argv := by
  cases htyped with
  | data => exact ⟨_, _, rfl⟩
  | dataArg => exact ⟨_, _, rfl⟩
  | const hshape' => simp [hshape] at hshape'
  | exn hshape' => simp [hshape] at hshape'
  | exnArg hshape' => simp [hshape] at hshape'
  | record hshape' => simp [hshape] at hshape'
  | other hshape' => simp [hshape] at hshape'

theorem exn_of_shape (htyped : HasType S v ty)
    (hshape : S.shape ty = .exn) : ∃ tag argv, v = .exn tag argv := by
  cases htyped with
  | exn => exact ⟨_, _, rfl⟩
  | exnArg => exact ⟨_, _, rfl⟩
  | const hshape' => simp [hshape] at hshape'
  | data hshape' => simp [hshape] at hshape'
  | dataArg hshape' => simp [hshape] at hshape'
  | record hshape' => simp [hshape] at hshape'
  | other hshape' => simp [hshape] at hshape'

theorem const_of_shape {values : Const → Prop}
    (htyped : HasType S v ty) (hshape : S.shape ty = .const values) :
    ∃ k, v = .const k ∧ values k := by
  cases htyped with
  | const hshape' hvalues =>
    rw [hshape] at hshape'
    obtain rfl : values = _ := by simpa using hshape'
    exact ⟨_, rfl, hvalues⟩
  | data hshape' => simp [hshape] at hshape'
  | dataArg hshape' => simp [hshape] at hshape'
  | exn hshape' => simp [hshape] at hshape'
  | exnArg hshape' => simp [hshape] at hshape'
  | record hshape' => simp [hshape] at hshape'
  | other hshape' => simp [hshape] at hshape'

/-- The branch of a constructor, where the subtrees follow their rows. -/
theorem evalArg_follows {argTy : Option τ} {argv : Option Value}
    {rows : List (Row τ)}
    (hfollows : Follows S (argCol S argTy :: cols) (arg :: paths) rows tree)
    (hunbound : Unbound arg paths rows) (hroot : getPath tree = some arg)
    {hasArg : Bool} (hhas : hasArg = argTy.isSome)
    (hargv : argv.isSome = argTy.isSome)
    (htyped : ∀ v t, argv = some v → argTy = some t → HasType S v t)
    (hholds : List.Forall₂ (Col.Holds S) cols (valuesAt ρ paths)) :
    evalArg S ρ hasArg argv tree =
      firstRow S ρ (argv.getD (ρ arg.id) :: valuesAt ρ paths) rows := by
  subst hhas
  cases argTy with
  | none =>
    cases argv with
    | some v => simp at hargv
    | none => exact hfollows.unbound hholds
  | some t =>
    cases argv with
    | none => simp at hargv
    | some v =>
      exact hfollows.bound hunbound hroot (htyped v t rfl rfl) hholds

/-- One node of the tree follows its rows when the nodes below it do. -/
theorem Node.follows {branchEnv : List Nat} {rows : List (Row τ)}
    (hnode : Node S branchEnv (fun cols paths rows _ tree _ =>
      Follows S cols paths rows tree) cols paths rows st tree st') :
    Follows S cols paths rows tree := by
  intro ρ hholds
  cases hnode with
  | empty => rfl
  | @leaf row rows st hpats =>
    have hmatch : firstRow S ρ (valuesAt (τ := τ) ρ []) (row :: rows) =
        .leaf row.branch (row.env.values ρ) := by
      simp [firstRow, firstMatch, Row.outcome, hpats, valuesAt, matchPats,
        Outcome.ofMatch]
    rw [hmatch]
    simp [Tree.eval]
  | @univ c cols path paths rows sub st st' tree hne hreduces hsub =>
    obtain ⟨hhead, hrest⟩ := List.forall₂_cons.mp hholds
    have hstep := (hreduces _ (valuesAt ρ paths) hhead).firstRow
      (ρ := ρ) rfl
    have hchild := hsub.holds ρ hrest
    simp only [Tree.eval]
    exact hchild.trans hstep.symm
  | @eq ty values cols path paths rows defRows branches trees tree st st' st''
      hne hshape hnodup hkeys hbranch hdefault hchain hsub =>
      obtain ⟨hhead, hrest⟩ := List.forall₂_cons.mp hholds
      obtain ⟨k, hk, -⟩ := const_of_shape hhead hshape
      have hvalues : valuesAt ρ (path :: paths) =
          .const k :: valuesAt ρ paths := by
        simp [valuesAt, hk]
      have heval := evalConst_chain hchain (S := S) (ρ := ρ)
        (F := firstRow S ρ (valuesAt ρ paths))
        (fun _ _ _ _ _ hQ => hQ.holds ρ hrest) k
      rw [hvalues]
      simp only [Tree.eval, hk, heval]
      cases hfind : KeyedList.find id k branches with
      | some entry =>
        obtain ⟨hkey, hmem⟩ := KeyedList.find_key hfind
        have hstep := hbranch entry hmem (valuesAt ρ paths)
        have hkey' : entry.1 = k := hkey
        rw [hkey'] at hstep
        simpa using (hstep.firstRow hk).symm
      | none =>
        have hnot : k ∉ KeyedList.keys id branches := by
          rw [← KeyedList.find_isSome_iff, hfind]
          simp
        have hstep := hdefault k hnot (valuesAt ρ paths)
        have hchild := hsub.holds ρ hrest
        simpa using hchild.trans (hstep.firstRow hk).symm
  | @data ty cons cols path paths rows defRows branches trees tree st st' st''
      hne hshape hnodup hkeys hbranch hdefault hchain hsub =>
      obtain ⟨hhead, hrest⟩ := List.forall₂_cons.mp hholds
      obtain ⟨con, argv, hv⟩ := data_of_shape hhead hshape
      have htyped : HasType S (.data con argv) ty := hv ▸ hhead
      obtain ⟨argTy, hcon, hargv, hargTyped⟩ := htyped.data_inv hshape
      have hargTy : argTyOf cons con = argTy :=
        mem_argTyOf (S.data_nodup ty cons hshape) hcon
      have hvalues : valuesAt ρ (path :: paths) =
          .data con argv :: valuesAt ρ paths := by
        simp [valuesAt, hv]
      have heval := evalData_chain (S := S) (ρ := ρ) hchain con argv
        (F := fun _ => firstRow S ρ (.data con argv :: valuesAt ρ paths) rows)
        (by
          rintro key sub st₁ child st₂ hmem rfl ⟨arg, hunbound, hroot, hQ⟩
          have hfollows := hQ.holds
          rw [hargTy] at hfollows
          rw [evalArg_follows hfollows hunbound hroot
            ((hkeys _ hmem).2.trans (by rw [hargTy])) hargv hargTyped hrest]
          refine (Reduces.firstRow (hbranch _ hmem argv _ _ htyped ?_) hv).symm
          rintro u rfl
          rfl)
      rw [hvalues]
      simp only [Tree.eval, hv, heval]
      cases hfind : KeyedList.find DataKey.id con branches with
      | some entry => simp
      | none =>
        have hnot : con ∉ KeyedList.keys DataKey.id branches := by
          rw [← KeyedList.find_isSome_iff, hfind]
          simp
        rcases hsub with ⟨hlength, -, -⟩ | ⟨-, hsub⟩
        · exact absurd (mem_keys_of_length hnodup
            (fun entry hentry => ⟨_, (hkeys entry hentry).1⟩) hlength hcon)
            hnot
        · have hstep := hdefault con argv (valuesAt ρ paths) hnot
          have hchild := hsub.holds ρ hrest
          simpa using hchild.trans (hstep.firstRow hv).symm
  | @exn ty cols path paths rows defRows branches trees tree st st' st''
      hne hshape hnodup hkeys hbranch hdefault hchain hsub =>
      obtain ⟨hhead, hrest⟩ := List.forall₂_cons.mp hholds
      obtain ⟨tag, argv, hv⟩ := exn_of_shape hhead hshape
      have htyped : HasType S (.exn tag argv) ty := hv ▸ hhead
      obtain ⟨hargv, hargTyped⟩ := htyped.exn_inv
      have hvalues : valuesAt ρ (path :: paths) =
          .exn tag argv :: valuesAt ρ paths := by
        simp [valuesAt, hv]
      have heval := evalExn_chain (S := S) (ρ := ρ) hchain tag argv
        (F := fun _ => firstRow S ρ (.exn tag argv :: valuesAt ρ paths) rows)
        (by
          rintro key sub st₁ child st₂ hmem rfl ⟨arg, hunbound, hroot, hQ⟩
          rw [evalArg_follows hQ.holds hunbound hroot (hkeys _ hmem).2 hargv
            hargTyped hrest]
          refine (Reduces.firstRow (hbranch _ hmem argv _ _ htyped ?_) hv).symm
          rintro u rfl
          rfl)
      rw [hvalues]
      rcases heval with ⟨entry, hmem, -, heval⟩ | ⟨hnone, heval⟩
      · simp only [Tree.eval, hv, heval]
      · have hstep := hdefault tag argv (valuesAt ρ paths) hnone
        have hchild := hsub.holds ρ hrest
        simp only [Tree.eval, hv, heval]
        exact hchild.trans (hstep.firstRow hv).symm
  | @record c cols path arg paths rows sub label fieldTy fieldTys tree st st'
      hne hfields hunbound hroot hreduces hsub =>
      obtain ⟨hhead, hrest⟩ := List.forall₂_cons.mp hholds
      obtain ⟨fields, hv, hfieldsHold⟩ := hhead.record hfields
      obtain ⟨w, hlookup, hw⟩ :=
        hfieldsHold label fieldTy List.mem_cons_self
      have hvalues : valuesAt ρ (path :: paths) =
          .record fields :: valuesAt ρ paths := by
        simp [valuesAt, hv]
      have hrestValues : valuesAt ρ (restOf path fieldTys ++ paths) =
          restOf (.record fields) fieldTys ++ valuesAt ρ paths := by
        cases fieldTys with
        | nil => rfl
        | cons field others => simp [restOf, valuesAt, hv]
      have hrestHolds : List.Forall₂ (Col.Holds S)
          (restCols c fieldTys ++ cols)
          (valuesAt ρ (restOf path fieldTys ++ paths)) := by
        rw [hrestValues]
        cases fieldTys with
        | nil => exact hrest
        | cons field others =>
          refine List.Forall₂.cons ⟨fields, rfl, ?_⟩ hrest
          intro label' ty' hmem
          exact hfieldsHold label' ty' (List.mem_cons_of_mem _ hmem)
      have hunbound' : Unbound arg (restOf path fieldTys ++ paths) sub := by
        refine ⟨?_, hunbound.2⟩
        intro p hp
        apply hunbound.1
        cases fieldTys with
        | nil => exact List.mem_cons_of_mem _ hp
        | cons field others => exact hp
      have hchild := hsub.holds.bound hunbound' hroot hw hrestHolds
      have hstep := (hreduces fields w (valuesAt ρ paths) hlookup).firstRow hv
      rw [hvalues]
      simp only [Tree.eval, hv, hlookup]
      rw [hchild, hrestValues]
      exact hstep.symm

/-- The tree of a typed matrix finds the first row that matches. -/
theorem matchToTree_follows {branchEnv : List Nat} (fuel : Nat)
    (cols : List (Col τ)) (paths : List (VarInfo τ)) (rows : List (Row τ))
    (st : Build) (hmatrix : Matrix S branchEnv cols paths rows st)
    (hfuel : 2 * rowsWeight rows + cols.length < fuel) :
    ∃ tree st', matchToTree S.toTypes branchEnv fuel paths rows st =
        .ok (tree, st') ∧ Follows S cols paths rows tree := by
  obtain ⟨tree, st', hok, hsub⟩ := matchToTree_induct
    (P := fun cols paths rows _ tree _ => Follows S cols paths rows tree)
    (fun _ _ _ _ _ _ _ hnode => hnode.follows) fuel cols paths rows st hmatrix
    hfuel
  exact ⟨tree, st', hok, hsub.holds⟩

end MatchCompiler

end SmlSharp
