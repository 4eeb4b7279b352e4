/-
The leaves of a tree are the rows that some values reach first: what building a
tree records about used branches and missing cases is exact.
-/
import SmlSharp.MatchCompiler.FirstMatch
import Mathlib.Data.Set.Insert

namespace SmlSharp

namespace MatchCompiler

variable {τ : Type} {S : Semantics τ}

/-! ### Types with values -/

/-- The types that occur in the values of a type. -/
inductive Component (S : Semantics τ) : τ → τ → Prop where
  | refl (ty : τ) : Component S ty ty
  | data {ty argTy part : τ} {cons : List (Nat × Option τ)} {con : Nat} :
      S.shape ty = .data cons → (con, some argTy) ∈ cons →
      Component S argTy part → Component S ty part
  | exn {ty argTy part : τ} {key : ExnKey} : S.shape ty = .exn →
      S.exnCons key → S.exnArg (S.exnTag key) = some argTy →
      Component S argTy part → Component S ty part
  | record {ty fieldTy part : τ} {fields : List (String × τ)}
      {label : String} : S.shape ty = .record fields →
      (label, fieldTy) ∈ fields → Component S fieldTy part →
      Component S ty part

/-- Every type that occurs in the values of a type has values itself, no list of
constants has all of its constants, and no list of tags all exceptions. -/
structure Populated (S : Semantics τ) (ty : τ) : Prop where
  inhabited : ∀ part, Component S ty part → ∃ v, HasType S v part
  infinite : ∀ part values, Component S ty part →
    S.shape part = .const values → ∀ known : List Const,
      ∃ c, c ∉ known ∧ values c
  openExn : ∀ part, Component S ty part → S.shape part = .exn →
    ∀ known : List Nat, ∃ tag argv, tag ∉ known ∧
      HasType S (.exn tag argv) part

variable {ty : τ} {c : Col τ} {cols : List (Col τ)} {st st' : Build}
  {fieldTys : List (String × τ)} {vs : List (String × Value)} {argTy : Option τ}
  {cons : List (Nat × Option τ)}

theorem Populated.sub {part : τ} (hpopulated : Populated S ty)
    (hstep : ∀ other, Component S part other → Component S ty other) :
    Populated S part where
  inhabited other hother := hpopulated.inhabited other (hstep other hother)
  infinite other values hother :=
    hpopulated.infinite other values (hstep other hother)
  openExn other hother := hpopulated.openExn other (hstep other hother)

/-- The columns whose types have values. -/
def Col.Populated (S : Semantics τ) : Col τ → Prop
  | .whole ty => MatchCompiler.Populated S ty
  | .part _ fields => (fields.map Prod.fst).Nodup ∧
      ∀ label ty, (label, ty) ∈ fields → MatchCompiler.Populated S ty
  | .unused _ => True

theorem Col.Populated.fields {fields : List (String × τ)}
    (hpopulated : c.Populated S) (hfields : c.HasFields S fields) :
    (fields.map Prod.fst).Nodup ∧
      ∀ label ty, (label, ty) ∈ fields → MatchCompiler.Populated S ty := by
  cases c with
  | whole ty =>
    have hshape : S.shape ty = .record fields := hfields
    refine ⟨S.record_nodup ty fields hshape, fun label fieldTy hmem => ?_⟩
    exact MatchCompiler.Populated.sub hpopulated fun other hother =>
      .record hshape hmem hother
  | part ty rest =>
    obtain rfl : rest = fields := hfields
    exact hpopulated
  | unused ty => exact hfields.elim

/-- A record with values of some fields. -/
theorem exists_fields {fields : List (String × τ)}
    (hnodup : (fields.map Prod.fst).Nodup)
    (hvalue : ∀ label ty, (label, ty) ∈ fields → ∃ v, HasType S v ty) :
    ∃ vs, FieldsHold S vs fields := by
  induction fields with
  | nil => exact ⟨[], by simp [FieldsHold]⟩
  | cons field rest ih =>
    obtain ⟨label, ty⟩ := field
    obtain ⟨hfresh, hrest⟩ := List.nodup_cons.mp hnodup
    obtain ⟨v, hv⟩ := hvalue label ty List.mem_cons_self
    obtain ⟨vs, hvs⟩ := ih hrest fun label' ty' hmem =>
      hvalue label' ty' (List.mem_cons_of_mem _ hmem)
    refine ⟨(label, v) :: vs, ?_⟩
    intro label' ty' hmem
    rcases List.mem_cons.mp hmem with heq | hlater
    · obtain ⟨rfl, rfl⟩ : label' = label ∧ ty' = ty := by simpa using heq
      exact ⟨v, by simp, hv⟩
    · have hne : label' ≠ label := by
        rintro rfl
        exact hfresh (List.mem_map.mpr ⟨(label', ty'), hlater, rfl⟩)
      have hbeq : (label' == label) = false := by simpa using hne
      obtain ⟨w, hw, htyped⟩ := hvs label' ty' hlater
      exact ⟨w, by simpa [List.lookup_cons, hbeq] using hw, htyped⟩

theorem Col.Populated.exists_value (hpopulated : c.Populated S) :
    ∃ v, c.Holds S v := by
  cases c with
  | whole ty =>
    exact MatchCompiler.Populated.inhabited hpopulated ty (.refl ty)
  | part ty fields =>
    obtain ⟨hnodup, hall⟩ := hpopulated
    obtain ⟨vs, hvs⟩ := exists_fields hnodup fun label fieldTy hmem =>
      (hall label fieldTy hmem).inhabited fieldTy (.refl fieldTy)
    exact ⟨.record vs, vs, rfl, hvs⟩
  | unused ty => exact ⟨.other 0, trivial⟩

theorem exists_values (hpopulated : ∀ c ∈ cols, c.Populated S) :
    ∃ vs, List.Forall₂ (Col.Holds S) cols vs := by
  induction cols with
  | nil => exact ⟨[], .nil⟩
  | cons c cols ih =>
    obtain ⟨v, hv⟩ := (hpopulated c List.mem_cons_self).exists_value
    obtain ⟨vs, hvs⟩ := ih fun other hother =>
      hpopulated other (List.mem_cons_of_mem _ hother)
    exact ⟨v :: vs, .cons hv hvs⟩

/-! ### The branches that values reach -/

/-- The branch of the first row that matches. -/
def firstBranch (S : Semantics τ) (vs : List Value) (rows : List (Row τ)) :
    Option Nat :=
  (firstMatch S (fun _ _ _ => ()) (fun _ => ()) vs rows).map Prod.fst

theorem Reduces.firstBranch {path : VarInfo τ} {rows rows' : List (Row τ)}
    {v : Value} {vs vs' : List Value}
    (hreduces : Reduces S path rows v vs vs' rows') :
    firstBranch S (v :: vs) rows = firstBranch S vs' rows' :=
  congrArg (Option.map Prod.fst) (hreduces _ _ _ fun _ _ => rfl)

/-- The branches that the values of some columns reach first, and `none` where
some values reach no row. -/
def outcomes (S : Semantics τ) (cols : List (Col τ)) (rows : List (Row τ)) :
    Set (Option Nat) :=
  fun o => ∃ vs, List.Forall₂ (Col.Holds S) cols vs ∧
    firstBranch S vs rows = o

/-- Building a tree adds the branches that are reached to those in use, and sets
the flag where values reach no row. -/
structure Adds (D : Set (Option Nat)) (st st' : Build) : Prop where
  used : ∀ b, b ∈ st'.used ↔ b ∈ st.used ∨ some b ∈ D
  notExhaustive : st'.notExhaustive = true ↔
    st.notExhaustive = true ∨ none ∈ D

theorem Adds.none (st : Build) : Adds ∅ st st where
  used b := by simp
  notExhaustive := by simp

theorem Adds.union {D E : Set (Option Nat)} {st'' : Build}
    (hfirst : Adds D st st') (hsecond : Adds E st' st'') :
    Adds (D ∪ E) st st'' where
  used b := by
    rw [hsecond.used b, hfirst.used b, Set.mem_union, or_assoc]
  notExhaustive := by
    rw [hsecond.notExhaustive, hfirst.notExhaustive, Set.mem_union, or_assoc]

/-- The outcomes of the branches of a node. -/
theorem adds_chain {K : Type}
    {Q : K → List (Row τ) → Build → Tree τ → Build → Prop}
    {branches : List (K × List (Row τ))} {trees : List (K × Tree τ)}
    (hchain : Chain Q branches st trees st')
    {D : K → List (Row τ) → Set (Option Nat)}
    (hQ : ∀ key rows st tree st', (key, rows) ∈ branches →
      Q key rows st tree st' → Adds (D key rows) st st') :
    Adds {o | ∃ entry ∈ branches, o ∈ D entry.1 entry.2} st st' := by
  induction hchain with
  | nil => simpa using Adds.none _
  | @cons key rows rest tree trees st st' st'' hhead _ ih =>
    have hfirst := hQ key rows _ _ _ List.mem_cons_self hhead
    have hrest := ih fun key' rows' st tree st' hmem =>
      hQ key' rows' st tree st' (List.mem_cons_of_mem _ hmem)
    have hboth := hfirst.union hrest
    have hsets : D key rows ∪ {o | ∃ entry ∈ rest, o ∈ D entry.1 entry.2} =
        {o | ∃ entry ∈ (key, rows) :: rest, o ∈ D entry.1 entry.2} := by
      ext o
      simp
    rwa [hsets] at hboth

/-- The first column splits the values into cases, each with the values of the
other columns. -/
theorem outcomes_cons {rows : List (Row τ)} {o : Option Nat} :
    o ∈ outcomes S (c :: cols) rows ↔ ∃ v vs, c.Holds S v ∧
      List.Forall₂ (Col.Holds S) cols vs ∧ firstBranch S (v :: vs) rows = o := by
  constructor
  · rintro ⟨vs, hvs, ho⟩
    cases hvs with
    | @cons _ v _ vs hv hvs => exact ⟨v, vs, hv, hvs, ho⟩
  · rintro ⟨v, vs, hv, hvs, ho⟩
    exact ⟨v :: vs, .cons hv hvs, ho⟩

/-! ### Fields that no row looks at -/

theorem matchFields_congr {fields : List (String × Pat τ)} (htyped : fieldsTyped S fields fieldTys)
    {vs' : List (String × Value)} (hsame : ∀ label ty, (label, ty) ∈ fieldTys →
      vs.lookup label = vs'.lookup label) {B : Type}
    {bind : B → VarInfo τ → Value → B} (b : B) :
    matchFields S bind fields vs b = matchFields S bind fields vs' b := by
  induction fields generalizing fieldTys b with
  | nil => rfl
  | cons field rest ih =>
    obtain ⟨label, pat⟩ := field
    simp only [fieldsTyped] at htyped
    obtain ⟨fieldTy, restTys, rfl, -, hrest⟩ := htyped
    have hhead := hsame label fieldTy List.mem_cons_self
    have htail : ∀ b, matchFields S bind rest vs b =
        matchFields S bind rest vs' b := fun b =>
      ih hrest (fun label' ty hmem =>
        hsame label' ty (List.mem_cons_of_mem _ hmem)) b
    simp only [matchFields, hhead, funext htail]

/-- The rows of a column of records look at the fields of the column only. -/
theorem firstBranch_congr {fields : List (String × τ)} {rows : List (Row τ)}
    (hfits : ∀ row ∈ rows,
      List.Forall₂ (Col.Fits S) (c :: .part ty fields :: cols) row.pats)
    {w : Value} {vs' : List (String × Value)} (rest : List Value)
    (hsame : ∀ label ty, (label, ty) ∈ fields →
      vs.lookup label = vs'.lookup label) :
    firstBranch S (w :: .record vs :: rest) rows =
      firstBranch S (w :: .record vs' :: rest) rows := by
  have hrow : ∀ row ∈ rows,
      row.outcome S (fun _ _ _ => ()) (fun _ => ())
        (w :: .record vs :: rest) =
      row.outcome S (fun _ _ _ => ()) (fun _ => ())
        (w :: .record vs' :: rest) := by
    intro row hmem
    obtain ⟨pats, branch, env⟩ := row
    have hpats := hfits _ hmem
    match pats, hpats with
    | first :: second :: others, .cons _ (.cons hsecond _) =>
      rcases hsecond with rfl | ⟨fieldPats, rfl, htyped⟩
      · simp [Row.outcome, matchPats, matchPat]
      · simp only [Row.outcome, matchPats, matchPat,
          matchFields_congr htyped hsame]
  unfold firstBranch firstMatch
  congr 1
  clear hfits
  induction rows with
  | nil => rfl
  | cons row rows ih =>
    rw [List.findSome?_cons, List.findSome?_cons, hrow row List.mem_cons_self,
      ih fun other hother => hrow other (List.mem_cons_of_mem _ hother)]

/-! ### Outcomes, node by node -/

section Nodes

variable {c : Col τ} {cols : List (Col τ)} {path : VarInfo τ}
  {rows defRows sub : List (Row τ)}

theorem outcomes_univ (hpopulated : c.Populated S)
    (hreduces : ∀ v vs, c.Holds S v → Reduces S path rows v vs vs sub) :
    outcomes S (c :: cols) rows = outcomes S cols sub := by
  ext o
  rw [outcomes_cons]
  constructor
  · rintro ⟨v, vs, hv, hvs, rfl⟩
    exact ⟨vs, hvs, (hreduces v vs hv).firstBranch.symm⟩
  · rintro ⟨vs, hvs, rfl⟩
    obtain ⟨v, hv⟩ := hpopulated.exists_value
    exact ⟨v, vs, hv, hvs, (hreduces v vs hv).firstBranch⟩

theorem outcomes_eq {values : Const → Prop}
    {branches : List (Const × List (Row τ))}
    (hpopulated : MatchCompiler.Populated S ty)
    (hshape : S.shape ty = .const values)
    (hvalues : ∀ entry ∈ branches, values entry.1)
    (hbranch : ∀ entry ∈ branches, ∀ vs,
      Reduces S path rows (.const entry.1) vs vs entry.2)
    (hdefault : ∀ k, k ∉ KeyedList.keys id branches → ∀ vs,
      Reduces S path rows (.const k) vs vs defRows) :
    outcomes S (.whole ty :: cols) rows =
      {o | ∃ entry ∈ branches, o ∈ outcomes S cols entry.2} ∪
        outcomes S cols defRows := by
  ext o
  rw [outcomes_cons]
  constructor
  · rintro ⟨v, vs, hv, hvs, rfl⟩
    obtain ⟨k, rfl, -⟩ := const_of_shape hv hshape
    by_cases hk : k ∈ KeyedList.keys id branches
    · left
      obtain ⟨entry, hentry, rfl⟩ := List.mem_map.mp hk
      exact ⟨entry, hentry, vs, hvs, (hbranch entry hentry vs).firstBranch.symm⟩
    · exact Or.inr ⟨vs, hvs, (hdefault k hk vs).firstBranch.symm⟩
  · rintro (⟨entry, hentry, vs, hvs, rfl⟩ | ⟨vs, hvs, rfl⟩)
    · exact ⟨.const entry.1, vs, .const hshape (hvalues entry hentry), hvs,
        (hbranch entry hentry vs).firstBranch⟩
    · obtain ⟨k, hk, hvalue⟩ := hpopulated.infinite ty values (.refl ty) hshape
        (KeyedList.keys id branches)
      exact ⟨.const k, vs, .const hshape hvalue, hvs,
        (hdefault k hk vs).firstBranch⟩

/-- The values of a constructor are those of its argument. -/
theorem outcomes_arg {mkValue : Option Value → Value}
    (hvalue : ∀ argv, argv.isSome = argTy.isSome →
      (∀ v t, argv = some v → argTy = some t → HasType S v t) →
      HasType S (mkValue argv) ty)
    (hreduces : ∀ argv w vs, HasType S (mkValue argv) ty →
      (∀ u, argv = some u → w = u) →
      Reduces S path rows (mkValue argv) vs (w :: vs) sub) {o : Option Nat} :
    o ∈ outcomes S (argCol S argTy :: cols) sub ↔ ∃ argv vs,
      argv.isSome = argTy.isSome ∧
      (∀ v t, argv = some v → argTy = some t → HasType S v t) ∧
      List.Forall₂ (Col.Holds S) cols vs ∧
      firstBranch S (mkValue argv :: vs) rows = o := by
  rw [outcomes_cons]
  cases argTy with
  | none =>
    constructor
    · rintro ⟨w, vs, -, hvs, rfl⟩
      have hnone := hvalue none rfl (by simp)
      exact ⟨none, vs, rfl, by simp, hvs,
        (hreduces none w vs hnone (by simp)).firstBranch⟩
    · rintro ⟨argv, vs, hargv, -, hvs, rfl⟩
      obtain rfl : argv = none := by simpa using hargv
      have hnone := hvalue none rfl (by simp)
      exact ⟨.other 0, vs, trivial, hvs,
        (hreduces none (.other 0) vs hnone (by simp)).firstBranch.symm⟩
  | some t =>
    have harg : ∀ w, HasType S w t →
        ∀ v t', some w = some v → some t = some t' → HasType S v t' := by
      rintro w hw v t' ⟨⟩ ⟨⟩
      exact hw
    constructor
    · rintro ⟨w, vs, hw, hvs, rfl⟩
      have hw' : HasType S w t := hw
      have htyped := hvalue (some w) rfl (harg w hw')
      exact ⟨some w, vs, rfl, harg w hw', hvs,
        (hreduces (some w) w vs htyped (by simp)).firstBranch⟩
    · rintro ⟨argv, vs, hargv, hall, hvs, rfl⟩
      obtain ⟨w, rfl⟩ := Option.isSome_iff_exists.mp hargv
      have hw := hall w t rfl rfl
      have htyped := hvalue (some w) rfl hall
      exact ⟨w, vs, hw, hvs,
        (hreduces (some w) w vs htyped (by simp)).firstBranch.symm⟩

theorem hasType_data {con : Nat} (hshape : S.shape ty = .data cons)
    (hcon : (con, argTy) ∈ cons) {argv : Option Value}
    (hargv : argv.isSome = argTy.isSome)
    (htyped : ∀ v t, argv = some v → argTy = some t → HasType S v t) :
    HasType S (.data con argv) ty := by
  cases argTy with
  | none =>
    obtain rfl : argv = none := by simpa using hargv
    exact .data hshape hcon
  | some t =>
    obtain ⟨w, rfl⟩ := Option.isSome_iff_exists.mp hargv
    exact .dataArg hshape hcon (htyped w t rfl rfl)

theorem hasType_exn {tag : Nat} (hshape : S.shape ty = .exn)
    {argv : Option Value} (hargv : argv.isSome = (S.exnArg tag).isSome)
    (htyped : ∀ v t, argv = some v → S.exnArg tag = some t → HasType S v t) :
    HasType S (.exn tag argv) ty := by
  cases harg : S.exnArg tag with
  | none =>
    obtain rfl : argv = none := by simpa [harg] using hargv
    exact .exn hshape harg
  | some t =>
    rw [harg] at hargv
    obtain ⟨w, rfl⟩ := Option.isSome_iff_exists.mp hargv
    exact .exnArg hshape harg (htyped w t rfl harg)

theorem exists_other_con {K V : Type} {key : K → Nat} {branches : List (K × V)}
    (hnodup : (KeyedList.keys key branches).Nodup)
    (hcons : (cons.map Prod.fst).Nodup)
    (hkeys : ∀ entry ∈ branches, ∃ argTy, (key entry.1, argTy) ∈ cons)
    (hlength : branches.length ≠ cons.length) :
    ∃ con argTy, (con, argTy) ∈ cons ∧ con ∉ KeyedList.keys key branches := by
  by_contra hall
  push Not at hall
  have hsub : cons.map Prod.fst ⊆ KeyedList.keys key branches := by
    intro con hcon
    obtain ⟨⟨con', argTy⟩, hmem, rfl⟩ := List.mem_map.mp hcon
    exact hall con' argTy hmem
  have hsub' : KeyedList.keys key branches ⊆ cons.map Prod.fst := by
    intro k hk
    obtain ⟨entry, hentry, rfl⟩ := List.mem_map.mp hk
    obtain ⟨argTy, hmem⟩ := hkeys entry hentry
    exact List.mem_map.mpr ⟨_, hmem, rfl⟩
  have hle := (hcons.subperm hsub).length_le
  have hge := (hnodup.subperm hsub').length_le
  simp only [KeyedList.keys, List.length_map] at hle hge
  omega

theorem outcomes_data {branches : List (DataKey τ × List (Row τ))}
    (hpopulated : MatchCompiler.Populated S ty)
    (hshape : S.shape ty = .data cons)
    (hnodup : (KeyedList.keys DataKey.id branches).Nodup)
    (hkeys : ∀ entry ∈ branches, (entry.1.id, argTyOf cons entry.1.id) ∈ cons)
    (hbranch : ∀ entry ∈ branches, ∀ argv w vs,
      HasType S (.data entry.1.id argv) ty → (∀ u, argv = some u → w = u) →
      Reduces S path rows (.data entry.1.id argv) vs (w :: vs) entry.2)
    (hdefault : ∀ id argv vs, id ∉ KeyedList.keys DataKey.id branches →
      Reduces S path rows (.data id argv) vs vs defRows) :
    outcomes S (.whole ty :: cols) rows =
      {o | ∃ entry ∈ branches, o ∈ outcomes S
        (argCol S (argTyOf cons entry.1.id) :: cols) entry.2} ∪
        {o | branches.length ≠ cons.length ∧ o ∈ outcomes S cols defRows} := by
  have harg : ∀ entry ∈ branches, ∀ o, o ∈ outcomes S
      (argCol S (argTyOf cons entry.1.id) :: cols) entry.2 ↔ _ :=
    fun entry hentry o => outcomes_arg
      (fun argv hargv htyped => hasType_data hshape (hkeys entry hentry) hargv
        htyped) (hbranch entry hentry)
  ext o
  rw [outcomes_cons]
  constructor
  · rintro ⟨v, vs, hv, hvs, rfl⟩
    obtain ⟨con, argv, rfl⟩ := data_of_shape hv hshape
    obtain ⟨argTy, hcon, hargv, htyped⟩ := hv.data_inv hshape
    by_cases hk : con ∈ KeyedList.keys DataKey.id branches
    · left
      obtain ⟨entry, hentry, rfl⟩ := List.mem_map.mp hk
      obtain rfl := eq_of_mem_nodup (S.data_nodup ty cons hshape) hcon
        (hkeys entry hentry)
      exact ⟨entry, hentry, (harg entry hentry _).mpr
        ⟨argv, vs, hargv, htyped, hvs, rfl⟩⟩
    · refine Or.inr ⟨?_, vs, hvs, (hdefault con argv vs hk).firstBranch.symm⟩
      intro hlength
      exact hk (mem_keys_of_length hnodup
        (fun entry hentry => ⟨_, hkeys entry hentry⟩) hlength hcon)
  · rintro (⟨entry, hentry, ho⟩ | ⟨hlength, vs, hvs, rfl⟩)
    · obtain ⟨argv, vs, hargv, htyped, hvs, rfl⟩ := (harg entry hentry o).mp ho
      exact ⟨.data entry.1.id argv, vs,
        hasType_data hshape (hkeys entry hentry) hargv htyped, hvs, rfl⟩
    · obtain ⟨con, argTy, hcon, hk⟩ := exists_other_con hnodup
        (S.data_nodup ty cons hshape)
        (fun entry hentry => ⟨_, hkeys entry hentry⟩) hlength
      cases argTy with
      | none =>
        exact ⟨.data con none, vs, .data hshape hcon, hvs,
          (hdefault con none vs hk).firstBranch⟩
      | some t =>
        obtain ⟨w, hw⟩ := hpopulated.inhabited t
          (.data hshape hcon (.refl t))
        exact ⟨.data con (some w), vs, .dataArg hshape hcon hw, hvs,
          (hdefault con (some w) vs hk).firstBranch⟩

theorem outcomes_exn {branches : List (ExnConKey τ × List (Row τ))}
    (hpopulated : MatchCompiler.Populated S ty) (hshape : S.shape ty = .exn)
    (hbranch : ∀ entry ∈ branches, ∀ argv w vs,
      HasType S (.exn (S.exnTag entry.1.key) argv) ty →
      (∀ u, argv = some u → w = u) →
      Reduces S path rows (.exn (S.exnTag entry.1.key) argv) vs (w :: vs)
        entry.2) (hdefault : ∀ tag argv vs,
      (∀ entry ∈ branches, S.exnTag entry.1.key ≠ tag) →
      Reduces S path rows (.exn tag argv) vs vs defRows) :
    outcomes S (.whole ty :: cols) rows =
      {o | ∃ entry ∈ branches, o ∈ outcomes S
        (argCol S (S.exnArg (S.exnTag entry.1.key)) :: cols) entry.2} ∪
        outcomes S cols defRows := by
  have harg : ∀ entry ∈ branches, ∀ o, o ∈ outcomes S
      (argCol S (S.exnArg (S.exnTag entry.1.key)) :: cols) entry.2 ↔ _ :=
    fun entry hentry o => outcomes_arg
      (fun argv hargv htyped => hasType_exn hshape hargv htyped)
      (hbranch entry hentry)
  ext o
  rw [outcomes_cons]
  constructor
  · rintro ⟨v, vs, hv, hvs, rfl⟩
    obtain ⟨tag, argv, rfl⟩ := exn_of_shape hv hshape
    obtain ⟨hargv, htyped⟩ := hv.exn_inv
    by_cases hk : ∃ entry ∈ branches, S.exnTag entry.1.key = tag
    · left
      obtain ⟨entry, hentry, rfl⟩ := hk
      exact ⟨entry, hentry, (harg entry hentry _).mpr
        ⟨argv, vs, hargv, htyped, hvs, rfl⟩⟩
    · push Not at hk
      exact Or.inr ⟨vs, hvs, (hdefault tag argv vs hk).firstBranch.symm⟩
  · rintro (⟨entry, hentry, ho⟩ | ⟨vs, hvs, rfl⟩)
    · obtain ⟨argv, vs, hargv, htyped, hvs, rfl⟩ := (harg entry hentry o).mp ho
      exact ⟨.exn (S.exnTag entry.1.key) argv, vs,
        hasType_exn hshape hargv htyped, hvs, rfl⟩
    · obtain ⟨tag, argv, hfresh, hv⟩ := hpopulated.openExn ty (.refl ty) hshape
        (branches.map fun entry => S.exnTag entry.1.key)
      refine ⟨.exn tag argv, vs, hv, hvs,
        (hdefault tag argv vs ?_).firstBranch⟩
      intro entry hentry htag
      exact hfresh (List.mem_map.mpr ⟨entry, hentry, htag⟩)

theorem Col.HasFields.holds {fields : List (String × τ)}
    (hfields : c.HasFields S fields)
    (hvs : FieldsHold S vs fields) : c.Holds S (.record vs) := by
  cases c with
  | whole ty =>
    have hshape : S.shape ty = .record fields := hfields
    let value label := (vs.lookup label).getD (.other 0)
    have hlookup : ∀ label fieldTy, (label, fieldTy) ∈ fields →
        vs.lookup label = some (value label) := by
      intro label fieldTy hmem
      obtain ⟨v, hv, -⟩ := hvs label fieldTy hmem
      simp [value, hv]
    refine HasType.record hshape hlookup ?_
    intro label fieldTy hmem
    obtain ⟨v, hv, htyped⟩ := hvs label fieldTy hmem
    simpa [value, hv] using htyped
  | part ty rest =>
    obtain rfl : rest = fields := hfields
    exact ⟨vs, rfl, hvs⟩
  | unused ty => exact hfields.elim

/-- A record with one more field. -/
theorem FieldsHold.insert {label : String} {fieldTy : τ} {w : Value}
    (hw : HasType S w fieldTy)
    (hvs : ∀ label' ty, (label', ty) ∈ fieldTys → label' ≠ label ∧
      ∃ v, vs.lookup label' = some v ∧ HasType S v ty) :
    FieldsHold S ((label, w) :: vs) ((label, fieldTy) :: fieldTys) := by
  intro label' ty hmem
  rcases List.mem_cons.mp hmem with heq | hlater
  · obtain ⟨rfl, rfl⟩ : label' = label ∧ ty = fieldTy := by simpa using heq
    exact ⟨w, by simp, hw⟩
  · obtain ⟨hne, v, hv, htyped⟩ := hvs label' ty hlater
    have hbeq : (label' == label) = false := by simpa using hne
    exact ⟨v, by simpa [List.lookup_cons, hbeq] using hv, htyped⟩

theorem outcomes_record {label : String} {fieldTy : τ} (hpopulated : c.Populated S)
    (hfields : c.HasFields S ((label, fieldTy) :: fieldTys))
    (hfits : ∀ row ∈ sub, List.Forall₂ (Col.Fits S)
      (.whole fieldTy :: (restCols c fieldTys ++ cols)) row.pats)
    (hreduces : ∀ fields w vs, fields.lookup label = some w →
      Reduces S path rows (.record fields) vs
        (w :: (restOf (.record fields) fieldTys ++ vs)) sub) :
    outcomes S (c :: cols) rows =
      outcomes S (.whole fieldTy :: (restCols c fieldTys ++ cols)) sub := by
  obtain ⟨hnodup, -⟩ := hpopulated.fields hfields
  obtain ⟨hfresh, -⟩ := List.nodup_cons.mp hnodup
  have hne : ∀ label' ty, (label', ty) ∈ fieldTys → label' ≠ label := by
    rintro label' ty hmem rfl
    exact hfresh (List.mem_map.mpr ⟨(label', ty), hmem, rfl⟩)
  ext o
  rw [outcomes_cons, outcomes_cons]
  constructor
  · rintro ⟨v, vs, hv, hvs, rfl⟩
    obtain ⟨fields, rfl, hhold⟩ := hv.record hfields
    obtain ⟨w, hlookup, hw⟩ := hhold label fieldTy List.mem_cons_self
    refine ⟨w, restOf (.record fields) fieldTys ++ vs, hw, ?_,
      (hreduces fields w vs hlookup).firstBranch.symm⟩
    cases fieldTys with
    | nil => exact hvs
    | cons field others =>
      refine List.Forall₂.cons ⟨fields, rfl, ?_⟩ hvs
      exact fun label' ty hmem => hhold label' ty (List.mem_cons_of_mem _ hmem)
  · rintro ⟨w, rest, hw, hrest, rfl⟩
    cases fieldTys with
    | nil =>
      have hhold : FieldsHold S [(label, w)] [(label, fieldTy)] :=
        FieldsHold.insert hw (by simp)
      exact ⟨.record [(label, w)], rest, hfields.holds hhold, hrest,
        (hreduces _ w rest (by simp)).firstBranch⟩
    | cons field others =>
      cases hrest with
      | @cons _ u _ vs hu hvs =>
        obtain ⟨fields, rfl, hhold⟩ := hu
        have hmore : FieldsHold S ((label, w) :: fields)
            ((label, fieldTy) :: field :: others) :=
          FieldsHold.insert hw fun label' ty hmem =>
            ⟨hne label' ty hmem, hhold label' ty hmem⟩
        refine ⟨.record ((label, w) :: fields), vs, hfields.holds hmore,
          hvs, ?_⟩
        rw [(hreduces _ w vs (by simp)).firstBranch]
        apply firstBranch_congr hfits vs
        intro label' ty hmem
        have hbeq : (label' == label) = false := by
          simpa using hne label' ty hmem
        simp [List.lookup_cons, hbeq]

/-! ### The whole tree -/

/-- What building a tree over columns whose types have values records. -/
def Records (S : Semantics τ) (cols : List (Col τ)) (_paths : List (VarInfo τ))
    (rows : List (Row τ)) (st : Build) (_tree : Tree τ) (st' : Build) : Prop :=
  (∀ c ∈ cols, c.Populated S) → Adds (outcomes S cols rows) st st'

theorem Adds.bump {D : Set (Option Nat)} {n : Nat}
    (hadds : Adds D { st with nextId := n } st') : Adds D st st' :=
  ⟨hadds.used, hadds.notExhaustive⟩

theorem argCol_populated (hpopulated : MatchCompiler.Populated S ty)
    (hcomponent : ∀ t, argTy = some t →
      ∀ part, Component S t part → Component S ty part) :
    (argCol S argTy).Populated S := by
  cases argTy with
  | none => trivial
  | some t => exact MatchCompiler.Populated.sub hpopulated (hcomponent t rfl)

/-- One node records the outcomes of its rows when the nodes below it do. -/
theorem Node.adds {branchEnv : List Nat} {paths : List (VarInfo τ)} {tree : Tree τ}
    (hnode : Node S branchEnv (Records S) cols paths rows st tree st')
    (hpopulated : ∀ c ∈ cols, c.Populated S) :
    Adds (outcomes S cols rows) st st' := by
  cases hnode with
  | empty =>
    obtain ⟨vs, hvs⟩ := exists_values hpopulated
    have hset : outcomes S cols [] = {none} := by
      ext o
      constructor
      · rintro ⟨ws, -, rfl⟩
        rfl
      · rintro rfl
        exact ⟨vs, hvs, rfl⟩
    rw [hset]
    exact ⟨by simp, by simp⟩
  | @leaf row rows st hpats =>
    have hset : outcomes S [] (row :: rows) = {some row.branch} := by
      ext o
      have hfirst : firstBranch S [] (row :: rows) = some row.branch := by
        simp [firstBranch, firstMatch, Row.outcome, hpats, matchPats]
      constructor
      · rintro ⟨vs, hvs, rfl⟩
        obtain rfl : vs = [] := List.forall₂_nil_left_iff.mp hvs
        exact hfirst
      · rintro rfl
        exact ⟨[], .nil, hfirst⟩
    rw [hset]
    refine ⟨fun b => ?_, by simp⟩
    simp [or_comm]
  | @univ c cols path paths rows sub st st' tree hne hreduces hsub =>
    obtain ⟨hc, hcols⟩ := List.forall_mem_cons.mp hpopulated
    rw [outcomes_univ hc hreduces]
    exact hsub.holds hcols
  | @eq ty values cols path paths rows defRows branches trees tree st st' st''
      hne hshape hnodup hkeys hbranch hdefault hchain hsub =>
      obtain ⟨hc, hcols⟩ := List.forall_mem_cons.mp hpopulated
      rw [outcomes_eq hc hshape hkeys hbranch hdefault]
      apply Adds.union _ (hsub.holds hcols)
      exact adds_chain hchain (D := fun _ rows => outcomes S cols rows)
        fun key rows st tree st' _ hQ => hQ.holds hcols
  | @data ty cons cols path paths rows defRows branches trees tree st st' st''
      hne hshape hnodup hkeys hbranch hdefault hchain hsub =>
      obtain ⟨hc, hcols⟩ := List.forall_mem_cons.mp hpopulated
      rw [outcomes_data hc hshape hnodup (fun entry hentry =>
        (hkeys entry hentry).1) hbranch hdefault]
      have hbranches : Adds {o | ∃ entry ∈ branches, o ∈ outcomes S
          (argCol S (argTyOf cons entry.1.id) :: cols) entry.2} st st' := by
        refine adds_chain hchain (D := fun key rows => outcomes S
          (argCol S (argTyOf cons key.id) :: cols) rows) ?_
        rintro key sub st tree st' hmem ⟨arg, -, -, hQ⟩
        apply (hQ.holds (List.forall_mem_cons.mpr ⟨?_, hcols⟩)).bump
        apply argCol_populated hc
        intro t ht part hpart
        exact .data hshape (ht ▸ (hkeys _ hmem).1) hpart
      apply hbranches.union
      rcases hsub with ⟨hlength, -, rfl⟩ | ⟨hlength, hsub⟩
      · simpa [hlength] using Adds.none st'
      · simpa [hlength] using hsub.holds hcols
  | @exn ty cols path paths rows defRows branches trees tree st st' st''
      hne hshape hnodup hkeys hbranch hdefault hchain hsub =>
      obtain ⟨hc, hcols⟩ := List.forall_mem_cons.mp hpopulated
      rw [outcomes_exn hc hshape hbranch hdefault]
      apply Adds.union _ (hsub.holds hcols)
      refine adds_chain hchain (D := fun key rows => outcomes S
        (argCol S (S.exnArg (S.exnTag key.key)) :: cols) rows) ?_
      rintro key sub st tree st' hmem ⟨arg, -, -, hQ⟩
      apply (hQ.holds (List.forall_mem_cons.mpr ⟨?_, hcols⟩)).bump
      apply argCol_populated hc
      intro t ht part hpart
      exact .exn hshape (hkeys _ hmem).1 ht hpart
  | @record c cols path arg paths rows sub label fieldTy fieldTys tree st st'
      hne hfields hunbound hroot hreduces hsub =>
      obtain ⟨hc, hcols⟩ := List.forall_mem_cons.mp hpopulated
      obtain ⟨hnodup, hall⟩ := hc.fields hfields
      rw [outcomes_record hc hfields hsub.matrix.fits hreduces]
      apply (hsub.holds (List.forall_mem_cons.mpr ⟨?_, ?_⟩)).bump
      · exact hall label fieldTy List.mem_cons_self
      · intro other hother
        rcases List.mem_append.mp hother with hrest | hother
        · cases fieldTys with
          | nil => simp [restCols] at hrest
          | cons field others =>
            obtain rfl : other = .part c.ty (field :: others) := by
              simpa [restCols] using hrest
            exact ⟨(List.nodup_cons.mp hnodup).2, fun label' ty hmem =>
              hall label' ty (List.mem_cons_of_mem _ hmem)⟩
        · exact hcols other hother

end Nodes

/-- Building the tree of a typed matrix records exactly the branches that
values reach first, and whether some values reach none. -/
theorem matchToTree_records {branchEnv : List Nat} (fuel : Nat)
    (cols : List (Col τ)) (paths : List (VarInfo τ)) (rows : List (Row τ))
    (st : Build) (hmatrix : Matrix S branchEnv cols paths rows st)
    (hfuel : 2 * rowsWeight rows + cols.length < fuel)
    (hpopulated : ∀ c ∈ cols, c.Populated S) :
    ∃ tree st', matchToTree S.toTypes branchEnv fuel paths rows st =
        .ok (tree, st') ∧ Adds (outcomes S cols rows) st st' := by
  obtain ⟨tree, st', hok, hsub⟩ := matchToTree_induct
    (P := Records S) (fun _ _ _ _ _ _ _ hnode => hnode.adds) fuel cols paths
    rows st hmatrix hfuel
  exact ⟨tree, st', hok, hsub.holds hpopulated⟩

end MatchCompiler

end SmlSharp
