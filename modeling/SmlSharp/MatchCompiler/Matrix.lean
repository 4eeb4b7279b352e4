/-
The matrix of the rules: its columns and their types, and how a column that is
tested splits the rows without changing the first one that matches.
-/
import Mathlib.Algebra.Ring.Nat
import SmlSharp.MatchCompiler.Value

namespace SmlSharp

namespace MatchCompiler

variable {τ : Type} (S : Semantics τ)

/-! ### Columns -/

/-- A column holds values of a type, records of which some fields are still to
be looked at, or nothing (the column of a constructor without an argument). -/
inductive Col (τ : Type) where
  | whole (ty : τ)
  | part (ty : τ) (fields : List (String × τ))
  | unused (ty : τ)

def Col.ty : Col τ → τ
  | .whole ty => ty
  | .part ty _ => ty
  | .unused ty => ty

def Col.Fits : Col τ → Pat τ → Prop
  | .whole ty, pat => pat.Typed S ty
  | .part ty fields, pat => pat = .wildPat ty ∨
      ∃ pats, pat = .recPat pats ty ∧ fieldsTyped S pats fields
  | .unused ty, pat => pat = .wildPat ty

def FieldsHold (vs : List (String × Value)) (fields : List (String × τ)) :
    Prop :=
  ∀ label ty, (label, ty) ∈ fields →
    ∃ v, vs.lookup label = some v ∧ HasType S v ty

def Col.Holds : Col τ → Value → Prop
  | .whole ty, v => HasType S v ty
  | .part _ fields, v => ∃ vs, v = .record vs ∧ FieldsHold S vs fields
  | .unused _, _ => True

/-- The fields that a column of records has. -/
def Col.HasFields : Col τ → List (String × τ) → Prop
  | .whole ty, fields => S.shape ty = .record fields
  | .part _ rest, fields => rest = fields
  | .unused _, _ => False

variable {S}

theorem Pat.Typed.getTyInPat {pat : Pat τ} {ty : τ} (htyped : pat.Typed S ty) :
    getTyInPat pat = ty := by
  fun_cases Pat.Typed S pat ty with
  | case1 => simpa [Pat.Typed, MatchCompiler.getTyInPat] using htyped
  | case2 => simpa [Pat.Typed, MatchCompiler.getTyInPat] using htyped
  | case3 =>
    simp only [Pat.Typed] at htyped
    exact htyped.1
  | case4 =>
    simp only [Pat.Typed] at htyped
    exact htyped.1
  | case5 =>
    simp only [Pat.Typed] at htyped
    exact htyped.1
  | case6 =>
    simp only [Pat.Typed] at htyped
    exact htyped.1
  | case7 =>
    simp only [Pat.Typed] at htyped
    exact htyped.1
  | case8 => simp [Pat.Typed] at htyped
  | case9 => simp [Pat.Typed] at htyped

theorem Col.Fits.getTyInPat {c : Col τ} {pat : Pat τ} (hfits : c.Fits S pat) :
    getTyInPat pat = c.ty := by
  cases c with
  | whole ty => exact Pat.Typed.getTyInPat hfits
  | part ty fields =>
    rcases hfits with rfl | ⟨pats, rfl, -⟩ <;> rfl
  | unused ty =>
    obtain rfl : pat = .wildPat ty := hfits
    rfl

theorem Col.fits_wild (c : Col τ) : c.Fits S (.wildPat c.ty) := by
  cases c with
  | whole ty => exact rfl
  | part ty fields => exact Or.inl rfl
  | unused ty => exact rfl

/-- The value of a column of records. -/
theorem Col.Holds.record {c : Col τ} {fields : List (String × τ)} {v : Value}
    (hholds : c.Holds S v) (hfields : c.HasFields S fields) :
    ∃ vs, v = .record vs ∧ FieldsHold S vs fields := by
  cases c with
  | whole ty =>
    have hshape : S.shape ty = .record fields := hfields
    cases hholds with
    | @record vs _ fields' value hshape' hlookup htyped =>
      obtain rfl : fields' = fields := by
        rw [hshape] at hshape'
        simpa using hshape'.symm
      refine ⟨vs, rfl, ?_⟩
      intro label ty' hmem
      exact ⟨value label, hlookup label ty' hmem, htyped label ty' hmem⟩
    | const hshape' => simp [hshape] at hshape'
    | data hshape' => simp [hshape] at hshape'
    | dataArg hshape' => simp [hshape] at hshape'
    | exn hshape' => simp [hshape] at hshape'
    | exnArg hshape' => simp [hshape] at hshape'
    | other hshape' => simp [hshape] at hshape'
  | part ty rest =>
    obtain rfl : rest = fields := hfields
    exact hholds
  | unused ty => exact hfields.elim

variable {c : Col τ} {f : Row τ → Option (Row τ)} {path : VarInfo τ}

/-- A record pattern in a column has the fields of the column. -/
theorem Col.Fits.record {fields : List (String × Pat τ)} {ty : τ}
    (hfits : c.Fits S (.recPat fields ty)) :
    ty = c.ty ∧ ∃ fieldTys, c.HasFields S fieldTys ∧
      fieldsTyped S fields fieldTys := by
  cases c with
  | whole t =>
    simp only [Col.Fits, Pat.Typed] at hfits
    exact hfits
  | part t rest =>
    rcases hfits with hwild | ⟨pats, hpats, htyped⟩
    · cases hwild
    · obtain ⟨rfl, rfl⟩ : fields = pats ∧ ty = t := by simpa using hpats
      exact ⟨rfl, rest, rfl, htyped⟩
  | unused t =>
    simp only [Col.Fits] at hfits
    cases hfits

theorem Col.HasFields.unique {fields fields' : List (String × τ)}
    (hfields : c.HasFields S fields) (hfields' : c.HasFields S fields') :
    fields = fields' := by
  cases c with
  | whole ty =>
    have hshape : S.shape ty = .record fields := hfields
    have hshape' : S.shape ty = .record fields' := hfields'
    rw [hshape] at hshape'
    simpa using hshape'
  | part ty rest => exact Eq.trans (Eq.symm hfields) hfields'
  | unused ty => exact hfields.elim

/-! ### Weights -/

mutual

/-- The number of tests in a pattern. -/
def Pat.weight : Pat τ → Nat
  | .wildPat _ => 0
  | .varPat _ => 0
  | .constPat _ _ => 1
  | .dataConPat _ _ _ arg _ => 1 + arg.weight
  | .exnConPat _ _ arg _ => 1 + arg.weight
  | .recPat fields _ => 1 + fieldsWeight fields
  | .layerPat left right => left.weight + right.weight
  | .orPat left right => left.weight + right.weight

def fieldsWeight : List (String × Pat τ) → Nat
  | [] => 0
  | (_, pat) :: rest => 1 + pat.weight + fieldsWeight rest

end

def Row.weight (row : Row τ) : Nat :=
  (row.pats.map Pat.weight).sum

def rowsWeight (rows : List (Row τ)) : Nat :=
  (rows.map Row.weight).sum

@[simp] theorem rowsWeight_nil : rowsWeight ([] : List (Row τ)) = 0 := rfl

@[simp] theorem rowsWeight_cons (row : Row τ) (rows : List (Row τ)) :
    rowsWeight (row :: rows) = row.weight + rowsWeight rows := rfl

theorem rowsWeight_filterMap_le {rows : List (Row τ)}
    (hle : ∀ row ∈ rows, ∀ row', f row = some row' → row'.weight ≤ row.weight) :
    rowsWeight (rows.filterMap f) ≤ rowsWeight rows := by
  induction rows with
  | nil => simp
  | cons row rows ih =>
    have htail := ih fun other hother => hle other (by simp [hother])
    cases hf : f row with
    | none =>
      rw [List.filterMap_cons_none hf, rowsWeight_cons]
      omega
    | some row' =>
      have hrow := hle row (by simp) row' hf
      rw [List.filterMap_cons_some hf, rowsWeight_cons, rowsWeight_cons]
      omega

/-- Selecting rows loses weight where one of them loses weight. -/
theorem rowsWeight_filterMap_lt {rows : List (Row τ)}
    (hle : ∀ row ∈ rows, ∀ row', f row = some row' → row'.weight ≤ row.weight)
    {row : Row τ} (hmem : row ∈ rows) (hpos : 0 < row.weight)
    (hlt : ∀ row', f row = some row' → row'.weight < row.weight) :
    rowsWeight (rows.filterMap f) < rowsWeight rows := by
  induction rows with
  | nil => simp at hmem
  | cons head rows ih =>
    have hleTail : ∀ other ∈ rows, ∀ row', f other = some row' →
        row'.weight ≤ other.weight :=
      fun other hother => hle other (by simp [hother])
    have htail := rowsWeight_filterMap_le hleTail
    rcases List.mem_cons.mp hmem with rfl | hmem
    · cases hf : f row with
      | none =>
        rw [List.filterMap_cons_none hf, rowsWeight_cons]
        omega
      | some row' =>
        have hrow := hlt row' hf
        rw [List.filterMap_cons_some hf, rowsWeight_cons, rowsWeight_cons]
        omega
    · have hstrict := ih hleTail hmem
      cases hf : f head with
      | none =>
        rw [List.filterMap_cons_none hf, rowsWeight_cons]
        omega
      | some head' =>
        have hhead := hle head (by simp) head' hf
        rw [List.filterMap_cons_some hf, rowsWeight_cons, rowsWeight_cons]
        omega

/-! ### First matches -/

section FirstMatch

variable {B : Type} {bind : B → VarInfo τ → Value → B} {ofEnv : Env τ → B}

/-- Rows that are selected and changed without a change of their outcome. -/
theorem firstMatch_filterMap {rows : List (Row τ)} {vs vs' : List Value}
    (hrows : ∀ row ∈ rows, (f row).bind (Row.outcome S bind ofEnv vs') =
        Row.outcome S bind ofEnv vs row) :
    firstMatch S bind ofEnv vs' (rows.filterMap f) =
      firstMatch S bind ofEnv vs rows := by
  induction rows with
  | nil => rfl
  | cons row rows ih =>
    have htail := ih fun other hother => hrows other (by simp [hother])
    have hrow := hrows row (by simp)
    simp only [firstMatch] at htail ⊢
    cases hf : f row with
    | none =>
      rw [hf, Option.bind_none] at hrow
      rw [List.filterMap_cons_none hf, List.findSome?_cons, ← hrow]
      exact htail
    | some row' =>
      rw [hf, Option.bind_some] at hrow
      rw [List.filterMap_cons_some hf, List.findSome?_cons,
        List.findSome?_cons, hrow, htail]

/-- What the environment of a row means after a variable was bound to the path
of a column. -/
def EnvLaw (bind : B → VarInfo τ → Value → B) (ofEnv : Env τ → B)
    (path : VarInfo τ) (v : Value) : Prop :=
  ∀ (env : Env τ) (x : VarInfo τ),
    ofEnv (env.insert x path) = bind (ofEnv env) x v

end FirstMatch

/-- A test of the first column with the value `v` leaves the values `vs'` and
the rows `rows'`. -/
def Reduces (S : Semantics τ) (path : VarInfo τ) (rows : List (Row τ))
    (v : Value) (vs vs' : List Value) (rows' : List (Row τ)) : Prop :=
  ∀ (B : Type) (bind : B → VarInfo τ → Value → B) (ofEnv : Env τ → B),
    EnvLaw bind ofEnv path v →
      firstMatch S bind ofEnv (v :: vs) rows =
        firstMatch S bind ofEnv vs' rows'

/-! ### Rows whose head needs no test -/

/-- The head of a row after variables and layers are gone. -/
def Plain : Pat τ → Prop
  | .varPat _ => False
  | .layerPat _ _ => False
  | .orPat _ _ => False
  | _ => True

/-- What `removeOtherPat` does to one row of a typed column. -/
structure Moved (S : Semantics τ) (c : Col τ) (path : VarInfo τ)
    (row row' : Row τ) : Prop where
  pats : ∃ pat pat' rest, row.pats = pat :: rest ∧ row'.pats = pat' :: rest ∧
    Plain pat' ∧ c.Fits S pat' ∧ pat'.weight ≤ pat.weight
  branch : row'.branch = row.branch
  env : ∀ entry ∈ row'.env, entry ∈ row.env ∨ entry.2 = path
  outcome : ∀ (B : Type) (bind : B → VarInfo τ → Value → B)
    (ofEnv : Env τ → B) (v : Value) (vs : List Value),
    EnvLaw bind ofEnv path v →
      row'.outcome S bind ofEnv (v :: vs) = row.outcome S bind ofEnv (v :: vs)

theorem Moved.refl {rest : List (Pat τ)} {branch : Nat} {env : Env τ} (hplain : Plain pat)
    (hfits : c.Fits S pat) :
    Moved S c path ⟨pat :: rest, branch, env⟩ ⟨pat :: rest, branch, env⟩ where
  pats := ⟨pat, pat, rest, rfl, rfl, hplain, hfits, Nat.le_refl _⟩
  branch := rfl
  env _ hentry := Or.inl hentry
  outcome _ _ _ _ _ _ := rfl

theorem mem_insert_env {env : Env τ} {x : VarInfo τ}
    {entry : VarInfo τ × VarInfo τ} (hmem : entry ∈ env.insert x path) :
    entry ∈ env ∨ entry.2 = path := by
  rcases List.mem_cons.mp hmem with rfl | hold
  · exact Or.inr rfl
  · exact Or.inl (List.mem_of_mem_filter hold)

theorem removeHead_typed (path : VarInfo τ) (branch : Nat) (rest : List (Pat τ))
    (pat : Pat τ) (env : Env τ) {ty : τ} (htyped : pat.Typed S ty) :
    ∃ row', removeHead path branch rest pat env = [row'] ∧
      Moved S (.whole ty) path ⟨pat :: rest, branch, env⟩ row' := by
  fun_induction removeHead path branch rest pat env with
  | case1 x env =>
    refine ⟨_, rfl, ⟨⟨_, _, rest, rfl, rfl, trivial, ?_, ?_⟩, rfl, ?_, ?_⟩⟩
    · simpa [Col.Fits, Pat.Typed] using htyped
    · simp [Pat.weight]
    · exact fun entry hentry => mem_insert_env hentry
    · intro B bind ofEnv v vs hlaw
      simp [Row.outcome, matchPats, matchPat, hlaw env x]
  | case2 x pat env ih =>
    simp only [Pat.Typed] at htyped
    obtain ⟨row', hremove, hmoved⟩ := ih htyped.2
    obtain ⟨p, p', rest', hpats, hpats', hplain, hfits, hweight⟩ := hmoved.pats
    obtain ⟨rfl, rfl⟩ : pat = p ∧ rest = rest' := by simpa using hpats
    refine ⟨row', hremove, ⟨⟨_, p', rest, rfl, hpats', hplain, hfits, ?_⟩,
      hmoved.branch, ?_, ?_⟩⟩
    · simpa [Pat.weight] using hweight
    · intro entry hentry
      rcases hmoved.env entry hentry with hold | hpath
      · exact mem_insert_env hold
      · exact Or.inr hpath
    · intro B bind ofEnv v vs hlaw
      rw [hmoved.outcome B bind ofEnv v vs hlaw]
      simp [Row.outcome, matchPats, matchPat, hlaw env x]
  | case3 => simp [Pat.Typed] at htyped
  | case4 pat env hvar hlayer hor =>
    refine ⟨_, rfl, Moved.refl ?_ htyped⟩
    cases pat with
    | varPat x => exact (hvar x rfl).elim
    | layerPat left right =>
      cases left with
      | varPat x => exact (hlayer x right rfl).elim
      | _ => simp [Pat.Typed] at htyped
    | orPat left right => exact (hor left right rfl).elim
    | _ => trivial

theorem removeHead_fits (path : VarInfo τ) (branch : Nat) (rest : List (Pat τ))
    (pat : Pat τ) (env : Env τ) (hfits : c.Fits S pat) :
    ∃ row', removeHead path branch rest pat env = [row'] ∧
      Moved S c path ⟨pat :: rest, branch, env⟩ row' := by
  cases c with
  | whole ty => exact removeHead_typed path branch rest pat env hfits
  | part ty fields =>
    have hall := hfits
    rcases hfits with rfl | ⟨pats, rfl, -⟩
    · exact ⟨_, by simp [removeHead], Moved.refl trivial hall⟩
    · exact ⟨_, by simp [removeHead], Moved.refl trivial hall⟩
  | unused ty =>
    have hall := hfits
    obtain rfl : pat = .wildPat ty := hfits
    exact ⟨_, by simp [removeHead], Moved.refl trivial hall⟩

theorem removeOtherPat_moved (path : VarInfo τ) {cols : List (Col τ)}
    (rows : List (Row τ))
    (hfits : ∀ row ∈ rows, List.Forall₂ (Col.Fits S) (c :: cols) row.pats) :
    List.Forall₂ (Moved S c path) rows (removeOtherPat path rows) := by
  induction rows with
  | nil => exact .nil
  | cons row rows ih =>
    obtain ⟨pats, branch, env⟩ := row
    have hrow := hfits _ List.mem_cons_self
    have htail := ih fun other hother => hfits other (by simp [hother])
    cases hrow with
    | cons hhead hrest =>
      obtain ⟨row', hremove, hmoved⟩ :=
        removeHead_fits path branch _ _ env hhead
      rw [removeOtherPat, hremove]
      exact .cons hmoved htail

theorem Moved.firstMatch_eq {rows rows' : List (Row τ)}
    (hmoved : List.Forall₂ (Moved S c path) rows rows') {B : Type}
    {bind : B → VarInfo τ → Value → B} {ofEnv : Env τ → B} {v : Value}
    (hlaw : EnvLaw bind ofEnv path v) (vs : List Value) :
    firstMatch S bind ofEnv (v :: vs) rows' =
      firstMatch S bind ofEnv (v :: vs) rows := by
  induction hmoved with
  | nil => rfl
  | cons hhead _ ih =>
    simp only [firstMatch] at ih ⊢
    rw [List.findSome?_cons, List.findSome?_cons, ih,
      hhead.outcome B bind ofEnv v vs hlaw]

theorem Moved.rowsWeight_le {rows rows' : List (Row τ)}
    (hmoved : List.Forall₂ (Moved S c path) rows rows') :
    rowsWeight rows' ≤ rowsWeight rows := by
  induction hmoved with
  | nil => exact Nat.le_refl _
  | cons hhead _ ih =>
    obtain ⟨pat, pat', rest, hpats, hpats', -, -, hweight⟩ := hhead.pats
    simp only [rowsWeight_cons, Row.weight, hpats, hpats', List.map_cons,
      List.sum_cons]
    omega

end MatchCompiler

end SmlSharp
