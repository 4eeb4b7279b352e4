/-
Values, well-typed patterns, and what it means that a pattern matches.
-/
import SmlSharp.MatchCompiler.Tree
import SmlSharp.Lib.Except

namespace SmlSharp

namespace MatchCompiler

inductive Value where
  | const (c : Const)
  | data (con : Nat) (arg : Option Value)
  | exn (tag : Nat) (arg : Option Value)
  | record (fields : List (String × Value))
  | other (n : Nat)

/-- What a type says about its values: a set of constants, the constructors of
a datatype with the types of their arguments, an exception, the fields of a
record, or values that no pattern takes apart. -/
inductive Shape (τ : Type) where
  | const (values : Const → Prop)
  | data (cons : List (Nat × Option τ))
  | exn
  | record (fields : List (String × τ))
  | other

variable {τ : Type}

/-- The types of the compiler with the values they stand for.  The exception
constructors that patterns may mention have pairwise distinct tags. -/
structure Semantics (τ : Type) extends Types τ where
  shape : τ → Shape τ
  exnCons : ExnKey → Prop
  exnTag : ExnKey → Nat
  exnArg : Nat → Option τ
  data_nodup : ∀ ty cons, shape ty = .data cons → (cons.map Prod.fst).Nodup
  record_nodup : ∀ ty fields, shape ty = .record fields →
    (fields.map Prod.fst).Nodup
  record_fields : ∀ ty fields, shape ty = .record fields →
    getFieldsOfTy toTypes ty = .ok fields
  exn_distinct : ∀ left right, exnCons left → exnCons right →
    exnTag left = exnTag right → left = right
  unit_not_const : ∀ ty values, shape ty = .const values →
    ¬ values .unitConst

variable (S : Semantics τ)

/-- The values of a type. -/
inductive HasType : Value → τ → Prop where
  | const {c : Const} {ty : τ} {values : Const → Prop} :
      S.shape ty = .const values → values c → HasType (.const c) ty
  | data {con : Nat} {ty : τ} {cons : List (Nat × Option τ)} :
      S.shape ty = .data cons → (con, none) ∈ cons →
      HasType (.data con none) ty
  | dataArg {con : Nat} {v : Value} {ty argTy : τ}
      {cons : List (Nat × Option τ)} :
      S.shape ty = .data cons → (con, some argTy) ∈ cons → HasType v argTy →
      HasType (.data con (some v)) ty
  | exn {tag : Nat} {ty : τ} :
      S.shape ty = .exn → S.exnArg tag = none → HasType (.exn tag none) ty
  | exnArg {tag : Nat} {v : Value} {ty argTy : τ} :
      S.shape ty = .exn → S.exnArg tag = some argTy → HasType v argTy →
      HasType (.exn tag (some v)) ty
  | record {vs : List (String × Value)} {ty : τ} {fields : List (String × τ)}
      {value : String → Value} :
      S.shape ty = .record fields →
      (∀ label fieldTy, (label, fieldTy) ∈ fields →
        vs.lookup label = some (value label)) →
      (∀ label fieldTy, (label, fieldTy) ∈ fields →
        HasType (value label) fieldTy) →
      HasType (.record vs) ty
  | other {n : Nat} {ty : τ} : S.shape ty = .other → HasType (.other n) ty

/-! ### Well-typed patterns -/

mutual

/-- A pattern of a type.  Alternatives do not come from source patterns. -/
def Pat.Typed : Pat τ → τ → Prop
  | .wildPat ty, t => ty = t
  | .varPat x, t => x.ty = t
  | .constPat c ty, t =>
    ty = t ∧ ∃ values, S.shape t = .const values ∧ values c
  | .dataConPat con _ hasArg arg ty, t =>
    ty = t ∧ ∃ cons, S.shape t = .data cons ∧
      getTagNums S.toTypes con = .ok cons.length ∧
      ((hasArg = true ∧ ∃ argTy, (con.id, some argTy) ∈ cons ∧
          Pat.Typed arg argTy) ∨
        (hasArg = false ∧ (con.id, none) ∈ cons ∧ arg = .wildPat S.unitTy))
  | .exnConPat exn hasArg arg ty, t =>
    ty = t ∧ S.shape t = .exn ∧ S.exnCons exn.key ∧
      ((hasArg = true ∧ ∃ argTy, S.exnArg (S.exnTag exn.key) = some argTy ∧
          Pat.Typed arg argTy) ∨
        (hasArg = false ∧ S.exnArg (S.exnTag exn.key) = none ∧
          arg = .wildPat S.unitTy))
  | .recPat fields ty, t =>
    ty = t ∧ ∃ fieldTys, S.shape t = .record fieldTys ∧
      fieldsTyped fields fieldTys
  | .layerPat (.varPat x) pat, t => x.ty = t ∧ Pat.Typed pat t
  | .layerPat _ _, _ => False
  | .orPat _ _, _ => False

def fieldsTyped : List (String × Pat τ) → List (String × τ) → Prop
  | [], fieldTys => fieldTys = []
  | (label, pat) :: rest, fieldTys =>
    ∃ fieldTy restTys, fieldTys = (label, fieldTy) :: restTys ∧
      Pat.Typed pat fieldTy ∧ fieldsTyped rest restTys

end

/-! ### Matching -/

section Matching

variable {B : Type} (bind : B → VarInfo τ → Value → B)

mutual

/-- Match a value with a pattern, adding its variables to the bindings. -/
def matchPat : Pat τ → Value → B → Option B
  | .wildPat _, _, b => some b
  | .varPat x, v, b => some (bind b x v)
  | .constPat c _, .const c', b => if c = c' then some b else none
  | .dataConPat con _ true arg _, .data id (some v), b =>
    if con.id = id then matchPat arg v b else none
  | .dataConPat con _ false _ _, .data id _, b =>
    if con.id = id then some b else none
  | .exnConPat exn true arg _, .exn tag (some v), b =>
    if S.exnTag exn.key = tag then matchPat arg v b else none
  | .exnConPat exn false _ _, .exn tag _, b =>
    if S.exnTag exn.key = tag then some b else none
  | .recPat fields _, .record vs, b => matchFields fields vs b
  | .layerPat left right, v, b => (matchPat left v b).bind (matchPat right v)
  | .orPat left right, v, b => (matchPat left v b).or (matchPat right v b)
  | _, _, _ => none

def matchFields : List (String × Pat τ) → List (String × Value) → B → Option B
  | [], _, b => some b
  | (label, pat) :: rest, vs, b =>
    match vs.lookup label with
    | some v => (matchPat pat v b).bind (matchFields rest vs)
    | none => none

end

def matchPats : List (Pat τ) → List Value → B → Option B
  | [], [], b => some b
  | pat :: pats, v :: vs, b => (matchPat S bind pat v b).bind (matchPats pats vs)
  | _, _, _ => none

/-- The branch and the bindings of a row that matches. -/
def Row.outcome (ofEnv : Env τ → B) (vs : List Value) (row : Row τ) :
    Option (Nat × B) :=
  (matchPats S bind row.pats vs (ofEnv row.env)).map (row.branch, ·)

/-- First-match semantics: the outcome of the first row that matches. -/
def firstMatch (ofEnv : Env τ → B) (vs : List Value) (rows : List (Row τ)) :
    Option (Nat × B) :=
  rows.findSome? (Row.outcome S bind ofEnv vs)

end Matching

/-! ### Following a tree -/

/-- The values of variables by their ids, the latest binding first. -/
abbrev Bindings := List (Nat × Value)

def Bindings.insert (b : Bindings) (x : VarInfo τ) (v : Value) : Bindings :=
  (x.id, v) :: b.filter fun entry => entry.1 ≠ x.id

/-- The bindings that an environment stands for. -/
def Env.values (ρ : Nat → Value) (env : Env τ) : Bindings :=
  env.map fun entry => (entry.1.id, ρ entry.2.id)

/-- The value of the access path of a subtree. -/
def bindPath (ρ : Nat → Value) (tree : Tree τ) (v : Value) : Nat → Value :=
  match getPath tree with
  | some path => Function.update ρ path.id v
  | none => ρ

/-- Where following a tree ends: at an empty node, at a leaf, or at a record
that does not have the field. -/
inductive Outcome where
  | matchFail
  | leaf (branch : Nat) (b : Bindings)
  | stuck

mutual

/-- Follow a tree from its root, with the values of the variables. -/
def Tree.eval (ρ : Nat → Value) : Tree τ → Outcome
  | .emptyNode => .matchFail
  | .leafNode branch env => .leaf branch (env.values ρ)
  | .eqNode path branches default =>
    match ρ path.id with
    | .const c =>
      match evalConst ρ c branches with
      | some result => result
      | none => default.eval ρ
    | _ => default.eval ρ
  | .dataConNode path branches default =>
    match ρ path.id with
    | .data con arg =>
      match evalData ρ con arg branches with
      | some result => result
      | none => default.eval ρ
    | _ => default.eval ρ
  | .exnConNode path branches default =>
    match ρ path.id with
    | .exn tag arg =>
      match evalExn ρ tag arg branches with
      | some result => result
      | none => default.eval ρ
    | _ => default.eval ρ
  | .recNode path label child =>
    match ρ path.id with
    | .record vs =>
      match vs.lookup label with
      | some v => child.eval (bindPath ρ child v)
      | none => .stuck
    | _ => .stuck
  | .univNode _ child => child.eval ρ

/-- The branch of a constant, if there is one. -/
def evalConst (ρ : Nat → Value) (c : Const) :
    List (Const × Tree τ) → Option Outcome
  | [] => none
  | (c', tree) :: rest =>
    if c' = c then some (tree.eval ρ) else evalConst ρ c rest

/-- The branch of a constructor, if there is one; where the constructor has an
argument, its value is bound to the path of the branch. -/
def evalData (ρ : Nat → Value) (con : Nat) (arg : Option Value) :
    List (DataKey τ × Tree τ) → Option Outcome
  | [] => none
  | (key, tree) :: rest =>
    if key.id = con then
      match key.2.2, arg with
      | true, some v => some (tree.eval (bindPath ρ tree v))
      | _, _ => some (tree.eval ρ)
    else evalData ρ con arg rest

def evalExn (ρ : Nat → Value) (tag : Nat) (arg : Option Value) :
    List (ExnConKey τ × Tree τ) → Option Outcome
  | [] => none
  | (key, tree) :: rest =>
    if S.exnTag key.key = tag then
      match key.2, arg with
      | true, some v => some (tree.eval (bindPath ρ tree v))
      | _, _ => some (tree.eval ρ)
    else evalExn ρ tag arg rest

end

end MatchCompiler

end SmlSharp
