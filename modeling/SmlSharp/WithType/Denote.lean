/-
What a type denotes, by itself and read under the abbreviations of `withtype`.
-/
import SmlSharp.WithType.Unchanged

namespace SmlSharp

namespace WithType

/-! ### Denotations -/

/-- A type in which the variables bound inside are numbered from the outermost
binder, and the free ones keep their names. -/
abbrev Nameless := Ty (Nat ⊕ String)

/-- What the variables stand for, below a number of bound variables. -/
abbrev Scope := Tvar String → Nat → Nameless

def Scope.bind (scope : Scope) (tvars : List (KindedTvar String)) (depth : Nat) :
    Scope :=
  fun tvar => match (boundNames tvars).idxOf? tvar.symbol with
    | some i => fun _ => .id ⟨.inl (depth + i), tvar.isEq⟩
    | none => scope tvar

/-- The parameters of an abbreviation stand for its arguments. -/
def Scope.apply (scope : Scope) (params : List String)
    (args : List (Nat → Nameless)) : Scope :=
  fun tvar => ((params.zip args).lookup tvar.symbol).getD (scope tvar)

mutual

/-- The type that a type expression denotes below `depth` bound variables. -/
def Ty.denote (scope : Scope) (depth : Nat) : Ty String → Nameless
  | .wild => .wild
  | .id tvar => scope tvar depth
  | .freeId tvar kind =>
    .freeId ⟨.inr tvar.symbol, tvar.isEq⟩ (kind.denote scope depth)
  | .record ifFlex fields => .record ifFlex (denoteFields scope depth fields)
  | .construct args tyCon => .construct (denoteTys scope depth args) tyCon
  | .tuple tys => .tuple (denoteTys scope depth tys)
  | .func dom ran => .func (dom.denote scope depth) (ran.denote scope depth)
  | .poly tvars body =>
    .poly (denoteTvars (scope.bind tvars depth) (depth + tvars.length) tvars)
      (body.denote (scope.bind tvars depth) (depth + tvars.length))

def denoteTys (scope : Scope) (depth : Nat) : List (Ty String) → List Nameless
  | [] => []
  | ty :: tys => ty.denote scope depth :: denoteTys scope depth tys

def denoteFields (scope : Scope) (depth : Nat) :
    List (String × Ty String) → List (String × Nameless)
  | [] => []
  | (label, ty) :: fields =>
    (label, ty.denote scope depth) :: denoteFields scope depth fields

def TvarKind.denote (scope : Scope) (depth : Nat) :
    TvarKind String → TvarKind (Nat ⊕ String)
  | .univ properties => .univ properties
  | .recKind properties fields =>
    .recKind properties (denoteFields scope depth fields)

/-- The bound variables lose their names. -/
def denoteTvars (scope : Scope) (depth : Nat) :
    List (KindedTvar String) → List (KindedTvar (Nat ⊕ String))
  | [] => []
  | (tvar, kind) :: tvars =>
    (⟨.inl 0, tvar.isEq⟩, kind.denote scope depth) ::
      denoteTvars scope depth tvars

end

/-- What the application of a constructor is to the declarations after
`withtype`. -/
inductive Use where
  | other
  | abbreviation (bind : TypBind)
  | misuse

section Read

variable (binds : List TypBind)

def use (tyCon : List String) (given : Nat) : Use :=
  match tyCon with
  | [name] =>
    match findTypBind binds name with
    | some bind =>
      if bind.tyvars.length = given then .abbreviation bind else .misuse
    | none => .other
  | _ => .other

mutual

/-- The type that a type expression denotes when it is read under the
abbreviations.  The body of an abbreviation is a type of its own, in which the
parameters stand for what the arguments denote. -/
def Ty.read (scope : Scope) : Ty String → Nat → Nameless
  | .wild, _ => .wild
  | .id tvar, depth => scope tvar depth
  | .freeId tvar kind, depth =>
    .freeId ⟨.inr tvar.symbol, tvar.isEq⟩ (kind.read scope depth)
  | .record ifFlex fields, depth => .record ifFlex (readFields scope fields depth)
  | .construct args tyCon, depth =>
    match use binds tyCon args.length with
    | .abbreviation bind =>
      bind.ty.denote (scope.apply (bind.tyvars.map Tvar.symbol)
        (readTys scope args)) depth
    | _ => .construct ((readTys scope args).map fun arg => arg depth) tyCon
  | .tuple tys, depth => .tuple ((readTys scope tys).map fun ty => ty depth)
  | .func dom ran, depth => .func (dom.read scope depth) (ran.read scope depth)
  | .poly tvars body, depth =>
    .poly (readTvars (scope.bind tvars depth) tvars (depth + tvars.length))
      (body.read (scope.bind tvars depth) (depth + tvars.length))

def readTys (scope : Scope) : List (Ty String) → List (Nat → Nameless)
  | [] => []
  | ty :: tys => ty.read scope :: readTys scope tys

def readFields (scope : Scope) :
    List (String × Ty String) → Nat → List (String × Nameless)
  | [], _ => []
  | (label, ty) :: fields, depth =>
    (label, ty.read scope depth) :: readFields scope fields depth

def TvarKind.read (scope : Scope) :
    TvarKind String → Nat → TvarKind (Nat ⊕ String)
  | .univ properties, _ => .univ properties
  | .recKind properties fields, depth =>
    .recKind properties (readFields scope fields depth)

def readTvars (scope : Scope) :
    List (KindedTvar String) → Nat → List (KindedTvar (Nat ⊕ String))
  | [], _ => []
  | (tvar, kind) :: tvars, depth =>
    (⟨.inl 0, tvar.isEq⟩, kind.read scope depth) :: readTvars scope tvars depth

end

mutual

/-- No abbreviation is applied to as many arguments as it has parameters. -/
def Ty.Plain : Ty String → Prop
  | .wild => True
  | .id _ => True
  | .freeId _ kind => kind.Plain
  | .record _ fields => plainFields fields
  | .construct args tyCon =>
    (∀ bind, use binds tyCon args.length ≠ .abbreviation bind) ∧ plainTys args
  | .tuple tys => plainTys tys
  | .func dom ran => dom.Plain ∧ ran.Plain
  | .poly tvars body => plainTvars tvars ∧ body.Plain

def plainTys : List (Ty String) → Prop
  | [] => True
  | ty :: tys => ty.Plain ∧ plainTys tys

def plainFields : List (String × Ty String) → Prop
  | [] => True
  | (_, ty) :: fields => ty.Plain ∧ plainFields fields

def TvarKind.Plain : TvarKind String → Prop
  | .univ _ => True
  | .recKind _ fields => plainFields fields

def plainTvars : List (KindedTvar String) → Prop
  | [] => True
  | (_, kind) :: tvars => kind.Plain ∧ plainTvars tvars

end

end Read

mutual

/-- The variables that occur free, in kinds or outside them. -/
def Ty.frees : Ty String → List (Tvar String)
  | .wild => []
  | .id tvar => [tvar]
  | .freeId _ kind => kind.frees
  | .record _ fields => freesFields fields
  | .construct args _ => freesTys args
  | .tuple tys => freesTys tys
  | .func dom ran => dom.frees ++ ran.frees
  | .poly tvars body => unbound tvars (freesTvars tvars ++ body.frees)

def freesTys : List (Ty String) → List (Tvar String)
  | [] => []
  | ty :: tys => ty.frees ++ freesTys tys

def freesFields : List (String × Ty String) → List (Tvar String)
  | [] => []
  | (_, ty) :: fields => ty.frees ++ freesFields fields

def TvarKind.frees : TvarKind String → List (Tvar String)
  | .univ _ => []
  | .recKind _ fields => freesFields fields

def freesTvars : List (KindedTvar String) → List (Tvar String)
  | [] => []
  | (_, kind) :: tvars => kind.frees ++ freesTvars tvars

end

/-! ### Types in two scopes -/

theorem Scope.bind_eq_iff {scope scope' : Scope} {Q : Tvar String → Prop}
    (tvars : List (KindedTvar String)) {depth depth' : Nat} {tvar : Tvar String}
    (h : scope tvar depth' = scope' tvar depth' ↔ Q tvar) :
    scope.bind tvars depth tvar depth' = scope'.bind tvars depth tvar depth' ↔
      tvar.symbol ∈ boundNames tvars ∨ Q tvar := by
  unfold Scope.bind
  cases hi : (boundNames tvars).idxOf? tvar.symbol with
  | none =>
    have hnot : tvar.symbol ∉ boundNames tvars := List.idxOf?_eq_none_iff.mp hi
    rw [or_iff_right hnot]
    exact h
  | some i =>
    obtain ⟨_, hget, -⟩ := List.idxOf?_eq_some_iff.mp hi
    have hmem : tvar.symbol ∈ boundNames tvars := List.mem_of_getElem hget
    simp [hmem]

theorem forall_mem_unbound {tvars : List (KindedTvar String)}
    {found : List (Tvar String)} {Q : Tvar String → Prop} :
    (∀ tvar ∈ unbound tvars found, Q tvar) ↔
      ∀ tvar ∈ found, tvar.symbol ∈ boundNames tvars ∨ Q tvar := by
  simp only [mem_unbound, and_imp]
  exact forall₂_congr fun tvar _ => by
    rw [or_iff_not_imp_left]

section Agree

mutual

/-- A type denotes the same in two scopes when these agree on its variables. -/
theorem Ty.denote_eq_iff {scope scope' : Scope} {Q : Tvar String → Prop}
    {depth : Nat} (h : ∀ tvar depth', depth ≤ depth' →
      (scope tvar depth' = scope' tvar depth' ↔ Q tvar)) (ty : Ty String) :
    ty.denote scope depth = ty.denote scope' depth ↔
      ∀ tvar ∈ ty.frees, Q tvar := by
  cases ty with
  | wild => simp [Ty.denote, Ty.frees]
  | id tvar => simpa [Ty.denote, Ty.frees] using h tvar depth (Nat.le_refl depth)
  | freeId tvar kind =>
    simpa [Ty.denote, Ty.frees] using TvarKind.denote_eq_iff h kind
  | record ifFlex fields =>
    simpa [Ty.denote, Ty.frees] using denoteFields_eq_iff h fields
  | construct args tyCon =>
    simpa [Ty.denote, Ty.frees] using denoteTys_eq_iff h args
  | tuple tys => simpa [Ty.denote, Ty.frees] using denoteTys_eq_iff h tys
  | func dom ran =>
    simp only [Ty.denote, Ty.frees, Ty.func.injEq, Ty.denote_eq_iff h dom,
      Ty.denote_eq_iff h ran, List.forall_mem_append]
  | poly tvars body =>
    have h' : ∀ tvar depth', depth + tvars.length ≤ depth' →
        (scope.bind tvars depth tvar depth' =
            scope'.bind tvars depth tvar depth' ↔
          tvar.symbol ∈ boundNames tvars ∨ Q tvar) := by
      intro tvar depth' hdepth
      exact Scope.bind_eq_iff tvars (h tvar depth' (by omega))
    simp only [Ty.denote, Ty.frees, Ty.poly.injEq, Ty.denote_eq_iff h' body,
      denoteTvars_eq_iff h' tvars, forall_mem_unbound, List.forall_mem_append]

theorem denoteTys_eq_iff {scope scope' : Scope} {Q : Tvar String → Prop}
    {depth : Nat} (h : ∀ tvar depth', depth ≤ depth' →
      (scope tvar depth' = scope' tvar depth' ↔ Q tvar)) (tys : List (Ty String)) :
    denoteTys scope depth tys = denoteTys scope' depth tys ↔
      ∀ tvar ∈ freesTys tys, Q tvar := by
  cases tys with
  | nil => simp [denoteTys, freesTys]
  | cons ty tys =>
    simp only [denoteTys, freesTys, List.cons.injEq, Ty.denote_eq_iff h ty,
      denoteTys_eq_iff h tys, List.forall_mem_append]

theorem denoteFields_eq_iff {scope scope' : Scope} {Q : Tvar String → Prop}
    {depth : Nat} (h : ∀ tvar depth', depth ≤ depth' →
      (scope tvar depth' = scope' tvar depth' ↔ Q tvar))
    (fields : List (String × Ty String)) :
    denoteFields scope depth fields = denoteFields scope' depth fields ↔
      ∀ tvar ∈ freesFields fields, Q tvar := by
  cases fields with
  | nil => simp [denoteFields, freesFields]
  | cons field fields =>
    obtain ⟨label, ty⟩ := field
    simp only [denoteFields, freesFields, List.cons.injEq, Prod.mk.injEq,
      true_and, Ty.denote_eq_iff h ty, denoteFields_eq_iff h fields,
      List.forall_mem_append]

theorem TvarKind.denote_eq_iff {scope scope' : Scope} {Q : Tvar String → Prop}
    {depth : Nat} (h : ∀ tvar depth', depth ≤ depth' →
      (scope tvar depth' = scope' tvar depth' ↔ Q tvar)) (kind : TvarKind String) :
    kind.denote scope depth = kind.denote scope' depth ↔
      ∀ tvar ∈ kind.frees, Q tvar := by
  cases kind with
  | univ properties => simp [TvarKind.denote, TvarKind.frees]
  | recKind properties fields =>
    simpa [TvarKind.denote, TvarKind.frees] using denoteFields_eq_iff h fields

theorem denoteTvars_eq_iff {scope scope' : Scope} {Q : Tvar String → Prop}
    {depth : Nat} (h : ∀ tvar depth', depth ≤ depth' →
      (scope tvar depth' = scope' tvar depth' ↔ Q tvar))
    (tvars : List (KindedTvar String)) :
    denoteTvars scope depth tvars = denoteTvars scope' depth tvars ↔
      ∀ tvar ∈ freesTvars tvars, Q tvar := by
  cases tvars with
  | nil => simp [denoteTvars, freesTvars]
  | cons tvar tvars =>
    obtain ⟨tvar, kind⟩ := tvar
    simp only [denoteTvars, freesTvars, List.cons.injEq, Prod.mk.injEq,
      true_and, TvarKind.denote_eq_iff h kind, denoteTvars_eq_iff h tvars,
      List.forall_mem_append]

end

end Agree

/-! ### Types without abbreviations -/

section Plain

variable {binds : List TypBind}

mutual

theorem Ty.read_of_plain (scope : Scope) (ty : Ty String) (hplain : ty.Plain binds)
    (depth : Nat) : ty.read binds scope depth = ty.denote scope depth := by
  cases ty with
  | wild => rfl
  | id tvar => rfl
  | freeId tvar kind =>
    rw [Ty.Plain] at hplain
    rw [Ty.read, Ty.denote, TvarKind.read_of_plain scope kind hplain]
  | record ifFlex fields =>
    rw [Ty.Plain] at hplain
    rw [Ty.read, Ty.denote, readFields_of_plain scope fields hplain]
  | construct args tyCon =>
    rw [Ty.Plain] at hplain
    rw [Ty.read, Ty.denote, readTys_of_plain scope args hplain.2]
    split
    · next bind huse => exact absurd huse (hplain.1 bind)
    · rfl
  | tuple tys =>
    rw [Ty.Plain] at hplain
    rw [Ty.read, Ty.denote, readTys_of_plain scope tys hplain]
  | func dom ran =>
    rw [Ty.Plain] at hplain
    rw [Ty.read, Ty.denote, Ty.read_of_plain scope dom hplain.1,
      Ty.read_of_plain scope ran hplain.2]
  | poly tvars body =>
    rw [Ty.Plain] at hplain
    rw [Ty.read, Ty.denote, readTvars_of_plain _ tvars hplain.1,
      Ty.read_of_plain _ body hplain.2]

theorem readTys_of_plain (scope : Scope) (tys : List (Ty String))
    (hplain : plainTys binds tys) (depth : Nat) :
    (readTys binds scope tys).map (fun ty => ty depth) =
      denoteTys scope depth tys := by
  cases tys with
  | nil => rfl
  | cons ty tys =>
    rw [plainTys] at hplain
    rw [readTys, denoteTys, List.map_cons, Ty.read_of_plain scope ty hplain.1,
      readTys_of_plain scope tys hplain.2]

theorem readFields_of_plain (scope : Scope) (fields : List (String × Ty String))
    (hplain : plainFields binds fields) (depth : Nat) :
    readFields binds scope fields depth = denoteFields scope depth fields := by
  cases fields with
  | nil => rfl
  | cons field fields =>
    obtain ⟨label, ty⟩ := field
    rw [plainFields] at hplain
    rw [readFields, denoteFields, Ty.read_of_plain scope ty hplain.1,
      readFields_of_plain scope fields hplain.2]

theorem TvarKind.read_of_plain (scope : Scope) (kind : TvarKind String)
    (hplain : kind.Plain binds) (depth : Nat) :
    kind.read binds scope depth = kind.denote scope depth := by
  cases kind with
  | univ properties => rfl
  | recKind properties fields =>
    rw [TvarKind.Plain] at hplain
    rw [TvarKind.read, TvarKind.denote, readFields_of_plain scope fields hplain]

theorem readTvars_of_plain (scope : Scope) (tvars : List (KindedTvar String))
    (hplain : plainTvars binds tvars) (depth : Nat) :
    readTvars binds scope tvars depth = denoteTvars scope depth tvars := by
  cases tvars with
  | nil => rfl
  | cons tvar tvars =>
    obtain ⟨tvar, kind⟩ := tvar
    rw [plainTvars] at hplain
    rw [readTvars, denoteTvars, TvarKind.read_of_plain scope kind hplain.1,
      readTvars_of_plain scope tvars hplain.2]

end

end Plain

end WithType

end SmlSharp
