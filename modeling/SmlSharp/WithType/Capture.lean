/-
When the expansion of `withtype` in source files denotes what the declaration
says: variables of arguments must not be captured, and kinds are left alone.
-/
import Mathlib.Data.List.Forall2
import SmlSharp.WithType.Denote

namespace SmlSharp

namespace WithType

/-! ### The condition -/

/-- What is known of an argument of an abbreviation: when its expansion is right
and leaves only certain variables free, and which variable it expands to. -/
structure Arg where
  expands : (Tvar String → Prop) → Prop
  isVar : Tvar String → Prop

section Condition

variable (binds : List TypBind)

mutual

/-- The type expands to a variable. -/
def Ty.IsVar : Ty String → Tvar String → Prop
  | .id tvar, found => tvar = found
  | .construct args tyCon, found =>
    match use binds tyCon args.length with
    | .abbreviation bind =>
      match bind.ty with
      | .id param =>
        match ((bind.tyvars.map Tvar.symbol).zip (isVars args)).lookup
          param.symbol with
        | some isVar => isVar found
        | none => param = found
      | _ => False
    | _ => False
  | _, _ => False

def isVars : List (Ty String) → List (Tvar String → Prop)
  | [] => []
  | ty :: tys => ty.IsVar :: isVars tys

end

/-- A variable in a kind of the body of an abbreviation is bound there, or it is
no parameter, or its argument is this very variable. -/
def KindVar (arg : String → Option Arg) (free : Tvar String → Prop)
    (bound : List String) (tvar : Tvar String) : Prop :=
  tvar.symbol ∈ bound ∨
    match arg tvar.symbol with
    | some arg => arg.isVar tvar ∧ free tvar
    | none => free tvar

mutual

/-- The body of an abbreviation below the binders of `bound`: it applies no
abbreviation, and the arguments at its parameters are not captured. -/
def Ty.Body (arg : String → Option Arg) (free : Tvar String → Prop) :
    List String → Ty String → Prop
  | _, .wild => True
  | bound, .id tvar =>
    tvar.symbol ∈ bound ∨
      match arg tvar.symbol with
      | some arg => arg.expands fun tvar => tvar.symbol ∉ bound ∧ free tvar
      | none => free tvar
  | bound, .freeId _ kind =>
    kind.Plain binds ∧ ∀ tvar ∈ kind.frees, KindVar arg free bound tvar
  | bound, .record _ fields => bodyFields arg free bound fields
  | bound, .construct args tyCon =>
    (∀ bind, use binds tyCon args.length ≠ .abbreviation bind) ∧
      bodyTys arg free bound args
  | bound, .tuple tys => bodyTys arg free bound tys
  | bound, .func dom ran => dom.Body arg free bound ∧ ran.Body arg free bound
  | bound, .poly tvars body =>
    plainTvars binds tvars ∧
      (∀ tvar ∈ freesTvars tvars, tvar.symbol ∈ boundNames tvars ∨
        KindVar arg free bound tvar) ∧
      body.Body arg free (boundNames tvars ++ bound)

def bodyTys (arg : String → Option Arg) (free : Tvar String → Prop) :
    List String → List (Ty String) → Prop
  | _, [] => True
  | bound, ty :: tys => ty.Body arg free bound ∧ bodyTys arg free bound tys

def bodyFields (arg : String → Option Arg) (free : Tvar String → Prop) :
    List String → List (String × Ty String) → Prop
  | _, [] => True
  | bound, (_, ty) :: fields =>
    ty.Body arg free bound ∧ bodyFields arg free bound fields

end

mutual

/-- The expansion of the type is right, and the variables that it leaves free
satisfy `free`. -/
def Ty.Expands : Ty String → (Tvar String → Prop) → Prop
  | .wild, _ => True
  | .id tvar, free => free tvar
  | .freeId _ kind, free => kind.Plain binds ∧ ∀ tvar ∈ kind.frees, free tvar
  | .record _ fields, free => expandsFields fields free
  | .construct args tyCon, free =>
    match use binds tyCon args.length with
    | .abbreviation bind =>
      bind.ty.Body binds
        (fun symbol => ((bind.tyvars.map Tvar.symbol).zip (argsOf args)).lookup symbol)
        free []
    | .misuse => plainTys binds args ∧ ∀ tvar ∈ freesTys args, free tvar
    | .other => expandsTys args free
  | .tuple tys, free => expandsTys tys free
  | .func dom ran, free => dom.Expands free ∧ ran.Expands free
  | .poly tvars body, free =>
    plainTvars binds tvars ∧
      (∀ tvar ∈ freesTvars tvars,
        tvar.symbol ∈ boundNames tvars ∨ free tvar) ∧
      body.Expands fun tvar => tvar.symbol ∈ boundNames tvars ∨ free tvar

def expandsTys : List (Ty String) → (Tvar String → Prop) → Prop
  | [], _ => True
  | ty :: tys, free => ty.Expands free ∧ expandsTys tys free

def expandsFields : List (String × Ty String) → (Tvar String → Prop) → Prop
  | [], _ => True
  | (_, ty) :: fields, free => ty.Expands free ∧ expandsFields fields free

def argsOf : List (Ty String) → List Arg
  | [] => []
  | ty :: tys => ⟨ty.Expands, ty.IsVar binds⟩ :: argsOf tys

end

mutual

/-- No type variable `'_a` outside kinds. -/
def Ty.NoFreeId : Ty String → Prop
  | .wild => True
  | .id _ => True
  | .freeId _ _ => False
  | .record _ fields => noFreeIdFields fields
  | .construct args _ => noFreeIdTys args
  | .tuple tys => noFreeIdTys tys
  | .func dom ran => dom.NoFreeId ∧ ran.NoFreeId
  | .poly _ body => body.NoFreeId

def noFreeIdTys : List (Ty String) → Prop
  | [] => True
  | ty :: tys => ty.NoFreeId ∧ noFreeIdTys tys

def noFreeIdFields : List (String × Ty String) → Prop
  | [] => True
  | (_, ty) :: fields => ty.NoFreeId ∧ noFreeIdFields fields

end

mutual

/-- The abbreviations that are applied have no type variable `'_a`. -/
def Ty.Completes : Ty String → Prop
  | .wild => True
  | .id _ => True
  | .freeId _ _ => True
  | .record _ fields => completesFields fields
  | .construct args tyCon =>
    (∀ bind, use binds tyCon args.length = .abbreviation bind →
      bind.ty.NoFreeId) ∧ completesTys args
  | .tuple tys => completesTys tys
  | .func dom ran => dom.Completes ∧ ran.Completes
  | .poly _ body => body.Completes

def completesTys : List (Ty String) → Prop
  | [] => True
  | ty :: tys => ty.Completes ∧ completesTys tys

def completesFields : List (String × Ty String) → Prop
  | [] => True
  | (_, ty) :: fields => ty.Completes ∧ completesFields fields

end

end Condition

/-! ### Names in scope -/

/-- The variable that a name stands for. -/
abbrev Names := Tvar String → Tvar (Nat ⊕ String)

def Names.bind (names : Names) (tvars : List (KindedTvar String)) (depth : Nat) :
    Names :=
  fun tvar => match (boundNames tvars).idxOf? tvar.symbol with
    | some i => ⟨.inl (depth + i), tvar.isEq⟩
    | none => names tvar

def Names.scope (names : Names) : Scope :=
  fun tvar _ => .id (names tvar)

theorem Names.scope_bind (names : Names) (tvars : List (KindedTvar String))
    (depth : Nat) :
    names.scope.bind tvars depth = (names.bind tvars depth).scope := by
  funext tvar depth'
  unfold Scope.bind Names.scope Names.bind
  cases (boundNames tvars).idxOf? tvar.symbol with
  | none => rfl
  | some i => rfl

/-- The names of all variables, below no binder. -/
def outermost : Names := fun tvar => ⟨.inr tvar.symbol, tvar.isEq⟩

/-- Two ways of naming variables, which agree on those that are `free`. -/
structure Related (names names' : Names) (free : Tvar String → Prop)
    (depth : Nat) : Prop where
  eq_iff : ∀ tvar tvar', names tvar = names' tvar' ↔ tvar = tvar' ∧ free tvar
  below : ∀ tvar i, (names tvar).symbol = .inl i → i < depth
  below' : ∀ tvar i, (names' tvar).symbol = .inl i → i < depth

theorem related_outermost : Related outermost outermost (fun _ => True) 0 := by
  refine ⟨fun tvar tvar' => ?_, fun tvar i h => ?_, fun tvar i h => ?_⟩
  · cases tvar
    cases tvar'
    simp [outermost]
  · cases h
  · cases h

variable {depth : Nat} {names' : Names} {free : Tvar String → Prop}

theorem Names.bind_below {names : Names}
    (h : ∀ tvar i, (names tvar).symbol = .inl i → i < depth)
    (tvars : List (KindedTvar String)) :
    ∀ tvar i, (names.bind tvars depth tvar).symbol = .inl i →
      i < depth + tvars.length := by
  intro tvar i hi
  unfold Names.bind at hi
  split at hi
  · next j hj =>
      obtain ⟨hlt, -⟩ := List.idxOf?_eq_some_iff.mp hj
      obtain rfl := Sum.inl.inj hi
      simp only [boundNames, List.length_map] at hlt
      omega
  · exact Nat.lt_add_right _ (h tvar i hi)

/-- Below a binder that both have passed. -/
theorem Related.bind {names names' : Names} {free : Tvar String → Prop}
    {depth : Nat} (h : Related names names' free depth)
    (tvars : List (KindedTvar String)) :
    Related (names.bind tvars depth) (names'.bind tvars depth)
      (fun tvar => tvar.symbol ∈ boundNames tvars ∨ free tvar)
      (depth + tvars.length) := by
  refine ⟨fun tvar tvar' => ?_, Names.bind_below h.below tvars,
    Names.bind_below h.below' tvars⟩
  unfold Names.bind
  cases hi : (boundNames tvars).idxOf? tvar.symbol with
  | none =>
    have hnot : tvar.symbol ∉ boundNames tvars := List.idxOf?_eq_none_iff.mp hi
    cases hj : (boundNames tvars).idxOf? tvar'.symbol with
    | none =>
      rw [h.eq_iff]
      simp [hnot]
    | some j =>
      constructor
      · intro heq
        have hlt := h.below tvar (depth + j) (congrArg Tvar.symbol heq)
        omega
      · rintro ⟨rfl, -⟩
        rw [hi] at hj
        cases hj
  | some i =>
    obtain ⟨hlt, hget, -⟩ := List.idxOf?_eq_some_iff.mp hi
    have hmem : tvar.symbol ∈ boundNames tvars := List.mem_of_getElem hget
    cases hj : (boundNames tvars).idxOf? tvar'.symbol with
    | none =>
      constructor
      · intro heq
        have hlt := h.below' tvar' (depth + i) (congrArg Tvar.symbol heq).symm
        omega
      · rintro ⟨rfl, -⟩
        rw [hi] at hj
        cases hj
    | some j =>
      obtain ⟨hlt', hget', -⟩ := List.idxOf?_eq_some_iff.mp hj
      constructor
      · intro heq
        simp only [Tvar.mk.injEq, Sum.inl.injEq] at heq
        obtain rfl : i = j := by omega
        refine ⟨?_, Or.inl hmem⟩
        cases tvar
        cases tvar'
        simp_all
      · rintro ⟨rfl, -⟩
        rw [hi] at hj
        cases hj
        rfl

/-- Below a binder of the body of an abbreviation, where its names must not
occur. -/
theorem Related.enter {names : Names} (h : Related names names' free depth)
    (tvars : List (KindedTvar String)) : Related (names.bind tvars depth) names'
      (fun tvar => tvar.symbol ∉ boundNames tvars ∧ free tvar)
      (depth + tvars.length) := by
  refine ⟨fun tvar tvar' => ?_, Names.bind_below h.below tvars,
    fun tvar i hi => Nat.lt_add_right _ (h.below' tvar i hi)⟩
  unfold Names.bind
  cases hi : (boundNames tvars).idxOf? tvar.symbol with
  | none =>
    have hnot : tvar.symbol ∉ boundNames tvars := List.idxOf?_eq_none_iff.mp hi
    rw [h.eq_iff]
    simp [hnot]
  | some i =>
    obtain ⟨_, hget, -⟩ := List.idxOf?_eq_some_iff.mp hi
    have hmem : tvar.symbol ∈ boundNames tvars := List.mem_of_getElem hget
    constructor
    · intro heq
      have hlt := h.below' tvar' (depth + i) (congrArg Tvar.symbol heq).symm
      omega
    · rintro ⟨-, hnot, -⟩
      exact absurd hmem hnot

theorem Related.congr {names : Names} {free' : Tvar String → Prop}
    (h : Related names names' free depth)
    (hfree : ∀ tvar, free' tvar ↔ free tvar) :
    Related names names' free' depth := by
  obtain rfl : free' = free := funext fun tvar => propext (hfree tvar)
  exact h

/-! ### Parameters and arguments -/

theorem lookup_zip_map {α β : Type} (params : List String) (args : List α)
    (f : α → β) (symbol : String) : (params.zip (args.map f)).lookup symbol =
      ((params.zip args).lookup symbol).map f := by
  induction params generalizing args with
  | nil => rfl
  | cons param params ih =>
    cases args with
    | nil => rfl
    | cons arg args =>
      simp only [List.map_cons, List.zip_cons_cons, List.lookup_cons]
      cases symbol == param with
      | true => rfl
      | false => exact ih args

theorem mem_of_lookup_zip {α : Type} {params : List String} {args : List α}
    {symbol : String} {arg : α}
    (hlookup : (params.zip args).lookup symbol = some arg) : arg ∈ args := by
  induction params generalizing args with
  | nil => cases hlookup
  | cons param params ih =>
    cases args with
    | nil => cases hlookup
    | cons head args =>
      simp only [List.zip_cons_cons, List.lookup_cons] at hlookup
      split at hlookup
      · cases hlookup
        exact List.mem_cons_self
      · exact List.mem_cons_of_mem _ (ih hlookup)

section Lists

variable {binds : List TypBind}

theorem expandInTys_eq (tys : List (Ty String)) :
    (expandInTys binds tys).1 = tys.map fun ty => (expandInTy binds ty).1 := by
  induction tys with
  | nil => rfl
  | cons ty tys ih => rw [expandInTys, List.map_cons, ← ih]

theorem readTys_eq (scope : Scope) (tys : List (Ty String)) :
    readTys binds scope tys = tys.map fun ty => ty.read binds scope := by
  induction tys with
  | nil => rfl
  | cons ty tys ih => rw [readTys, List.map_cons, ← ih]

theorem argsOf_eq (tys : List (Ty String)) : argsOf binds tys =
      tys.map fun ty => ⟨ty.Expands binds, ty.IsVar binds⟩ := by
  induction tys with
  | nil => rfl
  | cons ty tys ih => rw [argsOf, List.map_cons, ← ih]

theorem isVars_eq (tys : List (Ty String)) :
    isVars binds tys = tys.map fun ty => ty.IsVar binds := by
  induction tys with
  | nil => rfl
  | cons ty tys ih => rw [isVars, List.map_cons, ← ih]

theorem length_substTyVarInTys (substFun : Tvar String → Elab (Ty String))
    (tys : List (Ty String)) :
    (substTyVarInTys substFun tys).1.length = tys.length := by
  induction tys with
  | nil => rfl
  | cons ty tys ih => rw [substTyVarInTys, List.length_cons, List.length_cons, ih]

/-- The expansion of an application, by what the application is. -/
theorem expandInTy_construct (args : List (Ty String)) (tyCon : List String) :
    (expandInTy binds (.construct args tyCon)).1 =
      match use binds tyCon args.length with
      | .abbreviation bind =>
        (replaceTyVarInTyWithTy (bind.tyvars.map Tvar.symbol)
          (args.map fun arg => (expandInTy binds arg).1) bind.ty).1
      | .misuse => .construct args tyCon
      | .other => .construct (expandInTys binds args).1 tyCon := by
  rw [← expandInTys_eq]
  have hlength : (expandInTys binds args).1.length = args.length := by
    rw [expandInTys_eq, List.length_map]
  rcases tyCon with _ | ⟨name, _ | ⟨second, rest⟩⟩
  · rfl
  · simp only [expandInTy, use]
    cases findTypBind binds name with
    | none => rfl
    | some bind =>
      simp only [hlength]
      by_cases harity : bind.tyvars.length = args.length
      · simp only [if_pos harity]
      · simp only [if_neg harity]
  · rfl

end Lists

/-! ### Types that expand to a variable -/

section IsVar

variable {binds : List TypBind}

/-- A type that is read as a variable. -/
def Ty.IsVarSpec (binds : List TypBind) (ty : Ty String) : Prop :=
  ∀ names names' free depth tvar, Related names names' free depth →
    (ty.read binds names'.scope depth = .id (names tvar) ↔
      ty.IsVar binds tvar ∧ free tvar)

theorem names_eq_id_iff {names : Names} (h : Related names names' free depth)
    (tvar tvar' : Tvar String) :
    (Ty.id (names' tvar') : Nameless) = .id (names tvar) ↔
      tvar' = tvar ∧ free tvar := by
  rw [Ty.id.injEq, eq_comm, h.eq_iff, @eq_comm _ tvar]

mutual

theorem Ty.isVar_spec (ty : Ty String) : ty.IsVarSpec binds := by
  intro names names' free depth tvar h
  cases ty with
  | id tvar' =>
    rw [Ty.read, Ty.IsVar]
    exact names_eq_id_iff h tvar tvar'
  | construct args tyCon =>
    rw [Ty.read, Ty.IsVar]
    cases use binds tyCon args.length with
    | other => simp
    | misuse => simp
    | abbreviation bind =>
      simp only
      cases bind.ty with
      | id param =>
        simp only [Ty.denote, Scope.apply, readTys_eq, isVars_eq,
          lookup_zip_map]
        cases hlookup : ((bind.tyvars.map Tvar.symbol).zip args).lookup
            param.symbol with
        | none => exact names_eq_id_iff h tvar param
        | some arg =>
          exact isVars_spec args arg (mem_of_lookup_zip hlookup) names
            names' free depth tvar h
      | _ => simp [Ty.denote]
  | _ => simp [Ty.read, Ty.IsVar]

theorem isVars_spec (tys : List (Ty String)) :
    ∀ ty ∈ tys, ty.IsVarSpec binds := by
  cases tys with
  | nil => simp
  | cons ty tys =>
    exact List.forall_mem_cons.mpr ⟨Ty.isVar_spec ty, isVars_spec tys⟩

end

end IsVar

/-! ### Bodies of abbreviations -/

section Body

variable {binds : List TypBind}

/-- When the expansion of a type denotes what the type is read as, with no
abbreviation left. -/
def Ty.ExpandsSpec (binds : List TypBind) (ty : Ty String) : Prop :=
  ∀ names names' free depth, Related names names' free depth →
    ((expandInTy binds ty).1.denote names.scope depth =
          ty.read binds names'.scope depth ∧
        (expandInTy binds ty).1.Plain binds ↔ ty.Expands binds free)

/-- A place in the body of an abbreviation, below the binders of `bound`: what
the substitution puts there and what the variables stand for. -/
structure Place (binds : List TypBind) (substFun : Tvar String → Elab (Ty String))
    (scope : Scope) (arg : String → Option Arg) (free : Tvar String → Prop)
    (names names' : Names) (bound : List String) (depth : Nat) : Prop where
  related : Related names names' (fun tvar => tvar.symbol ∉ bound ∧ free tvar) depth
  ofBound : ∀ tvar, tvar.symbol ∈ bound →
    (substFun tvar).1 = .id tvar ∧ ∀ depth', scope tvar depth' = .id (names tvar)
  ofNone : ∀ tvar, tvar.symbol ∉ bound → arg tvar.symbol = none →
    (substFun tvar).1 = .id tvar ∧ ∀ depth', scope tvar depth' = .id (names' tvar)
  ofSome : ∀ tvar p, tvar.symbol ∉ bound → arg tvar.symbol = some p →
    ∃ ty : Ty String, (substFun tvar).1 = (expandInTy binds ty).1 ∧
      (∀ depth', scope tvar depth' = ty.read binds names'.scope depth') ∧
      p = ⟨ty.Expands binds, ty.IsVar binds⟩ ∧ ty.ExpandsSpec binds

variable {substFun : Tvar String → Elab (Ty String)} {scope : Scope}
  {arg : String → Option Arg} {free : Tvar String → Prop} {names names' : Names}
  {bound : List String} {depth : Nat}

theorem Related.deeper (h : Related names names' free depth) {depth' : Nat}
    (hle : depth ≤ depth') : Related names names' free depth' :=
  ⟨h.eq_iff, fun tvar i hi => Nat.lt_of_lt_of_le (h.below tvar i hi) hle,
    fun tvar i hi => Nat.lt_of_lt_of_le (h.below' tvar i hi) hle⟩

/-- The place below one more binder. -/
theorem Place.enter (h : Place binds substFun scope arg free names names' bound depth)
    (tvars : List (KindedTvar String)) : Place binds
      (fun tvar => if tvar.symbol ∈ boundNames tvars then (.id tvar, [])
        else substFun tvar)
      (scope.bind tvars depth) arg free (names.bind tvars depth) names'
      (boundNames tvars ++ bound) (depth + tvars.length) := by
  have hin : ∀ {tvar : Tvar String}, tvar.symbol ∈ boundNames tvars →
      ∃ i, (boundNames tvars).idxOf? tvar.symbol = some i := by
    intro tvar hmem
    cases hi : (boundNames tvars).idxOf? tvar.symbol with
    | none => exact absurd hmem (List.idxOf?_eq_none_iff.mp hi)
    | some i => exact ⟨i, rfl⟩
  have hout : ∀ {tvar : Tvar String}, tvar.symbol ∉ boundNames tvars →
      (boundNames tvars).idxOf? tvar.symbol = none :=
    fun hnot => List.idxOf?_eq_none_iff.mpr hnot
  constructor
  · apply (h.related.enter tvars).congr
    intro tvar
    rw [List.mem_append, not_or, and_assoc]
  · intro tvar hmem
    by_cases htvars : tvar.symbol ∈ boundNames tvars
    · obtain ⟨i, hi⟩ := hin htvars
      simp [Scope.bind, Names.bind, htvars, hi]
    · have hbound := (List.mem_append.mp hmem).resolve_left htvars
      simp [Scope.bind, Names.bind, htvars, hout htvars, h.ofBound tvar hbound]
  · intro tvar hnot harg
    rw [List.mem_append, not_or] at hnot
    simp [Scope.bind, hnot.1, hout hnot.1, h.ofNone tvar hnot.2 harg]
  · intro tvar p hnot harg
    rw [List.mem_append, not_or] at hnot
    obtain ⟨ty, hsubst, hscope, hp, hspec⟩ := h.ofSome tvar p hnot.2 harg
    refine ⟨ty, ?_, ?_, hp, hspec⟩
    · simpa [hnot.1] using hsubst
    · simpa [Scope.bind, hout hnot.1] using hscope

/-- A variable in a kind of the body, which the substitution leaves alone. -/
theorem Place.kindVar (h : Place binds substFun scope arg free names names' bound depth)
    (tvar : Tvar String) (depth' : Nat) (hle : depth ≤ depth') :
    names.scope tvar depth' = scope tvar depth' ↔ KindVar arg free bound tvar := by
  unfold KindVar
  by_cases hbound : tvar.symbol ∈ bound
  · simp [hbound, Names.scope, (h.ofBound tvar hbound).2]
  · rw [or_iff_right hbound]
    cases harg : arg tvar.symbol with
    | none =>
      rw [(h.ofNone tvar hbound harg).2, Names.scope, Ty.id.injEq,
        h.related.eq_iff]
      simp [hbound]
    | some p =>
      obtain ⟨ty, -, hscope, rfl, -⟩ := h.ofSome tvar p hbound harg
      rw [hscope, Names.scope, eq_comm,
        Ty.isVar_spec ty names names' _ depth' tvar (h.related.deeper hle)]
      simp [hbound]

theorem Place.id (h : Place binds substFun scope arg free names names' bound depth)
    (tvar : Tvar String) :
    ((substFun tvar).1.denote names.scope depth = scope tvar depth ∧
        (substFun tvar).1.Plain binds) ↔
      (Ty.id tvar).Body binds arg free bound := by
  rw [Ty.Body]
  by_cases hbound : tvar.symbol ∈ bound
  · obtain ⟨hsubst, hscope⟩ := h.ofBound tvar hbound
    simp [hsubst, hscope, Ty.denote, Ty.Plain, Names.scope, hbound]
  · rw [or_iff_right hbound]
    cases harg : arg tvar.symbol with
    | none =>
      obtain ⟨hsubst, hscope⟩ := h.ofNone tvar hbound harg
      rw [hsubst, hscope, Ty.denote, Names.scope, Ty.id.injEq, h.related.eq_iff]
      simp [Ty.Plain, hbound]
    | some p =>
      obtain ⟨ty, hsubst, hscope, rfl, hspec⟩ := h.ofSome tvar p hbound harg
      rw [hsubst, hscope]
      exact hspec names names' _ depth h.related

mutual

theorem Ty.body_iff (ty : Ty String)
    (substFun : Tvar String → Elab (Ty String)) (scope : Scope) (names : Names)
    (bound : List String) (depth : Nat)
    (h : Place binds substFun scope arg free names names' bound depth) :
    ((substTyVarInTy substFun ty).1.denote names.scope depth =
          ty.denote scope depth ∧ (substTyVarInTy substFun ty).1.Plain binds) ↔
      ty.Body binds arg free bound := by
  cases ty with
  | wild => simp [substTyVarInTy, Ty.denote, Ty.Plain, Ty.Body]
  | id tvar => exact h.id tvar
  | freeId tvar kind =>
    have hkind := TvarKind.denote_eq_iff h.kindVar kind
    simp only [substTyVarInTy, Ty.denote, Ty.Plain, Ty.Body, Ty.freeId.injEq,
      true_and, hkind]
    exact and_comm
  | record ifFlex fields =>
    simpa [substTyVarInTy, Ty.denote, Ty.Plain, Ty.Body] using
      bodyFields_iff fields substFun scope names bound depth h
  | construct args tyCon =>
    have hargs := bodyTys_iff args substFun scope names bound depth h
    have hlength : (substTyVarInTys substFun args).1.length = args.length :=
      length_substTyVarInTys substFun args
    simp only [substTyVarInTy, Ty.denote, Ty.Plain, Ty.Body, Ty.construct.injEq,
      and_true, hlength]
    rw [and_left_comm, hargs]
  | tuple tys =>
    simpa [substTyVarInTy, Ty.denote, Ty.Plain, Ty.Body] using
      bodyTys_iff tys substFun scope names bound depth h
  | func dom ran =>
    have hdom := Ty.body_iff dom substFun scope names bound depth h
    have hran := Ty.body_iff ran substFun scope names bound depth h
    simp only [substTyVarInTy, Ty.denote, Ty.Plain, Ty.Body, Ty.func.injEq]
    rw [and_and_and_comm, hdom, hran]
  | poly tvars body =>
    have henter := h.enter tvars
    have hbody := Ty.body_iff body _ _ _ _ _ henter
    have htvars := denoteTvars_eq_iff henter.kindVar tvars
    have hvar : ∀ tvar : Tvar String,
        KindVar arg free (boundNames tvars ++ bound) tvar ↔
          tvar.symbol ∈ boundNames tvars ∨ KindVar arg free bound tvar := by
      intro tvar
      unfold KindVar
      rw [List.mem_append, or_assoc]
    simp only [hvar] at htvars
    simp only [substTyVarInTy, Ty.denote, Ty.Plain, Ty.Body, Ty.poly.injEq,
      Names.scope_bind]
    rw [← hbody, htvars]
    tauto

theorem bodyTys_iff (tys : List (Ty String))
    (substFun : Tvar String → Elab (Ty String)) (scope : Scope) (names : Names)
    (bound : List String) (depth : Nat)
    (h : Place binds substFun scope arg free names names' bound depth) :
    (denoteTys names.scope depth (substTyVarInTys substFun tys).1 =
          denoteTys scope depth tys ∧
        plainTys binds (substTyVarInTys substFun tys).1) ↔
      bodyTys binds arg free bound tys := by
  cases tys with
  | nil => simp [substTyVarInTys, denoteTys, plainTys, bodyTys]
  | cons ty tys =>
    have hty := Ty.body_iff ty substFun scope names bound depth h
    have htys := bodyTys_iff tys substFun scope names bound depth h
    simp only [substTyVarInTys, denoteTys, plainTys, bodyTys, List.cons.injEq]
    rw [and_and_and_comm, hty, htys]

theorem bodyFields_iff (fields : List (String × Ty String))
    (substFun : Tvar String → Elab (Ty String)) (scope : Scope) (names : Names)
    (bound : List String) (depth : Nat)
    (h : Place binds substFun scope arg free names names' bound depth) :
    (denoteFields names.scope depth (substTyVarInFields substFun fields).1 =
          denoteFields scope depth fields ∧
        plainFields binds (substTyVarInFields substFun fields).1) ↔
      bodyFields binds arg free bound fields := by
  cases fields with
  | nil => simp [substTyVarInFields, denoteFields, plainFields, bodyFields]
  | cons field fields =>
    obtain ⟨label, ty⟩ := field
    have hty := Ty.body_iff ty substFun scope names bound depth h
    have hfields := bodyFields_iff fields substFun scope names bound depth h
    simp only [substTyVarInFields, denoteFields, plainFields, bodyFields,
      List.cons.injEq, Prod.mk.injEq, true_and]
    rw [and_and_and_comm, hty, hfields]

end

end Body

/-! ### The expansion -/

section Expansion

variable {binds : List TypBind}

/-- The body of an abbreviation with its arguments. -/
theorem place_abbreviation {names : Names} (h : Related names names' free depth)
    (params : List String)
    {args : List (Ty String)} (hargs : ∀ ty ∈ args, ty.ExpandsSpec binds) :
    Place binds
      (substParam params (args.map fun arg => (expandInTy binds arg).1))
      (names'.scope.apply params (readTys binds names'.scope args))
      (fun symbol => (params.zip (argsOf binds args)).lookup symbol)
      free names names' [] depth := by
  constructor
  · apply h.congr
    simp
  · simp
  · intro tvar _ hnone
    rw [argsOf_eq, lookup_zip_map, Option.map_eq_none_iff] at hnone
    simp [substParam, Scope.apply, readTys_eq, lookup_zip_map, hnone, Names.scope]
  · intro tvar p _ hsome
    rw [argsOf_eq, lookup_zip_map, Option.map_eq_some_iff] at hsome
    obtain ⟨ty, hlookup, rfl⟩ := hsome
    refine ⟨ty, ?_, ?_, rfl, hargs ty (mem_of_lookup_zip hlookup)⟩
    · simp [substParam, lookup_zip_map, hlookup]
    · simp [Scope.apply, readTys_eq, lookup_zip_map, hlookup]

mutual

theorem Ty.expands_iff (ty : Ty String) : ty.ExpandsSpec binds := by
  intro names names' free depth h
  have hvar : ∀ (tvar : Tvar String) (depth' : Nat), depth ≤ depth' →
      (names.scope tvar depth' = names'.scope tvar depth' ↔ free tvar) := by
    intro tvar depth' _
    rw [Names.scope, Names.scope, Ty.id.injEq, h.eq_iff]
    exact and_iff_right rfl
  cases ty with
  | wild => simp [expandInTy, Ty.denote, Ty.read, Ty.Plain, Ty.Expands]
  | id tvar =>
    simpa [expandInTy, Ty.denote, Ty.read, Ty.Plain, Ty.Expands] using
      hvar tvar depth (Nat.le_refl depth)
  | freeId tvar kind =>
    simp only [expandInTy, Ty.denote, Ty.read, Ty.Plain, Ty.Expands,
      Ty.freeId.injEq, true_and]
    rw [and_comm]
    apply and_congr_right
    intro hplain
    rw [TvarKind.read_of_plain _ kind hplain]
    exact TvarKind.denote_eq_iff hvar kind
  | record ifFlex fields =>
    simpa [expandInTy, Ty.denote, Ty.read, Ty.Plain, Ty.Expands] using
      expandsFields_iff fields names names' free depth h
  | construct args tyCon =>
    rw [expandInTy_construct, Ty.read, Ty.Expands]
    cases huse : use binds tyCon args.length with
    | other =>
      have hargs := expandsTys_iff args names names' free depth h
      have hlength : (expandInTys binds args).1.length = args.length := by
        rw [expandInTys_eq, List.length_map]
      simp only [Ty.denote, Ty.Plain, Ty.construct.injEq, and_true, hlength, huse]
      simpa using hargs
    | misuse =>
      simp only [Ty.denote, Ty.Plain, Ty.construct.injEq, and_true, huse]
      rw [and_left_comm, and_comm (a := _ = _)]
      simp only [ne_eq, reduceCtorEq, not_false_eq_true, implies_true, true_and]
      apply and_congr_right
      intro hplain
      rw [readTys_of_plain _ args hplain]
      exact denoteTys_eq_iff hvar args
    | abbreviation bind =>
      exact bind.ty.body_iff _ _ _ _ _
        (place_abbreviation h _ (forall_expands_iff args))
  | tuple tys =>
    simpa [expandInTy, Ty.denote, Ty.read, Ty.Plain, Ty.Expands] using
      expandsTys_iff tys names names' free depth h
  | func dom ran =>
    have hdom := Ty.expands_iff dom names names' free depth h
    have hran := Ty.expands_iff ran names names' free depth h
    simp only [expandInTy, Ty.denote, Ty.read, Ty.Plain, Ty.Expands, Ty.func.injEq]
    rw [and_and_and_comm, hdom, hran]
  | poly tvars body =>
    have hbind := h.bind tvars
    have hbody := Ty.expands_iff body _ _ _ _ hbind
    have htvars : ∀ (tvar : Tvar String) (depth' : Nat),
        depth + tvars.length ≤ depth' →
        ((names.bind tvars depth).scope tvar depth' =
            (names'.bind tvars depth).scope tvar depth' ↔
          tvar.symbol ∈ boundNames tvars ∨ free tvar) := by
      intro tvar depth' _
      rw [Names.scope, Names.scope, Ty.id.injEq, hbind.eq_iff]
      exact and_iff_right rfl
    simp only [expandInTy, Ty.denote, Ty.read, Ty.Plain, Ty.Expands, Ty.poly.injEq,
      Names.scope_bind]
    rw [and_and_and_comm, hbody, ← and_assoc]
    apply and_congr_left
    intro _
    rw [and_comm]
    apply and_congr_right
    intro hplain
    rw [readTvars_of_plain _ tvars hplain]
    exact denoteTvars_eq_iff htvars tvars

theorem forall_expands_iff (tys : List (Ty String)) :
    ∀ ty ∈ tys, ty.ExpandsSpec binds := by
  cases tys with
  | nil => simp
  | cons ty tys =>
    exact List.forall_mem_cons.mpr ⟨Ty.expands_iff ty, forall_expands_iff tys⟩

theorem expandsTys_iff (tys : List (Ty String)) (names names' : Names)
    (free : Tvar String → Prop) (depth : Nat)
    (h : Related names names' free depth) :
    (denoteTys names.scope depth (expandInTys binds tys).1 =
          (readTys binds names'.scope tys).map (fun ty => ty depth) ∧
        plainTys binds (expandInTys binds tys).1) ↔
      expandsTys binds tys free := by
  cases tys with
  | nil => simp [expandInTys, denoteTys, readTys, plainTys, expandsTys]
  | cons ty tys =>
    have hty := Ty.expands_iff ty names names' free depth h
    have htys := expandsTys_iff tys names names' free depth h
    simp only [expandInTys, denoteTys, readTys, plainTys, expandsTys,
      List.map_cons, List.cons.injEq]
    rw [and_and_and_comm, hty, htys]

theorem expandsFields_iff (fields : List (String × Ty String))
    (names names' : Names) (free : Tvar String → Prop) (depth : Nat)
    (h : Related names names' free depth) :
    (denoteFields names.scope depth (expandInFields binds fields).1 =
          readFields binds names'.scope fields depth ∧
        plainFields binds (expandInFields binds fields).1) ↔
      expandsFields binds fields free := by
  cases fields with
  | nil => simp [expandInFields, denoteFields, readFields, plainFields, expandsFields]
  | cons field fields =>
    obtain ⟨label, ty⟩ := field
    have hty := Ty.expands_iff ty names names' free depth h
    have hfields := expandsFields_iff fields names names' free depth h
    simp only [expandInFields, denoteFields, readFields, plainFields,
      expandsFields, List.cons.injEq, Prod.mk.injEq, true_and]
    rw [and_and_and_comm, hty, hfields]

end

end Expansion

/-! ### Runs that are not stopped -/

/-- No error stops the compiler. -/
def Finishes (errors : List ElabError) : Prop :=
  ∀ message, .bug message ∉ errors

theorem finishes_nil : Finishes [] := fun _ => List.not_mem_nil

theorem finishes_append {errors errors' : List ElabError} :
    Finishes (errors ++ errors') ↔ Finishes errors ∧ Finishes errors' := by
  simp [Finishes, forall_and]

theorem finishes_substParam (params : List String) (args : List (Ty String))
    (tvar : Tvar String) : Finishes (substParam params args tvar).2 := by
  intro message
  unfold substParam
  cases (params.zip args).lookup tvar.symbol with
  | none => simp
  | some destTy => simp

mutual

theorem Ty.finishes_subst (substFun : Tvar String → Elab (Ty String))
    (h : ∀ tvar, Finishes (substFun tvar).2) (ty : Ty String) :
    Finishes (substTyVarInTy substFun ty).2 ↔ ty.NoFreeId := by
  cases ty with
  | wild => simp [substTyVarInTy, Ty.NoFreeId, finishes_nil]
  | id tvar => simp [substTyVarInTy, Ty.NoFreeId, h tvar]
  | freeId tvar kind => simp [substTyVarInTy, Ty.NoFreeId, Finishes]
  | record ifFlex fields =>
    simpa [substTyVarInTy, Ty.NoFreeId] using finishes_substFields substFun h fields
  | construct args tyCon =>
    simpa [substTyVarInTy, Ty.NoFreeId] using finishes_substTys substFun h args
  | tuple tys =>
    simpa [substTyVarInTy, Ty.NoFreeId] using finishes_substTys substFun h tys
  | func dom ran =>
    simp only [substTyVarInTy, Ty.NoFreeId, finishes_append,
      Ty.finishes_subst substFun h dom, Ty.finishes_subst substFun h ran]
  | poly tvars body =>
    have h' : ∀ tvar : Tvar String, Finishes
        (if tvar.symbol ∈ boundNames tvars then ((.id tvar, []) : Elab (Ty String))
          else substFun tvar).2 := by
      intro tvar
      split
      · exact finishes_nil
      · exact h tvar
    simpa [substTyVarInTy, Ty.NoFreeId] using Ty.finishes_subst _ h' body

theorem finishes_substTys (substFun : Tvar String → Elab (Ty String))
    (h : ∀ tvar, Finishes (substFun tvar).2) (tys : List (Ty String)) :
    Finishes (substTyVarInTys substFun tys).2 ↔ noFreeIdTys tys := by
  cases tys with
  | nil => simp [substTyVarInTys, noFreeIdTys, finishes_nil]
  | cons ty tys =>
    simp only [substTyVarInTys, noFreeIdTys, finishes_append,
      Ty.finishes_subst substFun h ty, finishes_substTys substFun h tys]

theorem finishes_substFields (substFun : Tvar String → Elab (Ty String))
    (h : ∀ tvar, Finishes (substFun tvar).2) (fields : List (String × Ty String)) :
    Finishes (substTyVarInFields substFun fields).2 ↔ noFreeIdFields fields := by
  cases fields with
  | nil => simp [substTyVarInFields, noFreeIdFields, finishes_nil]
  | cons field fields =>
    obtain ⟨label, ty⟩ := field
    simp only [substTyVarInFields, noFreeIdFields, finishes_append,
      Ty.finishes_subst substFun h ty, finishes_substFields substFun h fields]

end

section Finishes

variable {binds : List TypBind}

/-- What stops the expansion of an application. -/
theorem finishes_expand_construct (args : List (Ty String)) (tyCon : List String) :
    Finishes (expandInTy binds (.construct args tyCon)).2 ↔
      (∀ bind, use binds tyCon args.length = .abbreviation bind →
        bind.ty.NoFreeId) ∧ Finishes (expandInTys binds args).2 := by
  have hlength : (expandInTys binds args).1.length = args.length := by
    rw [expandInTys_eq, List.length_map]
  rcases tyCon with _ | ⟨name, _ | ⟨second, rest⟩⟩
  · simp [expandInTy, use, finishes_append]
  · simp only [expandInTy, use]
    cases findTypBind binds name with
    | none => simp
    | some bind =>
      simp only [hlength]
      by_cases harity : bind.tyvars.length = args.length
      · simp only [if_pos harity, finishes_append, replaceTyVarInTyWithTy,
          Ty.finishes_subst _ (finishes_substParam _ _) bind.ty]
        simp [and_comm]
      · simp [if_neg harity, Finishes]
  · simp [expandInTy, use, finishes_append]

mutual

theorem Ty.finishes_expand (ty : Ty String) :
    Finishes (expandInTy binds ty).2 ↔ ty.Completes binds := by
  cases ty with
  | wild => simp [expandInTy, Ty.Completes, finishes_nil]
  | id tvar => simp [expandInTy, Ty.Completes, finishes_nil]
  | freeId tvar kind => simp [expandInTy, Ty.Completes, finishes_nil]
  | record ifFlex fields =>
    simpa [expandInTy, Ty.Completes] using finishes_expandFields fields
  | construct args tyCon =>
    rw [finishes_expand_construct, Ty.Completes, finishes_expandTys args]
  | tuple tys => simpa [expandInTy, Ty.Completes] using finishes_expandTys tys
  | func dom ran =>
    simp only [expandInTy, Ty.Completes, finishes_append, Ty.finishes_expand dom,
      Ty.finishes_expand ran]
  | poly tvars body => simpa [expandInTy, Ty.Completes] using Ty.finishes_expand body

theorem finishes_expandTys (tys : List (Ty String)) :
    Finishes (expandInTys binds tys).2 ↔ completesTys binds tys := by
  cases tys with
  | nil => simp [expandInTys, completesTys, finishes_nil]
  | cons ty tys =>
    simp only [expandInTys, completesTys, finishes_append, Ty.finishes_expand ty,
      finishes_expandTys tys]

theorem finishes_expandFields (fields : List (String × Ty String)) :
    Finishes (expandInFields binds fields).2 ↔ completesFields binds fields := by
  cases fields with
  | nil => simp [expandInFields, completesFields, finishes_nil]
  | cons field fields =>
    obtain ⟨label, ty⟩ := field
    simp only [expandInFields, completesFields, finishes_append,
      Ty.finishes_expand ty, finishes_expandFields fields]

end

end Finishes

/-! ### Datatype bindings -/

/-- The type of a constructor argument after the expansion: it denotes the type
that was written, no abbreviation is left, and a type that applies none of them
is the type that was written. -/
structure TyExpandsTo (binds : List TypBind) (ty ty' : Ty String) : Prop where
  denote : ty'.denote outermost.scope 0 = ty.read binds outermost.scope 0
  plain : ty'.Plain binds
  unchanged : ¬ ty.Mentions (binds.map TypBind.symbol) → ty' = ty

structure ConExpandsTo (binds : List TypBind) (con con' : ConBind) : Prop where
  symbol : con'.symbol = con.symbol
  ty : Option.Rel (TyExpandsTo binds) con.ty con'.ty

/-- A datatype binding in which the arguments of the constructors are expanded,
by a run that is not stopped. -/
structure ExpandsTo (binds : List TypBind) (bind : DatBind) (result : Elab DatBind) :
    Prop where
  finishes : Finishes result.2
  symbol : result.1.symbol = bind.symbol
  tyvars : result.1.tyvars = bind.tyvars
  conbind : List.Forall₂ (ConExpandsTo binds) bind.conbind result.1.conbind

section DatBind

variable {binds : List TypBind}

theorem tyExpandsTo_iff (ty : Ty String) :
    TyExpandsTo binds ty (expandInTy binds ty).1 ↔
      ty.Expands binds fun _ => True := by
  rw [← ty.expands_iff _ _ _ _ related_outermost]
  constructor
  · intro h
    exact ⟨h.denote, h.plain⟩
  · intro ⟨hdenote, hplain⟩
    exact ⟨hdenote, hplain, ty.expandInTy_fixed⟩

theorem conExpandsTo_iff (con : ConBind) :
    ConExpandsTo binds con (expandInDataCon binds con).1 ↔
      ∀ ty, con.ty = some ty → ty.Expands binds fun _ => True := by
  obtain ⟨symbol, ty⟩ := con
  cases ty with
  | none =>
    constructor
    · intro _ ty hty
      cases hty
    · intro _
      exact ⟨rfl, .none⟩
  | some ty =>
    simp only [expandInDataCon, Option.some.injEq, forall_eq']
    rw [← tyExpandsTo_iff]
    constructor
    · intro h
      cases h.ty with
      | some hty => exact hty
    · intro hty
      exact ⟨rfl, .some hty⟩

theorem finishes_expandInDataCon (con : ConBind) :
    Finishes (expandInDataCon binds con).2 ↔
      ∀ ty, con.ty = some ty → ty.Completes binds := by
  obtain ⟨symbol, ty⟩ := con
  cases ty with
  | none => simp [expandInDataCon, finishes_nil]
  | some ty => simp [expandInDataCon, Ty.finishes_expand]

theorem finishes_flatMap {α : Type} {items : List α} {errors : α → List ElabError} :
    Finishes (items.flatMap errors) ↔ ∀ item ∈ items, Finishes (errors item) := by
  induction items with
  | nil => simp [finishes_nil]
  | cons item items ih =>
    rw [List.flatMap_cons, finishes_append, ih, List.forall_mem_cons]

/-- The expansion of the abbreviations of `withtype` in a datatype binding is
right exactly where no argument of an abbreviation is captured in its body, the
kinds of polytypes need no expansion, no body applies an abbreviation, no
abbreviation that is given too few or too many arguments has others below it,
and no abbreviation that is applied has a type variable `'_a`. -/
theorem expandWithTypesInDataBind_iff (binds : List TypBind) (bind : DatBind) :
    ExpandsTo binds bind (expandWithTypesInDataBind binds bind) ↔
      ∀ con ∈ bind.conbind, ∀ ty, con.ty = some ty →
        ty.Completes binds ∧ ty.Expands binds fun _ => True := by
  have hfinishes : Finishes (expandWithTypesInDataBind binds bind).2 ↔
      ∀ con ∈ bind.conbind, ∀ ty, con.ty = some ty → ty.Completes binds := by
    unfold expandWithTypesInDataBind
    rw [finishes_flatMap, List.forall_mem_map]
    exact forall₂_congr fun con _ => finishes_expandInDataCon con
  have hconbind : List.Forall₂ (ConExpandsTo binds) bind.conbind
      (expandWithTypesInDataBind binds bind).1.conbind ↔
      ∀ con ∈ bind.conbind, ∀ ty, con.ty = some ty →
        ty.Expands binds fun _ => True := by
    have hmap : (expandWithTypesInDataBind binds bind).1.conbind =
        bind.conbind.map fun con => (expandInDataCon binds con).1 := by
      simp [expandWithTypesInDataBind]
    rw [hmap, List.forall₂_map_right_iff, List.forall₂_same]
    exact forall₂_congr fun con _ => conExpandsTo_iff con
  constructor
  · intro h con hcon ty hty
    exact ⟨hfinishes.mp h.finishes con hcon ty hty,
      hconbind.mp h.conbind con hcon ty hty⟩
  · intro h
    refine ⟨hfinishes.mpr ?_, rfl, rfl, hconbind.mpr ?_⟩
    · intro con hcon ty hty
      exact (h con hcon ty hty).1
    · intro con hcon ty hty
      exact (h con hcon ty hty).2

/-- The expansion is stopped at the variable `'_b` of the abbreviation:
`datatype d = D of int w withtype 'a w = 'a * '_b`. -/
theorem expandWithTypesInDataBind_stops :
    ¬ ∀ binds bind, ExpandsTo binds bind (expandWithTypesInDataBind binds bind) := by
  intro h
  have hexpands := h
    [⟨[⟨"a", false⟩], "w", .tuple [.id ⟨"a", false⟩, .freeId ⟨"b", false⟩ (.univ [])]⟩]
    ⟨[], "d", [⟨"D", some (.construct [.construct [] ["int"]] ["w"])⟩]⟩
  have hfinishes := hexpands.finishes
  revert hfinishes
  simp [Finishes, expandWithTypesInDataBind, expandInDataCon, expandInTy, expandInTys,
    findTypBind, replaceTyVarInTyWithTy, substTyVarInTy, substTyVarInTys, substParam]

end DatBind

end WithType

end SmlSharp
