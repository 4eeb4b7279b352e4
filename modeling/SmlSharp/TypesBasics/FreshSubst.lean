/-
Substitution for bound type variables, and fresh type variables for them.
-/
import SmlSharp.Lib.Fuel
import SmlSharp.TypesBasics.Syntax

namespace SmlSharp

namespace TypesBasics

/-- The type that a cell is linked to. -/
def Store.link (store : Store) (r : Nat) : Option Ty :=
  match store.get r with
  | .substituted ty => some ty
  | .tvar _ => none

section Subst

variable (link : Nat → Option Ty)

def derefTy : Nat → Ty → Except Exn Ty
  | 0, _ => .error .outOfFuel
  | n + 1, ty =>
    match ty with
    | .tyvarTy r =>
      match link r with
      | some ty => derefTy n ty
      | none => .ok ty
    | _ => .ok ty

variable (subst : List (Nat × Ty))

mutual

def substBTvar : Nat → Ty → Except Exn Ty
  | 0, _ => .error .outOfFuel
  | n + 1, ty => do
      match ← derefTy link (n + 1) ty with
      | .singletonTy sty => do
          let sty ← substBTvarSingletonTy n sty
          return .singletonTy sty
      | .backendTy => .error (.bug "substBTvar: BACKENDty")
      | .errorTy => return ty
      | .dummyTy id kind => do
          let kind ← substBTvarKind n kind
          return .dummyTy id kind
      | .existTy id kind => do
          let kind ← substBTvarKind n kind
          return .existTy id kind
      -- the kind of an unsolved variable is left alone
      | .tyvarTy _ => return ty
      | .boundvarTy id =>
        match subst.lookup id with
        | some ty' => return ty'
        | none => return ty
      | .funmTy tyList ty => do
          let tyList ← tyList.mapM (substBTvar n)
          let ty ← substBTvar n ty
          return .funmTy tyList ty
      | .recordTy fields => do
          let fields ← fields.mapM fun field => do
            let ty ← substBTvar n field.2
            return (field.1, ty)
          return .recordTy fields
      | .constructTy tyCon args => do
          let tyCon ← substBTvarTyCon n tyCon
          let args ← args.mapM (substBTvar n)
          return .constructTy tyCon args
      | .polyTy boundtvars constraints body => do
          let boundtvars ← boundtvars.mapM fun boundtvar => do
            let kind ← substBTvarKind n boundtvar.2
            return (boundtvar.1, kind)
          let constraints ← constraints.mapM (substBTvarConstraint n)
          let body ← substBTvar n body
          return .polyTy boundtvars constraints body

def substBTvarSingletonTy : Nat → SingletonTy → Except Exn SingletonTy
  | 0, _ => .error .outOfFuel
  | n + 1, singletonTy =>
    match singletonTy with
    | .instcodeTy selector => do
        let selector ← substBTvarSelector n selector
        return .instcodeTy selector
    | .indexTy label ty => do
        let ty ← substBTvar n ty
        return .indexTy label ty
    | .tagTy ty => do
        let ty ← substBTvar n ty
        return .tagTy ty
    | .sizeTy ty => do
        let ty ← substBTvar n ty
        return .sizeTy ty
    | .reifyTy ty => do
        let ty ← substBTvar n ty
        return .reifyTy ty

def substBTvarTyCon : Nat → TyCon → Except Exn TyCon
  | 0, _ => .error .outOfFuel
  | n + 1, .tyCon id longsymbol admitsEq arity extraArgs dtyKind => do
      let extraArgs ← extraArgs.mapM (substBTvar n)
      let dtyKind ← substBTvarDtyKind n dtyKind
      return .tyCon id longsymbol admitsEq arity extraArgs dtyKind

def substBTvarDtyKind : Nat → DtyKind → Except Exn DtyKind
  | 0, _ => .error .outOfFuel
  | n + 1, dtyKind =>
    match dtyKind with
    | .dty _ => return dtyKind
    | .opaqueDty opaqueRep revealKey => do
        let opaqueRep ← substBTvarOpaqueRep n opaqueRep
        return .opaqueDty opaqueRep revealKey
    | .interfaceDty opaqueRep => do
        let opaqueRep ← substBTvarOpaqueRep n opaqueRep
        return .interfaceDty opaqueRep

def substBTvarOpaqueRep : Nat → OpaqueRep → Except Exn OpaqueRep
  | 0, _ => .error .outOfFuel
  | n + 1, opaqueRep =>
    match opaqueRep with
    | .tycon tyCon => do
        let tyCon ← substBTvarTyCon n tyCon
        return .tycon tyCon
    | .tfundef admitsEq arity polyTy => do
        let polyTy ← substBTvar n polyTy
        return .tfundef admitsEq arity polyTy

def substBTvarConstraint : Nat → Constraint → Except Exn Constraint
  | 0, _ => .error .outOfFuel
  | n + 1, .join res arg1 arg2 loc => do
      let res ← substBTvar n res
      let arg1 ← substBTvar n arg1
      let arg2 ← substBTvar n arg2
      return .join res arg1 arg2 loc

def substBTvarKind : Nat → Kind → Except Exn Kind
  | 0, _ => .error .outOfFuel
  | n + 1, .kind tvarKind properties dynamicKind => do
      let tvarKind ← substBTvarTvarKind n tvarKind
      return .kind tvarKind properties dynamicKind

def substBTvarTvarKind : Nat → TvarKind → Except Exn TvarKind
  | 0, _ => .error .outOfFuel
  | n + 1, tvarKind =>
    match tvarKind with
    | .record fields => do
        let fields ← fields.mapM fun field => do
          let ty ← substBTvar n field.2
          return (field.1, ty)
        return .record fields
    | .univ => return .univ
    | .oconstKind tyList => do
        let tyList ← tyList.mapM (substBTvar n)
        return .oconstKind tyList
    | .oprimKind instances operators => do
        let instances ← instances.mapM (substBTvar n)
        let operators ← operators.mapM (substBTvarSelector n)
        return .oprimKind instances operators

def substBTvarSelector : Nat → OprimSelector → Except Exn OprimSelector
  | 0, _ => .error .outOfFuel
  | n + 1, .selector oprimId longsymbol overload => do
      let overload ← substBTvarOverloadMatch n overload
      return .selector oprimId longsymbol overload

def substBTvarOverloadMatch : Nat → OverloadMatch → Except Exn OverloadMatch
  | 0, _ => .error .outOfFuel
  | n + 1, overload =>
    match overload with
    | .overloadExvar _ none => return overload
    | .overloadExvar exVarInfo (some instTyList) => do
        let instTyList ← instTyList.mapM (substBTvar n)
        return .overloadExvar exVarInfo (some instTyList)
    | .overloadPrim _ none => return overload
    | .overloadPrim primInfo (some instTyList) => do
        let instTyList ← instTyList.mapM (substBTvar n)
        return .overloadPrim primInfo (some instTyList)
    | .overloadCase ty rules => do
        let ty ← substBTvar n ty
        let rules ← rules.mapM fun rule => do
          let overload ← substBTvarOverloadMatch n rule.2
          return (rule.1, overload)
        return .overloadCase ty rules

end

end Subst

/-! ### Fresh type variables -/

/-- The bound type variables with their kinds, in the order of their numbers. -/
structure BoundEnv where
  entries : List (Nat × Kind)
  keys : (entries.map Prod.fst).Nodup

def infiniteDepth : Int := 2147483647

def newtyRaw (tvKind : TvKind) (store : Store) : Ty × Store :=
  (.tyvarTy store.length, store ++ [.tvar tvKind])

/-- Every bound variable gets a variable, of the universal kind for now. -/
def newTys (lambdaDepth : Int) (utvarOpt : Option Utvar) :
    List (Nat × Kind) → Store → List (Nat × Ty) × Store
  | [], store => ([], store)
  | (i, _) :: entries, store =>
    let (newTy, store) := newtyRaw ⟨lambdaDepth, univKind, utvarOpt⟩ store
    let (subst, store) := newTys lambdaDepth utvarOpt entries store
    ((i, newTy) :: subst, store)

/-- The kinds, in which the variables mention each other. -/
def newKinds (link : Nat → Option Ty) (subst : List (Nat × Ty)) (fuel : Nat)
    (boundEnv : List (Nat × Kind)) : List (Nat × Ty) → Except Exn (List (Ty × Kind))
  | [] => .ok []
  | (i, ty) :: rest =>
    match boundEnv.lookup i with
    | some kind => do
        let kind ← substBTvarKind link subst fuel kind
        let newSubst ← newKinds link subst fuel boundEnv rest
        return (ty, kind) :: newSubst
    | none => .error (.bug "fresh Subst")

/-- The depth written is not the one that was passed. -/
def writeKinds (utvarOpt : Option Utvar) : List (Ty × Kind) → Store → Except Exn Store
  | [], store => .ok store
  | (ty, kind) :: newSubst, store =>
    match ty with
    | .tyvarTy r =>
      match store.get r with
      | .tvar _ =>
        writeKinds utvarOpt newSubst
          (store.set r (.tvar ⟨infiniteDepth, kind, utvarOpt⟩))
      | .substituted _ => .error (.bug "fresh Subst")
    | _ => .error (.bug "fresh Subst")

def makeFreshSubst (lambdaDepth : Int) (utvarOpt : Option Utvar) (boundEnv : BoundEnv)
    (store : Store) (fuel : Nat) : Except Exn (List (Nat × Ty) × Store) := do
  let (subst, store) := newTys lambdaDepth utvarOpt boundEnv.entries store
  let newSubst ← newKinds store.link subst fuel boundEnv.entries subst
  let store ← writeKinds utvarOpt newSubst store
  return (subst, store)

def freshSubst (boundEnv : BoundEnv) (store : Store) (fuel : Nat) :
    Except Exn (List (Nat × Ty) × Store) :=
  makeFreshSubst infiniteDepth none boundEnv store fuel

def rigidUtvar (id : Nat) : Utvar := ⟨"RIGID", id, false, false⟩

def freshRigidSubst (id : Nat) (boundEnv : BoundEnv) (store : Store) (fuel : Nat) :
    Except Exn (List (Nat × Ty) × Store) :=
  makeFreshSubst infiniteDepth (some (rigidUtvar id)) boundEnv store fuel

def freshSubstWithLambdaDepth (lambdaDepth : Int) (boundEnv : BoundEnv) (store : Store)
    (fuel : Nat) : Except Exn (List (Nat × Ty) × Store) :=
  makeFreshSubst lambdaDepth none boundEnv store fuel

def freshRigidSubstWithLambdaDepth (lambdaDepth : Int) (id : Nat) (boundEnv : BoundEnv)
    (store : Store) (fuel : Nat) : Except Exn (List (Nat × Ty) × Store) :=
  makeFreshSubst lambdaDepth (some (rigidUtvar id)) boundEnv store fuel

/-! ### The substitution ends -/

theorem Store.link_eq_none {store : Store} {r : Nat} :
    store.link r = none ↔ ∃ tvKind, store.get r = .tvar tvKind := by
  unfold Store.link
  cases store.get r with
  | tvar tvKind => simp
  | substituted ty => simp

theorem derefTy_converges {store : Store} {backend : Prop} {n : Nat} {ty : Ty}
    (h : Ty.within store backend n ty) :
    ∃ d, Converges (fun fuel => derefTy store.link fuel ty) d ∧ Ty.within store backend n d := by
  induction n generalizing ty with
  | zero => exact h.elim
  | succ n ih =>
    cases ty with
    | tyvarTy r =>
      cases hget : store.get r with
      | tvar tvKind =>
        refine ⟨.tyvarTy r, Converges.call (Converges.pure fun _ => rfl) fun fuel => ?_, h⟩
        rw [derefTy, Store.link_eq_none.mpr ⟨tvKind, hget⟩]
      | substituted ty =>
        have hwithin : Ty.within store backend n ty := by
          simpa only [Ty.within, hget] using h
        obtain ⟨d, hconv, hd⟩ := ih hwithin
        refine ⟨d, hconv.call fun fuel => ?_, Ty.within_mono (Nat.le_succ n) hd⟩
        rw [derefTy, Store.link, hget]
    | _ => exact ⟨_, Converges.call (Converges.pure fun _ => rfl) fun _ => rfl, h⟩

/-- The substitution ends on what has a depth of at most `n` and no types of the back
end. -/
structure SubstEnds (store : Store) (subst : List (Nat × Ty)) (n : Nat) : Prop where
  ty : ∀ ty, Ty.within store False n ty →
    Ends fun fuel => substBTvar store.link subst fuel ty
  kind : ∀ kind, Kind.within store False n kind →
    Ends fun fuel => substBTvarKind store.link subst fuel kind
  tvarKind : ∀ tvarKind, TvarKind.within store False n tvarKind →
    Ends fun fuel => substBTvarTvarKind store.link subst fuel tvarKind
  selector : ∀ selector, OprimSelector.within store False n selector →
    Ends fun fuel => substBTvarSelector store.link subst fuel selector
  overload : ∀ overload, OverloadMatch.within store False n overload →
    Ends fun fuel => substBTvarOverloadMatch store.link subst fuel overload
  singletonTy : ∀ sty, SingletonTy.within store False n sty →
    Ends fun fuel => substBTvarSingletonTy store.link subst fuel sty
  tyCon : ∀ tyCon, TyCon.within store False n tyCon →
    Ends fun fuel => substBTvarTyCon store.link subst fuel tyCon
  dtyKind : ∀ dtyKind, DtyKind.within store False n dtyKind →
    Ends fun fuel => substBTvarDtyKind store.link subst fuel dtyKind
  opaqueRep : ∀ rep, OpaqueRep.within store False n rep →
    Ends fun fuel => substBTvarOpaqueRep store.link subst fuel rep
  constraint : ∀ c, Constraint.within store False n c →
    Ends fun fuel => substBTvarConstraint store.link subst fuel c

namespace SubstEnds

variable {store : Store} {subst : List (Nat × Ty)} {n : Nat}

theorem zero : SubstEnds store subst 0 := by
  constructor <;> intro x hx <;> exact hx.elim

theorem tyList (ih : SubstEnds store subst n) {tyList : List Ty}
    (h : ∀ ty ∈ tyList, Ty.within store False n ty) :
    Ends fun fuel => tyList.mapM (substBTvar store.link subst fuel) :=
  Ends.mapM fun ty hty => ih.ty ty (h ty hty)

theorem fields (ih : SubstEnds store subst n) {fields : List (String × Ty)}
    (h : ∀ field ∈ fields, Ty.within store False n field.2) :
    Ends fun fuel => fields.mapM fun field => do
      let ty ← substBTvar store.link subst fuel field.2
      return (field.1, ty) :=
  Ends.mapM fun field hfield => (ih.ty field.2 (h field hfield)).map fun ty => (field.1, ty)

theorem succ_ty (ih : SubstEnds store subst n) (ty : Ty)
    (hwithin : Ty.within store False (n + 1) ty) :
    Ends fun fuel => substBTvar store.link subst fuel ty := by
  obtain ⟨d, ⟨start, hderef⟩, hd⟩ := derefTy_converges hwithin
  dsimp only at hderef
  cases d with
  | singletonTy sty =>
    refine ((ih.singletonTy sty hd).map Ty.singletonTy).callFrom start fun fuel hfuel => ?_
    rw [substBTvar, hderef (fuel + 1) (Nat.le_succ_of_le hfuel)]
    rfl
  | backendTy => exact hd.elim
  | errorTy =>
    refine Ends.callFrom (Ends.pure (a := ty) fun _ => rfl) start fun fuel hfuel => ?_
    rw [substBTvar, hderef (fuel + 1) (Nat.le_succ_of_le hfuel)]
    rfl
  | dummyTy id kind =>
    refine ((ih.kind kind hd).map (Ty.dummyTy id)).callFrom start fun fuel hfuel => ?_
    rw [substBTvar, hderef (fuel + 1) (Nat.le_succ_of_le hfuel)]
    rfl
  | existTy id kind =>
    refine ((ih.kind kind hd).map (Ty.existTy id)).callFrom start fun fuel hfuel => ?_
    rw [substBTvar, hderef (fuel + 1) (Nat.le_succ_of_le hfuel)]
    rfl
  | tyvarTy r =>
    refine Ends.callFrom (Ends.pure (a := ty) fun _ => rfl) start fun fuel hfuel => ?_
    rw [substBTvar, hderef (fuel + 1) (Nat.le_succ_of_le hfuel)]
    rfl
  | boundvarTy id =>
    refine Ends.callFrom (Ends.pure (a := (subst.lookup id).getD ty) fun _ => rfl) start
      fun fuel hfuel => ?_
    rw [substBTvar, hderef (fuel + 1) (Nat.le_succ_of_le hfuel), except_ok_bind]
    dsimp only
    cases subst.lookup id with
    | none => rfl
    | some ty' => rfl
  | funmTy tyList ty' =>
    refine ((ih.tyList hd.1).bind fun tyList =>
      (ih.ty ty' hd.2).map (Ty.funmTy tyList)).callFrom start fun fuel hfuel => ?_
    rw [substBTvar, hderef (fuel + 1) (Nat.le_succ_of_le hfuel)]
    rfl
  | recordTy fields =>
    refine ((ih.fields hd).map Ty.recordTy).callFrom start fun fuel hfuel => ?_
    rw [substBTvar, hderef (fuel + 1) (Nat.le_succ_of_le hfuel)]
    rfl
  | constructTy tyCon args =>
    refine ((ih.tyCon tyCon hd.1).bind fun tyCon =>
      (ih.tyList hd.2).map (Ty.constructTy tyCon)).callFrom start fun fuel hfuel => ?_
    rw [substBTvar, hderef (fuel + 1) (Nat.le_succ_of_le hfuel)]
    rfl
  | polyTy boundtvars constraints body =>
    have hboundtvars : Ends fun fuel => boundtvars.mapM fun boundtvar => do
        let kind ← substBTvarKind store.link subst fuel boundtvar.2
        return (boundtvar.1, kind) :=
      Ends.mapM fun boundtvar hmem =>
        (ih.kind boundtvar.2 (hd.1 boundtvar hmem)).map fun kind => (boundtvar.1, kind)
    have hconstraints : Ends fun fuel =>
        constraints.mapM (substBTvarConstraint store.link subst fuel) :=
      Ends.mapM fun c hc => ih.constraint c (hd.2.1 c hc)
    refine (hboundtvars.bind fun boundtvars => hconstraints.bind fun constraints =>
      (ih.ty body hd.2.2).map (Ty.polyTy boundtvars constraints)).callFrom start
      fun fuel hfuel => ?_
    rw [substBTvar, hderef (fuel + 1) (Nat.le_succ_of_le hfuel)]
    rfl

theorem succ_tvarKind (ih : SubstEnds store subst n) (tvarKind : TvarKind)
    (h : TvarKind.within store False (n + 1) tvarKind) :
    Ends fun fuel => substBTvarTvarKind store.link subst fuel tvarKind := by
  cases tvarKind with
  | oconstKind tyList => exact ((ih.tyList h).map TvarKind.oconstKind).call fun _ => rfl
  | oprimKind instances operators =>
    have hoperators : Ends fun fuel =>
        operators.mapM (substBTvarSelector store.link subst fuel) :=
      Ends.mapM fun operator hmem => ih.selector operator (h.2 operator hmem)
    exact ((ih.tyList h.1).bind fun instances =>
      hoperators.map (TvarKind.oprimKind instances)).call fun _ => rfl
  | univ => exact Ends.call (Ends.pure fun _ => rfl) fun _ => rfl
  | record fields => exact ((ih.fields h).map TvarKind.record).call fun _ => rfl

theorem succ_overload (ih : SubstEnds store subst n) (overload : OverloadMatch)
    (h : OverloadMatch.within store False (n + 1) overload) :
    Ends fun fuel => substBTvarOverloadMatch store.link subst fuel overload := by
  cases overload with
  | overloadExvar info instTyList =>
    cases instTyList with
    | none => exact Ends.call (Ends.pure fun _ => rfl) fun _ => rfl
    | some instTyList =>
      exact ((ih.tyList (h instTyList rfl)).map fun tyList =>
        OverloadMatch.overloadExvar info (some tyList)).call fun _ => rfl
  | overloadPrim info instTyList =>
    cases instTyList with
    | none => exact Ends.call (Ends.pure fun _ => rfl) fun _ => rfl
    | some instTyList =>
      exact ((ih.tyList (h instTyList rfl)).map fun tyList =>
        OverloadMatch.overloadPrim info (some tyList)).call fun _ => rfl
  | overloadCase ty rules =>
    have hrules : Ends fun fuel => rules.mapM fun rule => do
        let overload ← substBTvarOverloadMatch store.link subst fuel rule.2
        return (rule.1, overload) :=
      Ends.mapM fun rule hrule =>
        (ih.overload rule.2 (h.2 rule hrule)).map fun overload => (rule.1, overload)
    exact ((ih.ty ty h.1).bind fun ty => hrules.map (OverloadMatch.overloadCase ty)).call
      fun _ => rfl

theorem succ_singletonTy (ih : SubstEnds store subst n) (sty : SingletonTy)
    (h : SingletonTy.within store False (n + 1) sty) :
    Ends fun fuel => substBTvarSingletonTy store.link subst fuel sty := by
  cases sty with
  | instcodeTy selector =>
    exact ((ih.selector selector h).map SingletonTy.instcodeTy).call fun _ => rfl
  | indexTy label ty => exact ((ih.ty ty h).map (SingletonTy.indexTy label)).call fun _ => rfl
  | tagTy ty => exact ((ih.ty ty h).map SingletonTy.tagTy).call fun _ => rfl
  | sizeTy ty => exact ((ih.ty ty h).map SingletonTy.sizeTy).call fun _ => rfl
  | reifyTy ty => exact ((ih.ty ty h).map SingletonTy.reifyTy).call fun _ => rfl

theorem succ (ih : SubstEnds store subst n) : SubstEnds store subst (n + 1) where
  ty := ih.succ_ty
  kind kind h := by
    obtain ⟨tvarKind, properties, dynamicKind⟩ := kind
    exact ((ih.tvarKind tvarKind h).map fun tvarKind =>
      Kind.kind tvarKind properties dynamicKind).call fun _ => rfl
  tvarKind := ih.succ_tvarKind
  selector selector h := by
    cases selector with
    | selector oprimId longsymbol overload =>
      exact ((ih.overload overload h).map (OprimSelector.selector oprimId longsymbol)).call
        fun _ => rfl
  overload := ih.succ_overload
  singletonTy := ih.succ_singletonTy
  tyCon tyCon h := by
    cases tyCon with
    | tyCon id longsymbol admitsEq arity extraArgs dtyKind =>
      exact ((ih.tyList h.1).bind fun extraArgs => (ih.dtyKind dtyKind h.2).map
        (TyCon.tyCon id longsymbol admitsEq arity extraArgs)).call fun _ => rfl
  dtyKind dtyKind h := by
    cases dtyKind with
    | dty property => exact Ends.call (Ends.pure fun _ => rfl) fun _ => rfl
    | opaqueDty rep key =>
      exact ((ih.opaqueRep rep h).map fun rep => DtyKind.opaqueDty rep key).call fun _ => rfl
    | interfaceDty rep =>
      exact ((ih.opaqueRep rep h).map DtyKind.interfaceDty).call fun _ => rfl
  opaqueRep rep h := by
    cases rep with
    | tycon tyCon => exact ((ih.tyCon tyCon h).map OpaqueRep.tycon).call fun _ => rfl
    | tfundef admitsEq arity polyTy =>
      exact ((ih.ty polyTy h).map (OpaqueRep.tfundef admitsEq arity)).call fun _ => rfl
  constraint c h := by
    cases c with
    | join res arg1 arg2 loc =>
      exact ((ih.ty res h.1).bind fun res => (ih.ty arg1 h.2.1).bind fun arg1 =>
        (ih.ty arg2 h.2.2).map fun arg2 => Constraint.join res arg1 arg2 loc).call
        fun _ => rfl

end SubstEnds

theorem substEnds (store : Store) (subst : List (Nat × Ty)) (n : Nat) :
    SubstEnds store subst n := by
  induction n with
  | zero => exact SubstEnds.zero
  | succ n ih => exact ih.succ

end TypesBasics

end SmlSharp
