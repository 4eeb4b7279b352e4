/-
The two elaborators of datatype declarations with `withtype`: that of source
files and that of interface files.
-/
import SmlSharp.WithType.Syntax

namespace SmlSharp

namespace WithType

/-- The errors that the elaborators enqueue; `bug` stops the compiler. -/
inductive ElabError where
  | notBoundTyvar (tyvar : String)
  | arityMismatchInTypeDeclaration (tyCon : String) (wants given : Nat)
  | duplicateTypeNameInDatatype (name : String)
  | duplicateConstructorNameInDatatype (name : String)
  | duplicateTypParam (name : String)
  | bindReservedName (name : String)
  | bug (message : String)
deriving DecidableEq

/-- A result with the errors that were enqueued for it. -/
abbrev Elab (α : Type) := α × List ElabError

def duplicates (names : List String) : List String :=
  (names.filter fun name => 1 < names.count name).eraseDups

def checkSymbolDuplication (names : List String)
    (makeExn : String → ElabError) : List ElabError :=
  (duplicates names).map makeExn

def isReservedConstructorName (name : String) : Bool :=
  name ∈ ["true", "false", "nil", "::", "ref"]

def checkReservedNameForConstructorBind (name : String) : List ElabError :=
  if isReservedConstructorName name ∨ name = "it" then [.bindReservedName name]
  else []

def checkReservedNameForValBind (name : String) : List ElabError :=
  if isReservedConstructorName name then [.bindReservedName name] else []

def findTypBind (binds : List TypBind) (symbol : String) : Option TypBind :=
  binds.find? fun bind => bind.symbol = symbol

/-! ### Source files -/

section Source

mutual

/-- Substitute for the variables of a type; the kinds of bound variables are
left alone. -/
def substTyVarInTy (substFun : Tvar String → Elab (Ty String)) :
    Ty String → Elab (Ty String)
  | .wild => (.wild, [])
  | .id tvar => substFun tvar
  | .freeId tvar kind =>
    (.freeId tvar kind, [.bug "FREE_TYID in substTyVarInTy"])
  | .record ifFlex fields =>
    let fields := substTyVarInFields substFun fields
    (.record ifFlex fields.1, fields.2)
  | .construct args tyCon =>
    let args := substTyVarInTys substFun args
    (.construct args.1 tyCon, args.2)
  | .tuple tys =>
    let tys := substTyVarInTys substFun tys
    (.tuple tys.1, tys.2)
  | .func dom ran =>
    let dom := substTyVarInTy substFun dom
    let ran := substTyVarInTy substFun ran
    (.func dom.1 ran.1, dom.2 ++ ran.2)
  | .poly tvars body =>
    let body := substTyVarInTy (fun tvar =>
      if tvar.symbol ∈ boundNames tvars then (.id tvar, [])
      else substFun tvar) body
    (.poly tvars body.1, body.2)

def substTyVarInTys (substFun : Tvar String → Elab (Ty String)) :
    List (Ty String) → Elab (List (Ty String))
  | [] => ([], [])
  | ty :: tys =>
    let ty := substTyVarInTy substFun ty
    let tys := substTyVarInTys substFun tys
    (ty.1 :: tys.1, ty.2 ++ tys.2)

def substTyVarInFields (substFun : Tvar String → Elab (Ty String)) :
    List (String × Ty String) → Elab (List (String × Ty String))
  | [] => ([], [])
  | (label, ty) :: fields =>
    let ty := substTyVarInTy substFun ty
    let fields := substTyVarInFields substFun fields
    ((label, ty.1) :: fields.1, ty.2 ++ fields.2)

end

/-- The substitution of type parameters, the first one of a name first. -/
def substParam (tyVars : List String) (argTys : List (Ty String))
    (tvar : Tvar String) : Elab (Ty String) :=
  match (tyVars.zip argTys).lookup tvar.symbol with
  | none => (.id tvar, [.notBoundTyvar tvar.symbol])
  | some destTy => (destTy, [])

def replaceTyVarInTyWithTy (tyVars : List String) (argTys : List (Ty String))
    (ty : Ty String) : Elab (Ty String) :=
  substTyVarInTy (substParam tyVars argTys) ty

variable (withTypeBinds : List TypBind)

mutual

def expandInTy : Ty String → Elab (Ty String)
  | .wild => (.wild, [])
  | .id tvar => (.id tvar, [])
  | .freeId tvar kind => (.freeId tvar kind, [])
  | .record ifFlex fields =>
    let fields := expandInFields fields
    (.record ifFlex fields.1, fields.2)
  | .construct argTys tyCon =>
    let args := expandInTys argTys
    match tyCon with
    | [tyConName] =>
      match findTypBind withTypeBinds tyConName with
      | some bind =>
        if bind.tyvars.length = args.1.length then
          let ty := replaceTyVarInTyWithTy (bind.tyvars.map Tvar.symbol)
            args.1 bind.ty
          (ty.1, args.2 ++ ty.2)
        else
          (.construct argTys tyCon,
            args.2 ++ [.arityMismatchInTypeDeclaration tyConName
              bind.tyvars.length args.1.length])
      | none => (.construct args.1 tyCon, args.2)
    -- the arguments are expanded once more, with the same result
    | _ => (.construct args.1 tyCon, args.2 ++ args.2)
  | .tuple tys =>
    let tys := expandInTys tys
    (.tuple tys.1, tys.2)
  | .func dom ran =>
    let dom := expandInTy dom
    let ran := expandInTy ran
    (.func dom.1 ran.1, dom.2 ++ ran.2)
  | .poly tvars body =>
    let body := expandInTy body
    (.poly tvars body.1, body.2)

def expandInTys : List (Ty String) → Elab (List (Ty String))
  | [] => ([], [])
  | ty :: tys =>
    let ty := expandInTy ty
    let tys := expandInTys tys
    (ty.1 :: tys.1, ty.2 ++ tys.2)

def expandInFields :
    List (String × Ty String) → Elab (List (String × Ty String))
  | [] => ([], [])
  | (label, ty) :: fields =>
    let ty := expandInTy ty
    let fields := expandInFields fields
    ((label, ty.1) :: fields.1, ty.2 ++ fields.2)

end

def expandInDataCon (con : ConBind) : Elab ConBind :=
  match con.ty with
  | none => (con, [])
  | some ty =>
    let ty := expandInTy withTypeBinds ty
    ({ con with ty := some ty.1 }, ty.2)

def expandWithTypesInDataBind (bind : DatBind) : Elab DatBind :=
  let conbind := bind.conbind.map (expandInDataCon withTypeBinds)
  ({ bind with conbind := conbind.map Prod.fst }, conbind.flatMap Prod.snd)

/-- The datatype bindings of a source file, with all the errors of the
declaration. -/
def elabDataBindsWithTypeBinds (dataBinds : List DatBind) :
    Elab (List DatBind) :=
  let conSymbols := dataBinds.flatMap fun bind =>
    bind.conbind.map ConBind.symbol
  let binds := dataBinds.map (expandWithTypesInDataBind withTypeBinds)
  (binds.map Prod.fst,
    checkSymbolDuplication (dataBinds.map DatBind.symbol ++
      withTypeBinds.map TypBind.symbol) .duplicateTypeNameInDatatype ++
    checkSymbolDuplication conSymbols .duplicateConstructorNameInDatatype ++
    conSymbols.flatMap checkReservedNameForConstructorBind ++
    withTypeBinds.flatMap (fun bind =>
      checkSymbolDuplication (bind.tyvars.map Tvar.symbol)
        .duplicateTypParam) ++
    binds.flatMap Prod.snd)

end Source

/-! ### Interface files -/

section Interface

/-- A substitution for type variables and for the constructors of `withtype`,
the latest entry of a name first. -/
structure Subst where
  tyvar : List (String × Ty String)
  tycon : List (String × TypBind)

def maskTyvar (subst : Subst) (tvars : List (KindedTvar String)) : Subst :=
  { subst with
    tyvar := subst.tyvar.filter fun entry => entry.1 ∉ boundNames tvars }

def tyconSubst (typbinds : List TypBind) : Subst :=
  ⟨[], typbinds.foldl (fun z bind => (bind.symbol, bind) :: z) []⟩

def tyvarSubst (pairs : List (Tvar String × Ty String)) : Subst :=
  ⟨pairs.foldl (fun z pair => (pair.1.symbol, pair.2) :: z) [], []⟩

-- what becomes of a constructor of `withtype`
variable (expandCon : TypBind → List (Ty String) → Elab (Ty String))

mutual

def substTyWith (subst : Subst) : Ty String → Elab (Ty String)
  | .wild => (.wild, [])
  | .id tvar => ((subst.tyvar.lookup tvar.symbol).getD (.id tvar), [])
  | .freeId tvar kind =>
    (.freeId tvar kind, [.bug "FREE_TYID to substTy in ElaborateInterface"])
  | .record ifFlex fields =>
    let fields := substFieldsWith subst fields
    (.record ifFlex fields.1, fields.2)
  | .construct tyList tyCon =>
    let args := substTysWith subst tyList
    match tyCon with
    | [symbol] =>
      match subst.tycon.lookup symbol with
      | none => (.construct args.1 tyCon, args.2)
      | some bind => expandCon bind tyList
    | _ => (.construct args.1 tyCon, args.2)
  | .tuple tys =>
    let tys := substTysWith subst tys
    (.tuple tys.1, tys.2)
  | .func dom ran =>
    let dom := substTyWith subst dom
    let ran := substTyWith subst ran
    (.func dom.1 ran.1, dom.2 ++ ran.2)
  | .poly tvars body =>
    let tvars' := substTvarsWith (maskTyvar subst tvars) tvars
    let body := substTyWith (maskTyvar subst tvars) body
    (.poly tvars'.1 body.1, tvars'.2 ++ body.2)

def substTysWith (subst : Subst) : List (Ty String) → Elab (List (Ty String))
  | [] => ([], [])
  | ty :: tys =>
    let ty := substTyWith subst ty
    let tys := substTysWith subst tys
    (ty.1 :: tys.1, ty.2 ++ tys.2)

def substFieldsWith (subst : Subst) :
    List (String × Ty String) → Elab (List (String × Ty String))
  | [] => ([], [])
  | (label, ty) :: fields =>
    let ty := substTyWith subst ty
    let fields := substFieldsWith subst fields
    ((label, ty.1) :: fields.1, ty.2 ++ fields.2)

def substTvarKindWith (subst : Subst) :
    TvarKind String → Elab (TvarKind String)
  | .univ properties => (.univ properties, [])
  | .recKind properties fields =>
    let fields := substFieldsWith subst fields
    (.recKind properties fields.1, fields.2)

def substTvarsWith (subst : Subst) :
    List (KindedTvar String) → Elab (List (KindedTvar String))
  | [] => ([], [])
  | (tvar, kind) :: tvars =>
    let kind := substTvarKindWith subst kind
    let tvars := substTvarsWith subst tvars
    ((tvar, kind.1) :: tvars.1, kind.2 ++ tvars.2)

end

/-- The body of a `withtype` binding with its arguments; the arguments are those
of the source text. -/
def expandTypBind (bind : TypBind) (tyList : List (Ty String)) :
    Elab (Ty String) :=
  let pairs := if bind.tyvars.length = tyList.length then
      bind.tyvars.zip tyList else []
  let errors := if bind.tyvars.length = tyList.length then []
    else [.arityMismatchInTypeDeclaration bind.symbol bind.tyvars.length
      tyList.length]
  -- a substitution of variables has no constructors to expand
  let ty := substTyWith (fun bind tyList => (.construct tyList [bind.symbol], []))
    (tyvarSubst pairs) bind.ty
  (ty.1, errors ++ ty.2)

def substTy (subst : Subst) (ty : Ty String) : Elab (Ty String) :=
  substTyWith expandTypBind subst ty

def substConbind (subst : Subst) (con : ConBind) : Elab ConBind :=
  match con.ty with
  | none => (con, [])
  | some ty =>
    let ty := substTy subst ty
    ({ con with ty := some ty.1 }, ty.2)

def substDatbind (subst : Subst) (bind : DatBind) : Elab DatBind :=
  let conbind := bind.conbind.map (substConbind subst)
  ({ bind with conbind := conbind.map Prod.fst }, conbind.flatMap Prod.snd)

/-- The datatype bindings of an interface file, with all the errors of the
declaration. -/
def elabDatatypeDec (datbind : List DatBind) (withType : List TypBind) :
    Elab (List DatBind) :=
  let conSymbols := datbind.flatMap fun bind => bind.conbind.map ConBind.symbol
  let binds := datbind.map (substDatbind (tyconSubst withType))
  (binds.map Prod.fst,
    checkSymbolDuplication (datbind.map DatBind.symbol ++
      withType.map TypBind.symbol) .duplicateTypeNameInDatatype ++
    checkSymbolDuplication conSymbols .duplicateConstructorNameInDatatype ++
    conSymbols.flatMap checkReservedNameForValBind ++
    binds.flatMap Prod.snd)

end Interface

end WithType

end SmlSharp
