/-
Translation of datatypes to records: the expressions emitted to build and to
inspect a value of a datatype, as functions of its layout.
-/
import SmlSharp.DatatypeLayout

namespace SmlSharp

/-- Types as the emitted casts mention them. -/
inductive EmitTy (τ : Type) where
  | ty (ty : τ)
  | contagTy
  | boxedTy
  | tupleTy (tys : List (EmitTy τ))

/-- Emitted typed lambda terms over the source expressions `ε`. -/
inductive EmitTypedLambda (τ ε : Type) where
  | exp (exp : ε) (ty : τ)
  | cast (exp : EmitTypedLambda τ ε) (ty : EmitTy τ)
  | tuple (exps : List (EmitTypedLambda τ ε))
  | selectN (index : Nat) (exp : EmitTypedLambda τ ε)
  | conTag (tag : Nat)
  | null
  | unit
  | var (vid : Nat)
  | elet (vid : Nat) (bound body : EmitTypedLambda τ ε)
  | eif (cond ifTrue ifFalse : EmitTypedLambda τ ε)
  | isNull (exp : EmitTypedLambda τ ε)
  | eswitch (exp : EmitTypedLambda τ ε)
      (branches : List (Nat × EmitTypedLambda τ ε))
      (default : EmitTypedLambda τ ε)
  | tlLet (varId : Nat) (varTy : τ) (bound body : EmitTypedLambda τ ε)
  | refAlloc (argTy : τ) (exp : EmitTypedLambda τ ε)
  | refDeref (argTy : τ) (exp : EmitTypedLambda τ ε)

namespace DatatypeCompilation

open RuntimeTypes

variable {κ τ ε : Type}

/-- A constructor, named by the last symbol of its path. -/
structure ConInfo where
  path : List String
deriving DecidableEq

structure VarInfo (τ : Type) where
  id : Nat
  ty : τ

/-- `List.last` on a path. -/
def lastSymbol (path : List String) : Except String String :=
  match path.getLast? with
  | some symbol => .ok symbol
  | none => .error "Empty"

def extractLayout (property : Property κ) : Except String Layout :=
  match property.rep with
  | .data layout => .ok layout
  | _ => .error "extractLayout"

def TaggedLayout.tagMap : TaggedLayout → List String
  | .taggedTagonly tagMap => tagMap
  | .taggedRecord tagMap => tagMap
  | .taggedOrNull tagMap _ => tagMap

def lookupConTag (tagged : TaggedLayout) (path : List String) :
    Except String Nat := do
  let symbol ← lastSymbol path
  match (TaggedLayout.tagMap tagged).findIdx? (fun name => symbol = name) with
  | none => .error "dataconTag"
  | some tag => .ok tag

/-- `vid` is the identifier that `EmitTypedLambda.newId` hands out here. -/
def extractConTag (vid : Nat) (tagged : TaggedLayout)
    (exp : EmitTypedLambda τ ε) : Except String (EmitTypedLambda τ ε) :=
  match tagged with
  | .taggedTagonly _ => .ok (.cast exp .contagTy)
  | .taggedRecord _ => .ok (.selectN 1 (.cast exp (.tupleTy [.contagTy])))
  | .taggedOrNull _ nullName => do
      let nullTag ← lookupConTag tagged [nullName]
      return .elet vid exp
        (.eif (.isNull (.cast exp .boxedTy))
          (.conTag nullTag)
          (.selectN 1 (.cast exp (.tupleTy [.contagTy]))))

def composeTaggedCon (tagged : TaggedLayout) (conInfo : ConInfo)
    (argExpOpt : Option (EmitTypedLambda τ ε)) (retTy : τ) :
    Except String (EmitTypedLambda τ ε) := do
  let tag ← lookupConTag tagged conInfo.path
  match argExpOpt with
  | none => return .cast (.tuple [.conTag tag]) (.ty retTy)
  | some argExp => return .cast (.tuple [.conTag tag, argExp]) (.ty retTy)

def extractTaggedConArg (dataExp : EmitTypedLambda τ ε) (argTy : τ) :
    EmitTypedLambda τ ε :=
  .selectN 2 (.cast dataExp (.tupleTy [.contagTy, .ty argTy]))

/-- The expression that applies a constructor.  `argTy` and `retTy` are what
`decomposeDataconTy` finds in its instantiated type, `property` is the property
of the datatype. -/
def composeCon (property : Property κ) (conInfo : ConInfo) (argTy : Option τ)
    (retTy : τ) (argExpOpt : Option ε) :
    Except String (EmitTypedLambda τ ε) := do
  let argExpOpt ← match argExpOpt, argTy with
    | none, none => pure none
    | some argExp, some argTy => pure (some (.exp argExp argTy))
    | _, _ => .error "composeCon"
  match ← extractLayout property with
  | .layoutTagged tagged@(.taggedRecord _) =>
    composeTaggedCon tagged conInfo argExpOpt retTy
  | .layoutTagged tagged@(.taggedTagonly _) =>
    match argExpOpt with
    | some _ => .error "composeCon: TAGGED_TAGONLY"
    | none => do
        let tag ← lookupConTag tagged conInfo.path
        return .cast (.conTag tag) (.ty retTy)
  | .layoutTagged tagged@(.taggedOrNull _ _) =>
    match argExpOpt with
    | none => .ok (.cast .null (.ty retTy))
    | some _ => composeTaggedCon tagged conInfo argExpOpt retTy
  | .layoutChoice falseName =>
    match argExpOpt with
    | some _ => .error "composeCon: LAYOUT_CHOICE"
    | none => do
        let symbol ← lastSymbol conInfo.path
        return .cast (.conTag (if symbol = falseName then 0 else 1))
          (.ty retTy)
  | .layoutSingle =>
    match argExpOpt with
    | some _ => .error "composeCon: LAYOUT_SINGLE"
    | none => .ok (.cast .unit (.ty retTy))
  | .layoutSingleArg wrap =>
    match argExpOpt with
    | none => .error "composeCon: LAYOUT_SINGLE_ARG"
    | some exp =>
      .ok (.cast (if wrap then .tuple [exp] else exp) (.ty retTy))
  | .layoutArgOrNull wrap =>
    match argExpOpt with
    | none => .ok (.cast .null (.ty retTy))
    | some exp =>
      .ok (.cast (if wrap then .tuple [exp] else exp) (.ty retTy))
  | .layoutRef =>
    match argExpOpt, argTy with
    | some argExp, some argTy => .ok (.refAlloc argTy argExp)
    | _, _ => .error "composeCon: LAYOUT_REF"

/-- A rule of a switch: the constructor, the variable its argument is bound to,
and the branch. -/
structure SwitchRule (τ ε : Type) where
  con : ConInfo
  argVar : Option (VarInfo τ)
  branch : ε

def makeBranch (argFn : τ → EmitTypedLambda τ ε) (argVar : Option (VarInfo τ))
    (branchExp : ε) (resultTy : τ) : EmitTypedLambda τ ε :=
  match argVar with
  | none => .exp branchExp resultTy
  | some argVar =>
    .tlLet argVar.id argVar.ty (argFn argVar.ty) (.exp branchExp resultTy)

/-- The argument of a constructor that is stored without a tag. -/
def extractUntaggedArg (wrap : Bool) (dataExp : EmitTypedLambda τ ε)
    (argTy : τ) : EmitTypedLambda τ ε :=
  if wrap then .selectN 1 (.cast dataExp (.tupleTy [.ty argTy]))
  else .cast dataExp (.ty argTy)

/-- The expression that inspects a value of a datatype.  `dataVid` and
`tagVid` are the identifiers `EmitTypedLambda.newId` hands out here. -/
def switchCon (dataVid tagVid : Nat) (property : Property κ) (dataExp : ε)
    (dataTy : τ) (ruleList : List (SwitchRule τ ε)) (defaultExp : ε)
    (resultTy : τ) : Except String (EmitTypedLambda τ ε) := do
  let dataExp := EmitTypedLambda.exp dataExp dataTy
  match ← extractLayout property with
  | .layoutTagged tagged => do
      let dataVarExp := EmitTypedLambda.var dataVid
      let tagExp ← extractConTag tagVid tagged dataVarExp
      let branches ← ruleList.mapM fun rule => do
        let tag ← lookupConTag tagged rule.con.path
        return (tag, makeBranch (extractTaggedConArg dataVarExp) rule.argVar
          rule.branch resultTy)
      return .elet dataVid dataExp
        (.eswitch tagExp branches (.exp defaultExp resultTy))
  | .layoutChoice falseName => do
      let (ifTrueExp, ifFalseExp) ← match ruleList with
        | [⟨con1, none, exp1⟩, ⟨_, none, exp2⟩] => do
            let symbol ← lastSymbol con1.path
            pure (if symbol = falseName then (exp2, exp1) else (exp1, exp2))
        | [⟨con1, none, exp1⟩] => do
            let symbol ← lastSymbol con1.path
            pure (if symbol = falseName then (defaultExp, exp1)
              else (exp1, defaultExp))
        | _ => .error "switchCon: LAYOUT_CHOICE"
      return .eif dataExp (.exp ifTrueExp resultTy) (.exp ifFalseExp resultTy)
  | .layoutSingle =>
    match ruleList with
    | [⟨_, _, branchExp⟩] => .ok (.exp branchExp resultTy)
    | _ => .error "switchCon: LAYOUT_SINGLE"
  | .layoutSingleArg wrap =>
    match ruleList with
    | [⟨_, some argVar, branchExp⟩] =>
      .ok (makeBranch (extractUntaggedArg wrap dataExp) (some argVar)
        branchExp resultTy)
    | _ => .error "switchCon: LAYOUT_SINGLE_ARG"
  | .layoutArgOrNull wrap => do
      let (argVar, ifDataExp, ifNullExp) ← match ruleList with
        | [⟨_, none, exp1⟩, ⟨_, some v, exp2⟩] => pure (some v, exp2, exp1)
        | [⟨_, some v, exp1⟩, ⟨_, none, exp2⟩] => pure (some v, exp1, exp2)
        | [⟨_, some v, exp1⟩] => pure (some v, exp1, defaultExp)
        | [⟨_, none, exp1⟩] => pure (none, defaultExp, exp1)
        | _ => .error "switchArgOrNull"
      return .elet dataVid dataExp
        (.eif (.isNull (.cast (.var dataVid) .boxedTy))
          (.exp ifNullExp resultTy)
          (makeBranch (extractUntaggedArg wrap dataExp) argVar ifDataExp
            resultTy))
  | .layoutRef =>
    match ruleList with
    | [⟨_, some argVar, branchExp⟩] =>
      .ok (.tlLet argVar.id argVar.ty (.refDeref argVar.ty dataExp)
        (.exp branchExp resultTy))
    | _ => .error "compileExp: TPCASE: LAYOUT_ARGONLY"

/-- Two units that know a datatype by these properties build and inspect its
values by the same terms. -/
def SameRepresentation (τ ε : Type) (left right : Property κ) : Prop :=
  (∀ (conInfo : ConInfo) (argTy : Option τ) (retTy : τ) (argExpOpt : Option ε),
    composeCon left conInfo argTy retTy argExpOpt =
      composeCon right conInfo argTy retTy argExpOpt) ∧
  ∀ (dataVid tagVid : Nat) (dataExp : ε) (dataTy : τ)
    (ruleList : List (SwitchRule τ ε)) (defaultExp : ε) (resultTy : τ),
    switchCon dataVid tagVid left dataExp dataTy ruleList defaultExp resultTy =
      switchCon dataVid tagVid right dataExp dataTy ruleList defaultExp resultTy

/-- The representation shows whether the argument is wrapped: the two forms of
`LAYOUT_ARG_OR_NULL` build different terms. -/
theorem wrap_eq_of_sameRepresentation [Inhabited τ] [Inhabited ε]
    {left right : Bool}
    (hsame : SameRepresentation (κ := κ) τ ε
      (DatatypeLayout.recordProp (.layoutArgOrNull left))
      (DatatypeLayout.recordProp (.layoutArgOrNull right))) :
    left = right := by
  have hcompose := hsame.1 ⟨[]⟩ (some default) default (some default)
  cases left <;> cases right <;>
    simp_all [composeCon, extractLayout, DatatypeLayout.recordProp,
      bind, Except.bind, pure, Except.pure]

open DatatypeLayout

/-- For two views of a constructor's argument of which one can be regarded as
the other, the layout of the datatype and with it the terms that build and
inspect its values are the same in both, exactly unless a reference is seen as
`boxed` beside a single nullary constructor. -/
theorem datatypeLayout_regarded [DecidableEq κ] [Inhabited τ] [Inhabited ε]
    (conSet : ConSet κ) (con : String) {actual seen : Property κ}
    {actualTy seenTy : IDCalc.Ty κ}
    (hactual : propertyOf actualTy = some actual)
    (hseen : propertyOf seenTy = some seen)
    (hregarded : canBeRegardedAs actual seen = true) :
    (datatypeLayout (conSet.insert con (some actualTy)) =
        datatypeLayout (conSet.insert con (some seenTy)) ↔
      ¬ (RefSeenAsBoxed actual seen ∧ OneNullaryBeside conSet con)) ∧
    ((∃ left right,
        datatypeLayout (conSet.insert con (some actualTy)) = .ok left ∧
        datatypeLayout (conSet.insert con (some seenTy)) = .ok right ∧
        SameRepresentation τ ε left right) ↔
      ¬ (RefSeenAsBoxed actual seen ∧ OneNullaryBeside conSet con)) := by
  have hlayout := datatypeLayout_eq_iff conSet con hactual hseen hregarded
  refine ⟨hlayout, ?_⟩
  constructor
  · rintro ⟨left, right, hleft, hright, hsame⟩ ⟨href, hbeside⟩
    rcases datatypeLayout_insert conSet con with
      ⟨hnone, -⟩ | ⟨-, hshape⟩ | ⟨hnot, -⟩
    · obtain ⟨name, hname⟩ := hbeside
      rw [hnone] at hname
      cases hname
    · rw [hshape, hactual] at hleft
      rw [hshape, hseen] at hright
      cases hleft
      cases hright
      have hwrap := wrap_eq_of_sameRepresentation hsame
      exact (wrapArgOrNull_regarded hregarded).mp hwrap href
    · exact hnot hbeside
  · intro hcond
    obtain ⟨left, hleft⟩ := datatypeLayout_insert_ok conSet con actualTy
    exact ⟨left, left, hleft, (hlayout.mpr hcond).symm.trans hleft,
      fun _ _ _ _ => rfl, fun _ _ _ _ _ _ _ => rfl⟩

/-- An argument of type `int ref` that another unit sees through
`type t (= boxed)`, in a datatype without a further constructor. -/
theorem datatypeLayout_regarded_ref :
    (¬ (RefSeenAsBoxed (recordProp .layoutRef : Property Unit) boxedProp ∧
      OneNullaryBeside (SortedMap.empty : ConSet Unit) "X") ∧
    datatypeLayout (SortedMap.empty.insert "X" (some (.tyconstruct
        (.tfunDty (.dty (recordProp .layoutRef : Property Unit)))))) =
      datatypeLayout (SortedMap.empty.insert "X" (some (.tyconstruct
        (.tfunDty (.dtyInterface boxedProp)))))) := by
  have hcond : ¬ (RefSeenAsBoxed (recordProp .layoutRef : Property Unit)
      boxedProp ∧ OneNullaryBeside (SortedMap.empty : ConSet Unit) "X") := by
    rintro ⟨-, name, hname⟩
    cases hname
  exact ⟨hcond, (datatypeLayout_regarded (τ := Unit) (ε := Unit)
    SortedMap.empty "X" rfl rfl (by decide)).1.mpr hcond⟩

/-- `datatype s = X of int ref | Y`, where `int ref` is seen as `boxed`. -/
theorem datatypeLayout_regarded_not_eq :
    ¬ ∀ (conSet : ConSet Unit) (con : String) (actual seen : Property Unit)
      (actualTy seenTy : IDCalc.Ty Unit),
      propertyOf actualTy = some actual → propertyOf seenTy = some seen →
      canBeRegardedAs actual seen = true →
      datatypeLayout (conSet.insert con (some actualTy)) =
        datatypeLayout (conSet.insert con (some seenTy)) := by
  intro hall
  have hwrong := hall (SortedMap.ofList [("Y", none)]) "X"
    (recordProp .layoutRef) boxedProp
    (.tyconstruct (.tfunDty (.dty (recordProp .layoutRef))))
    (.tyconstruct (.tfunDty (.dtyInterface boxedProp))) rfl rfl (by decide)
  revert hwrong
  decide

end DatatypeCompilation

end SmlSharp
