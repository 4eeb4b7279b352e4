/-
Normalisation of types: type abbreviations are expanded and realised cells are
made to refer to what they stand for, by assignment.  The comparison of types
and of constructor specifications normalises what it compares.
-/
import SmlSharp.NameEvaluation.IDCalc
import SmlSharp.Lib.StateExcept

namespace SmlSharp.NameEvaluation

structure NormState where
  heap : Heap
  visitedSet : List Tfv

abbrev Norm := StateT NormState (Except Failure)

abbrev TvarEnv := List (TvarId × Ty)

abbrev TypIdEquiv := TypId → TypId → Bool

/-- `tfv := tfunkind`. -/
def assign (tfv : Tfv) (tfunkind : Tfunkind) : Norm Unit :=
  modify fun state => { state with heap := Function.update state.heap tfv tfunkind }

def resetSet : Norm Unit := modify fun state => { state with visitedSet := [] }

def visit (tfv : Tfv) : Norm Unit :=
  modify fun state => { state with visitedSet := tfv :: state.visitedSet }

def isVisited (tfv : Tfv) : Norm Bool := return (← get).visitedSet.contains tfv

/-- A function of the heap that may fail. -/
def onHeap {α : Type} (f : Heap → Except Failure α) : Norm α := do
  match f (← get).heap with
  | .ok value => pure value
  | .error failure => throw failure

/-- The type names that a map of the ids of each shared list to its first id
identifies; entries of later lists replace those of earlier ones. -/
def makeTypIdEquiv (typIdListList : List (List TypId)) : TypIdEquiv :=
  let typIdEnv : List (TypId × TypId) := typIdListList.foldl
    (fun typIdEnv typIdList =>
      match typIdList with
      | [] => typIdEnv
      | [_] => typIdEnv
      | id0 :: rest => rest.foldl (fun typIdEnv id => (id, id0) :: typIdEnv) typIdEnv) []
  fun id1 id2 => (typIdEnv.lookup id1).getD id1 == (typIdEnv.lookup id2).getD id2

inductive NormalForm where
  | tyName (tfun : Tfun)
  | tyTerm (ty : Ty)

def tyToTvars : List Ty → Option (List Tvar)
  | [] => some []
  | .tyVar tvar :: tyList => (tyToTvars tyList).map (tvar :: ·)
  | _ :: _ => none

def equalTuple : List Tvar → List Tvar → Bool
  | [], [] => true
  | tvar1 :: tvarList1, tvar2 :: tvarList2 =>
    tvar1.id == tvar2.id && equalTuple tvarList1 tvarList2
  | _, _ => false

/-- A type function whose body only applies another type function to its formal
parameters is that type function. -/
def tyForm (formals : Formals) (ty : Ty) : NormalForm :=
  match ty with
  | .tyConstruct tfun args =>
    match tyToTvars args with
    | some tvarList => if equalTuple formals tvarList then .tyName tfun else .tyTerm ty
    | none => .tyTerm ty
  | ty => .tyTerm ty

def interfaceTfun (ifInterface : Bool) (heap : Heap) : Tfun → Tfun
  | .tfunVar tfv =>
    match heap tfv with
    | .tfunDty _ _ _ _ _ (.interface tfun1) => if ifInterface then tfun1 else .tfunVar tfv
    | _ => .tfunVar tfv
  | tfun => tfun

def bindFormals (formals : Formals) (args : List Ty) (tvarEnv : TvarEnv) : TvarEnv :=
  (formals.zip args).foldr (fun pair tvarEnv => (pair.1.id, pair.2) :: tvarEnv) tvarEnv

mutual

def redTy (ifInterface : Bool) : Nat → TvarEnv → Ty → Norm Ty
  | 0, _, _ => throw .diverges
  | _ + 1, _, .tyWild => pure .tyWild
  | _ + 1, _, .tyError => pure .tyError
  | _ + 1, tvarEnv, .tyVar tvar =>
    match tvarEnv.lookup tvar.id with
    | none => pure (.tyVar tvar)
    | some ty => pure ty
  | _ + 1, _, .tyFreeTyvar id => pure (.tyFreeTyvar id)
  | fuel + 1, tvarEnv, .tyRecord ifFlex fields => do
      let fields ← fields.mapM fun field => do
        return (field.1, ← redTy ifInterface fuel tvarEnv field.2)
      return .tyRecord ifFlex fields
  | fuel + 1, tvarEnv, .tyConstruct tfun args => do
      let realTfun := interfaceTfun ifInterface (← get).heap tfun
      let args ← args.mapM fun arg => redTy ifInterface fuel tvarEnv arg
      let tfun ← redTfun ifInterface fuel tvarEnv realTfun
      match ← onHeap fun heap => pruneTfun heap fuel tfun with
      | .tfunDef _ formals realizerTy =>
        redTy ifInterface fuel (bindFormals formals args tvarEnv) realizerTy
      | .tfunVar tfv =>
        match (← get).heap tfv with
        | .tfvSpec .. => return .tyConstruct tfun args
        | .tfvDty .. => return .tyConstruct tfun args
        | .tfunDty .. => return .tyConstruct tfun args
        | .realized .. => throw .bug
        | .instantiated _ tfun => return .tyConstruct tfun args
        | .funDty tfun => return .tyConstruct tfun args
  | fuel + 1, tvarEnv, .tyFunM tyList ty2 => do
      let tyList ← tyList.mapM fun ty => redTy ifInterface fuel tvarEnv ty
      let ty2 ← redTy ifInterface fuel tvarEnv ty2
      return .tyFunM tyList ty2
  | fuel + 1, tvarEnv, .tyPoly kindedTvarList ty => do
      let ty ← redTy ifInterface fuel tvarEnv ty
      return .tyPoly kindedTvarList ty
  | _ + 1, _, .inferredTy => pure .inferredTy

def redTfun (ifInterface : Bool) : Nat → TvarEnv → Tfun → Norm Tfun
  | 0, _, _ => throw .diverges
  | fuel + 1, tvarEnv, .tfunDef admitsEq formals realizerTy => do
      let realizerTy ← redTy ifInterface fuel tvarEnv realizerTy
      match tyForm formals realizerTy with
      | .tyTerm _ => return .tfunDef admitsEq formals realizerTy
      | .tyName tfun => return tfun
  | fuel + 1, tvarEnv, .tfunVar tfv => do
      match (← get).heap tfv with
      | .tfvSpec .. => return .tfunVar tfv
      | .tfunDty id admitsEq formals conSpec liftedTys dtyKind =>
        if ← isVisited tfv then return .tfunVar tfv
        else
          visit tfv
          let conSpec ← redConSpec ifInterface fuel tvarEnv conSpec
          assign tfv (.tfunDty id admitsEq formals conSpec liftedTys dtyKind)
          return .tfunVar tfv
      | .tfvDty id admitsEq formals conSpec liftedTys =>
        if ← isVisited tfv then return .tfunVar tfv
        else
          visit tfv
          let conSpec ← redConSpec ifInterface fuel tvarEnv conSpec
          assign tfv (.tfvDty id admitsEq formals conSpec liftedTys)
          return .tfunVar tfv
      | .realized id newTfun =>
        let newTfun ← redTfun ifInterface fuel tvarEnv newTfun
        assign tfv (.realized id newTfun)
        return newTfun
      | .instantiated tfunkind newTfun =>
        let newTfun ← redTfun ifInterface fuel tvarEnv newTfun
        assign tfv (.instantiated tfunkind newTfun)
        return .tfunVar tfv
      | .funDty _ => return .tfunVar tfv

def redConSpec (ifInterface : Bool) : Nat → TvarEnv → ConSpec → Norm ConSpec
  | 0, _, _ => throw .diverges
  | fuel + 1, tvarEnv, conSpec => conSpec.mapM fun con => do
      match con.2 with
      | none => return (con.1, none)
      | some ty => return (con.1, some (← redTy ifInterface fuel tvarEnv ty))

end

def reduceTy (ifInterface : Bool) (fuel : Nat) (tvarEnv : TvarEnv) (ty : Ty) : Norm Ty := do
  resetSet
  redTy ifInterface fuel tvarEnv ty

abbrev TvarIdEquiv := List (TvarId × TvarId)

def tvequiv (eqEnv : TvarIdEquiv) (id1 id2 : TvarId) : Bool :=
  id1 == id2 || (eqEnv.lookup id1).getD id1 == (eqEnv.lookup id2).getD id2

/-- The map of the first list's type variables to the second's. -/
def bindTvars (pairs : List (Tvar × Tvar)) (equiv : TvarIdEquiv) : TvarIdEquiv :=
  pairs.foldl (fun equiv pair => (pair.1.id, pair.2.id) :: equiv) equiv

/-- What a type function is at the moment. -/
inductive Seen where
  | tfunDef (formals : Formals) (realizerTy : Ty)
  | tfunVar (tfunkind : Tfunkind)

def seen (heap : Heap) : Tfun → Seen
  | .tfunDef _ formals realizerTy => .tfunDef formals realizerTy
  | .tfunVar tfv => .tfunVar (heap tfv)

mutual

def equalTfun (ifInterface : Bool) (typIdEquiv : TypIdEquiv) :
    Nat → Tfun → Tfun → Norm Bool
  | 0, _, _ => throw .diverges
  | fuel + 1, tfun1, tfun2 => do
      match seen (← get).heap tfun1, seen (← get).heap tfun2 with
      | .tfunVar (.realized _ tfun), _ => equalTfun ifInterface typIdEquiv fuel tfun tfun2
      | _, .tfunVar (.realized _ tfun) => equalTfun ifInterface typIdEquiv fuel tfun1 tfun
      | .tfunVar (.instantiated _ tfun), _ => equalTfun ifInterface typIdEquiv fuel tfun tfun2
      | _, .tfunVar (.instantiated _ tfun) => equalTfun ifInterface typIdEquiv fuel tfun1 tfun
      | .tfunDef formals1 ty1, .tfunDef formals2 ty2 =>
        equalTy ifInterface typIdEquiv fuel (bindTvars (formals1.zip formals2) []) ty1 ty2
      | .tfunVar (.tfvSpec id1 _ _), .tfunVar (.tfvSpec id2 _ _) =>
        return typIdEquiv id1 id2
      | .tfunVar (.tfvDty id1 _ _ _ _), .tfunVar (.tfvDty id2 _ _ _ _) =>
        return typIdEquiv id1 id2
      | .tfunVar (.tfunDty id1 _ _ _ _ (.interface tfun1)),
          .tfunVar (.tfunDty id2 _ _ _ _ _) =>
          if typIdEquiv id1 id2 then return true
          else if ifInterface then equalTfun ifInterface typIdEquiv fuel tfun1 tfun2
          else return false
      | .tfunVar (.tfunDty _ _ _ _ _ (.interface tfun1)), _ =>
        if ifInterface then equalTfun ifInterface typIdEquiv fuel tfun1 tfun2
        else return false
      | .tfunVar (.tfunDty id1 _ _ _ _ _),
          .tfunVar (.tfunDty id2 _ _ _ _ (.interface tfun2)) =>
          if typIdEquiv id1 id2 then return true
          else if ifInterface then equalTfun ifInterface typIdEquiv fuel tfun1 tfun2
          else return false
      | _, .tfunVar (.tfunDty _ _ _ _ _ (.interface tfun2)) =>
        if ifInterface then equalTfun ifInterface typIdEquiv fuel tfun1 tfun2
        else return false
      | .tfunVar (.tfunDty id1 _ _ _ _ _), .tfunVar (.tfunDty id2 _ _ _ _ _) =>
        return typIdEquiv id1 id2
      | .tfunVar (.funDty tfun), _ => equalTfun ifInterface typIdEquiv fuel tfun tfun2
      | _, .tfunVar (.funDty tfun) => equalTfun ifInterface typIdEquiv fuel tfun1 tfun
      | _, _ => return false

def equalTy (ifInterface : Bool) (typIdEquiv : TypIdEquiv) :
    Nat → TvarIdEquiv → Ty → Ty → Norm Bool
  | 0, _, _, _ => throw .diverges
  | fuel + 1, tvarIdEquiv, ty1, ty2 => do
      let ty1 ← reduceTy ifInterface fuel [] ty1
      let ty2 ← reduceTy ifInterface fuel [] ty2
      match ty1, ty2 with
      | .tyWild, .tyWild => return true
      | .tyError, _ => return true
      | _, .tyError => return true
      | .tyVar tvar1, .tyVar tvar2 => return tvequiv tvarIdEquiv tvar1.id tvar2.id
      | .tyFreeTyvar id1, .tyFreeTyvar id2 => return tvequiv tvarIdEquiv id1 id2
      | .tyRecord _ fields1, .tyRecord _ fields2 =>
        equalFields ifInterface typIdEquiv fuel tvarIdEquiv fields1 fields2 fields2
      | .tyFunM tyList1 ty12, .tyFunM tyList2 ty22 =>
        if ← equalTy ifInterface typIdEquiv fuel tvarIdEquiv ty12 ty22 then
          if tyList1.length = tyList2.length then
            equalTys ifInterface typIdEquiv fuel tvarIdEquiv (tyList1.zip tyList2)
          else return false
        else return false
      | .tyPoly kindedTvars1 bodyTy1, .tyPoly kindedTvars2 bodyTy2 =>
        if kindedTvars1.length = kindedTvars2.length then
          let boundPairs := kindedTvars1.zip kindedTvars2
          let tvarIdEquiv :=
            bindTvars (boundPairs.map fun pair => (pair.1.1, pair.2.1)) tvarIdEquiv
          if ← equalKinds ifInterface typIdEquiv fuel tvarIdEquiv
              (boundPairs.map fun pair => (pair.1.2, pair.2.2)) then
            equalTy ifInterface typIdEquiv fuel tvarIdEquiv bodyTy1 bodyTy2
          else return false
        else return false
      | .tyConstruct tfun1 args1, .tyConstruct tfun2 args2 =>
        if ← equalTfun ifInterface typIdEquiv fuel tfun1 tfun2 then
          if args1.length = args2.length then
            equalTys ifInterface typIdEquiv fuel tvarIdEquiv (args1.zip args2)
          else return false
        else return false
      | _, _ => return false

def equalTys (ifInterface : Bool) (typIdEquiv : TypIdEquiv) :
    Nat → TvarIdEquiv → List (Ty × Ty) → Norm Bool
  | 0, _, _ => throw .diverges
  | _ + 1, _, [] => return true
  | fuel + 1, tvarIdEquiv, (ty1, ty2) :: rest => do
      if ← equalTy ifInterface typIdEquiv fuel tvarIdEquiv ty1 ty2 then
        equalTys ifInterface typIdEquiv fuel tvarIdEquiv rest
      else return false

def equalKinds (ifInterface : Bool) (typIdEquiv : TypIdEquiv) :
    Nat → TvarIdEquiv → List (TvarKind × TvarKind) → Norm Bool
  | 0, _, _ => throw .diverges
  | _ + 1, _, [] => return true
  | fuel + 1, tvarIdEquiv, (kind1, kind2) :: rest => do
      if ← equalKind ifInterface typIdEquiv fuel tvarIdEquiv kind1 kind2 then
        equalKinds ifInterface typIdEquiv fuel tvarIdEquiv rest
      else return false

def equalKind (ifInterface : Bool) (typIdEquiv : TypIdEquiv) :
    Nat → TvarIdEquiv → TvarKind → TvarKind → Norm Bool
  | 0, _, _, _ => throw .diverges
  | _ + 1, _, .univ prop1, .univ prop2 => return prop1 == prop2
  | fuel + 1, tvarIdEquiv, .recKind prop1 fields1, .recKind prop2 fields2 =>
    if prop1 == prop2 then
      equalFields ifInterface typIdEquiv fuel tvarIdEquiv fields1 fields2 fields2
    else return false
  | _ + 1, _, _, _ => return false

/-- The fields of the second record that are not compared yet are the last
argument. -/
def equalFields (ifInterface : Bool) (typIdEquiv : TypIdEquiv) :
    Nat → TvarIdEquiv → List (String × Ty) → List (String × Ty) → List (String × Ty) →
      Norm Bool
  | 0, _, _, _, _ => throw .diverges
  | _ + 1, _, [], _, left => return left.isEmpty
  | fuel + 1, tvarIdEquiv, (name, ty1) :: rest, fields2, left =>
    match fields2.lookup name with
    | none => return false
    | some ty2 => do
        if ← equalTy ifInterface typIdEquiv fuel tvarIdEquiv ty1 ty2 then
          equalFields ifInterface typIdEquiv fuel tvarIdEquiv rest fields2
            (left.filter fun field => field.1 ≠ name)
        else return false

end

/-- The constructors of the first specification are compared with those of the
second under the same names; the result is the names whose argument types
differ, the names that the second lacks, and what remains of the second. -/
def compareCons (typIdEquiv : TypIdEquiv) (fuel : Nat) (tvarIdEquiv : TvarIdEquiv) :
    ConSpec → List String × List String × ConSpec → Norm (List String × List String × ConSpec)
  | [], found => pure found
  | (name, tyopt1) :: rest, (tyerrors, nameList1, conSpec2) =>
    match conSpec2.lookup name with
    | none => compareCons typIdEquiv fuel tvarIdEquiv rest
        (tyerrors, name :: nameList1, conSpec2)
    | some tyopt2 => do
        let conSpec2 := conSpec2.filter fun con => con.1 ≠ name
        let same ← match tyopt1, tyopt2 with
          | none, none => pure true
          | some _, none => pure false
          | none, some _ => pure false
          | some ty1, some ty2 => equalTy false typIdEquiv fuel tvarIdEquiv ty1 ty2
        if same then
          compareCons typIdEquiv fuel tvarIdEquiv rest (tyerrors, nameList1, conSpec2)
        else
          compareCons typIdEquiv fuel tvarIdEquiv rest
            (name :: tyerrors, nameList1, conSpec2)

/-- Whether the comparison of two constructor specifications succeeds. -/
def checkConSpec (typIdEquiv : TypIdEquiv) (fuel : Nat) (formals1 : Formals)
    (conSpec1 : ConSpec) (formals2 : Formals) (conSpec2 : ConSpec) : Norm Bool := do
  let (tyerrors, nameList1, conSpec2) ← compareCons typIdEquiv fuel
    (bindTvars (formals1.zip formals2) []) conSpec1 ([], [], conSpec2)
  return formals1.length == formals2.length && tyerrors.isEmpty && nameList1.isEmpty &&
    conSpec2.isEmpty

end SmlSharp.NameEvaluation
