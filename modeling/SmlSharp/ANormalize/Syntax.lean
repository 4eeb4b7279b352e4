/-
The runtime calculus and the A-normal forms it is translated to.
-/
import Mathlib.Logic.Basic

namespace SmlSharp

namespace ANormalize

/-- The labels of local code: those of the terms to be translated, and those
that `FunLocalLabel.generate` hands out during the translation. -/
inductive FunLocalLabel where
  | source (id : Nat)
  | generated (id : Nat)
deriving DecidableEq, Repr

inductive Cast where
  | bitCast
  | typeCast
deriving DecidableEq, Repr

/-- A variable with the type and the runtime type that its type stands for. -/
structure VarInfo (τ : Type) where
  id : Nat
  ty : τ
deriving DecidableEq, Repr

/-- Constants.  Those that the translation does not look at are of type `α`, as
are the annotations that it only copies. -/
inductive NCConst (τ α : Type) where
  | nvUnit
  | nvFunEntry (id : Nat)
  | nvCast (value : NCConst τ α) (valueTy targetTy : τ) (cast : Cast)
  | other (const : α)

/-- How a field of a record is initialised, over values `ν`. -/
inductive InitField (τ α ν : Type) where
  | initConst (const : NCConst τ α) (ty : τ)
  | initValue (value : ν)
  | initCopy (srcExp fieldSize : ν)
  | initIf (tagExp : ν) (tagOfTy : α) (ifBoxed ifUnboxed : InitField τ α ν)

mutual

inductive NCExp (τ α ℓ : Type) where
  | ncForeignApply (funExp : NCExp τ α ℓ) (attributes : α) (argExpList : List (NCExp τ α ℓ))
      (resultTy : Option τ) (loc : ℓ)
  | ncExportCallback (codeExp closureEnvExp : NCExp τ α ℓ) (instTyvars : α) (resultTy : τ)
      (loc : ℓ)
  | ncConst (const : NCConst τ α) (ty : τ) (loc : ℓ)
  | ncIntInf (srcLabel : Nat) (loc : ℓ)
  | ncVar (varInfo : VarInfo τ) (loc : ℓ)
  | ncExVar (id : Nat) (ty : τ) (loc : ℓ)
  | ncPack (exp : NCExp τ α ℓ) (expTy : τ) (loc : ℓ)
  | ncUnpack (exp : NCExp τ α ℓ) (resultTy : τ) (loc : ℓ)
  | ncDup (srcAddr : NCAddress τ α ℓ) (resultTy : τ) (valueSize : NCExp τ α ℓ) (loc : ℓ)
  | ncLoad (srcAddr : NCAddress τ α ℓ) (resultTy : τ) (loc : ℓ)
  | ncCopy (srcExp : NCExp τ α ℓ) (dstAddr : NCAddress τ α ℓ) (valueSize : NCExp τ α ℓ)
      (loc : ℓ)
  | ncStore (srcExp : NCExp τ α ℓ) (srcTy : τ) (dstAddr : NCAddress τ α ℓ) (loc : ℓ)
  | ncPrimApply (primInfo : α) (argExpList : List (NCExp τ α ℓ)) (argTyList : List τ)
      (resultTy : τ) (instTyList : List τ) (instTagList instSizeList : List (NCExp τ α ℓ))
      (loc : ℓ)
  | ncCall (codeExp : NCExp τ α ℓ) (closureEnvExp : Option (NCExp τ α ℓ))
      (argExpList : List (NCExp τ α ℓ)) (resultTy : τ) (loc : ℓ)
  | ncLet (boundVar : VarInfo τ) (boundExp mainExp : NCExp τ α ℓ) (loc : ℓ)
  | ncRecord (fieldList : List (NCField τ α ℓ)) (recordTy : τ) (isMutable clearPad : Bool)
      (allocSizeExp : NCExp τ α ℓ) (bitmaps : List (NCBitmap τ α ℓ)) (loc : ℓ)
  | ncModify (recordExp : NCExp τ α ℓ) (recordTy : τ) (indexExp : NCExp τ α ℓ)
      (valueExp : InitField τ α (VarInfo τ)) (valueTy : τ) (loc : ℓ)
  | ncRaise (argExp : NCExp τ α ℓ) (resultTy : τ) (loc : ℓ)
  | ncHandle (tryExp : NCExp τ α ℓ) (exnVar : VarInfo τ) (handlerExp : NCExp τ α ℓ)
      (resultTy : τ) (loc : ℓ)
  | ncSwitch (switchExp : NCExp τ α ℓ) (expTy : τ) (branches : List (NCBranch τ α ℓ))
      (defaultExp : NCExp τ α ℓ) (resultTy : τ) (loc : ℓ)
  | ncCatch (catchLabel : Nat) (argVarList : List (VarInfo τ)) (catchExp tryExp : NCExp τ α ℓ)
      (resultTy : τ) (loc : ℓ)
  | ncThrow (catchLabel : Nat) (argExpList : List (NCExp τ α ℓ)) (resultTy : τ) (loc : ℓ)
  | ncCast (exp : NCExp τ α ℓ) (expTy targetTy : τ) (cast : Cast) (loc : ℓ)
  | ncExportVar (id : Nat) (ty : τ) (valueExp : NCExp τ α ℓ) (loc : ℓ)

inductive NCAddress (τ α ℓ : Type) where
  | naPtr (ptrExp : NCExp τ α ℓ)
  | naRecordField (recordExp fieldIndex : NCExp τ α ℓ)
  | naArrayElem (arrayExp elemSize elemIndex : NCExp τ α ℓ)

inductive NCField (τ α ℓ : Type) where
  | mk (fieldExp : InitField τ α (VarInfo τ)) (fieldTy : τ) (fieldIndex : NCExp τ α ℓ)

inductive NCBitmap (τ α ℓ : Type) where
  | mk (bitmapIndex bitmapExp : NCExp τ α ℓ)

inductive NCBranch (τ α ℓ : Type) where
  | mk (constant : NCConst τ α) (branchExp : NCExp τ α ℓ)

end

inductive NCTopdec (τ α ℓ : Type) where
  | ntFunction (id : Nat) (tyvarKindEnv : α) (argVarList : List (VarInfo τ))
      (closureEnvVar : Option (VarInfo τ)) (bodyExp : NCExp τ α ℓ) (retTy : τ)
      (gcCheck : Bool) (loc : ℓ)
  | ntCallbackFunction (id : Nat) (tyvarKindEnv : α) (argVarList : List (VarInfo τ))
      (closureEnvVar : Option (VarInfo τ)) (bodyExp : NCExp τ α ℓ) (attributes : α)
      (retTy : Option τ) (loc : ℓ)

structure NCProgram (τ α ℓ : Type) where
  topdata : List α
  topdecs : List (NCTopdec τ α ℓ)
  topExp : NCExp τ α ℓ

/-! A-normal forms. -/

inductive ANValue (τ α : Type) where
  | anConst (const : NCConst τ α) (ty : τ)
  | anVar (varInfo : VarInfo τ)
  | anCast (exp : ANValue τ α) (expTy targetTy : τ)
  | anBottom

inductive ANAddress (τ α : Type) where
  | aaPtr (ptrExp : ANValue τ α)
  | aaRecordField (recordExp fieldIndex : ANValue τ α)
  | aaArrayElem (arrayExp elemSize elemIndex : ANValue τ α)

structure ANField (τ α : Type) where
  fieldExp : InitField τ α (ANValue τ α)
  fieldTy : τ
  fieldIndex : ANValue τ α

structure ANBitmap (τ α : Type) where
  bitmapIndex : ANValue τ α
  bitmapExp : ANValue τ α

inductive ANExp (τ α ℓ : Type) where
  | anIntInf (resultVar : VarInfo τ) (dataLabel : Nat) (nextExp : ANExp τ α ℓ) (loc : ℓ)
  | anForeignApply (resultVar : Option (VarInfo τ)) (funExp : ANValue τ α)
      (argExpList : List (ANValue τ α)) (attributes : α) (handler : Option Nat)
      (nextExp : ANExp τ α ℓ) (loc : ℓ)
  | anExportCallback (resultVar : VarInfo τ) (codeExp closureEnvExp : ANValue τ α)
      (instTyvars : α) (nextExp : ANExp τ α ℓ) (loc : ℓ)
  | anExVar (resultVar : VarInfo τ) (id : Nat) (nextExp : ANExp τ α ℓ) (loc : ℓ)
  | anPack (resultVar : VarInfo τ) (exp : ANValue τ α) (expTy : τ) (nextExp : ANExp τ α ℓ)
      (loc : ℓ)
  | anUnpack (resultVar : VarInfo τ) (exp : ANValue τ α) (nextExp : ANExp τ α ℓ) (loc : ℓ)
  | anDup (resultVar : VarInfo τ) (srcAddr : ANAddress τ α) (valueSize : ANValue τ α)
      (nextExp : ANExp τ α ℓ) (loc : ℓ)
  | anLoad (resultVar : VarInfo τ) (srcAddr : ANAddress τ α) (nextExp : ANExp τ α ℓ) (loc : ℓ)
  | anPrimApply (resultVar : VarInfo τ) (primInfo : α) (argExpList : List (ANValue τ α))
      (argTyList : List τ) (resultTy : τ) (instTyList : List τ)
      (instTagList instSizeList : List (ANValue τ α)) (nextExp : ANExp τ α ℓ) (loc : ℓ)
  | anBitcast (resultVar : VarInfo τ) (exp : ANValue τ α) (expTy targetTy : τ)
      (nextExp : ANExp τ α ℓ) (loc : ℓ)
  | anCall (resultVar : VarInfo τ) (codeExp : ANValue τ α) (closureEnvExp : Option (ANValue τ α))
      (argExpList : List (ANValue τ α)) (handler : Option Nat) (nextExp : ANExp τ α ℓ) (loc : ℓ)
  | anTailCall (resultTy : τ) (codeExp : ANValue τ α) (closureEnvExp : Option (ANValue τ α))
      (argExpList : List (ANValue τ α)) (loc : ℓ)
  | anRecord (resultVar : VarInfo τ) (fieldList : List (ANField τ α)) (isMutable clearPad : Bool)
      (allocSizeExp : ANValue τ α) (bitmaps : List (ANBitmap τ α)) (nextExp : ANExp τ α ℓ)
      (loc : ℓ)
  | anModify (resultVar : VarInfo τ) (recordExp indexExp : ANValue τ α)
      (valueExp : InitField τ α (ANValue τ α)) (valueTy : τ) (nextExp : ANExp τ α ℓ) (loc : ℓ)
  | anReturn (value : ANValue τ α) (ty : τ) (loc : ℓ)
  | anCopy (srcExp : ANValue τ α) (dstAddr : ANAddress τ α) (valueSize : ANValue τ α)
      (nextExp : ANExp τ α ℓ) (loc : ℓ)
  | anStore (srcExp : ANValue τ α) (srcTy : τ) (dstAddr : ANAddress τ α)
      (nextExp : ANExp τ α ℓ) (loc : ℓ)
  | anExportVar (id : Nat) (ty : τ) (valueExp : ANValue τ α) (nextExp : ANExp τ α ℓ) (loc : ℓ)
  | anRaise (argExp : ANValue τ α) (cleanup : Option Nat) (loc : ℓ)
  | anHandler (nextExp : ANExp τ α ℓ) (id : Nat) (exnVar : VarInfo τ)
      (handlerExp : ANExp τ α ℓ) (cleanup : Option Nat) (loc : ℓ)
  | anSwitch (switchExp : ANValue τ α) (expTy : τ)
      (branches : List (NCConst τ α × FunLocalLabel)) (default : FunLocalLabel) (loc : ℓ)
  | anLocalCode (id : FunLocalLabel) (recursive : Bool) (argVarList : List (VarInfo τ))
      (bodyExp nextExp : ANExp τ α ℓ) (loc : ℓ)
  | anGoto (id : FunLocalLabel) (argList : List (ANValue τ α)) (loc : ℓ)
  | anUnreachable

inductive ANTopdec (τ α ℓ : Type) where
  | atFunction (id : Nat) (tyvarKindEnv : α) (argVarList : List (VarInfo τ))
      (closureEnvVar : Option (VarInfo τ)) (bodyExp : ANExp τ α ℓ) (retTy : τ)
      (gcCheck : Bool) (loc : ℓ)
  | atCallbackFunction (id : Nat) (tyvarKindEnv : α) (argVarList : List (VarInfo τ))
      (closureEnvVar : Option (VarInfo τ)) (bodyExp : ANExp τ α ℓ) (attributes : α)
      (retTy : Option τ) (cleanupHandler : Option Nat) (loc : ℓ)

structure ANProgram (τ α ℓ : Type) where
  topdata : List α
  topdecs : List (ANTopdec τ α ℓ)
  topExp : ANExp τ α ℓ
  topCleanupHandler : Option Nat

end ANormalize

end SmlSharp
