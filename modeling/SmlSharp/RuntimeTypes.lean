/-
Runtime types: what the back end knows of the representation of a type.  A
property is a type of which the tag and the size may be open.
-/
import Mathlib.Data.String.Basic

namespace SmlSharp

namespace RuntimeTypes

/-- How the variants of a datatype with tags are laid out. -/
inductive TaggedLayout where
  | taggedRecord (tagMap : List String)
  | taggedOrNull (tagMap : List String) (nullName : String)
  | taggedTagonly (tagMap : List String)
deriving DecidableEq, Repr

/-- How a datatype is implemented. -/
inductive Layout where
  | layoutTagged (tagged : TaggedLayout)
  | layoutArgOrNull (wrap : Bool)
  | layoutSingleArg (wrap : Bool)
  | layoutChoice (falseName : String)
  | layoutSingle
  | layoutRef
deriving DecidableEq, Repr

inductive Tag where
  | boxed
  | unboxed
deriving DecidableEq, Repr

def tagValue : Tag → Nat
  | .boxed => 1
  | .unboxed => 0

inductive TagProp where
  | tag (tag : Tag)
  | anytag
deriving DecidableEq, Repr

/-- The `int ref` cells that stand for sizes.  Two sizes are equal when they
are the same cell, whatever the cells hold. -/
inductive Size where
  | size1
  | size2
  | size4
  | size8
  | pointerSize
  | maxSize
deriving DecidableEq, Repr

inductive SizeProp where
  | size (size : Size)
  | anysize
deriving DecidableEq, Repr

inductive Signed where
  | signed
  | unsigned
deriving DecidableEq, Repr

variable {κ : Type}

/-- Representations.  The descriptor of the code a code pointer points to is a
parameter: it is only ever compared for equality here. -/
inductive Rep (κ : Type) where
  | int (sign : Signed)
  | float
  | ptr
  | cptr
  | codeptr (code : κ)
  | data (layout : Layout)
  | binary
deriving DecidableEq, Repr

structure Ty (κ : Type) where
  tag : Tag
  size : Size
  rep : Rep κ
deriving DecidableEq, Repr

structure Property (κ : Type) where
  tag : TagProp
  size : SizeProp
  rep : Rep κ
deriving DecidableEq, Repr

def recordTy : Ty κ := ⟨.boxed, .pointerSize, .ptr⟩

def boxedTy : Ty κ := ⟨.boxed, .pointerSize, .binary⟩

def contagTy : Ty κ := ⟨.unboxed, .size4, .binary⟩

def tyToProp (ty : Ty κ) : Property κ := ⟨.tag ty.tag, .size ty.size, ty.rep⟩

def recordProp : Property κ := tyToProp recordTy

def boxedProp : Property κ := tyToProp boxedTy

def contagProp : Property κ := tyToProp contagTy

variable [DecidableEq κ]

/-- The case analysis of `canBeRegardedAs` on the representations. -/
def repCanBeRegardedAs : TagProp → Rep κ → Rep κ → Bool
  | .tag .boxed, .data .layoutRef, .ptr => true
  | .tag .boxed, .data _, .binary => true
  | .tag .unboxed, _, .binary => true
  | _, left, right => left = right

def canBeRegardedAs (left right : Property κ) : Bool :=
  left.tag = right.tag && left.size = right.size &&
    repCanBeRegardedAs left.tag left.rep right.rep

theorem canBeRegardedAs_iff (left right : Property κ) :
    canBeRegardedAs left right = true ↔
      left.tag = right.tag ∧ left.size = right.size ∧
        repCanBeRegardedAs left.tag left.rep right.rep = true := by
  simp [canBeRegardedAs, and_assoc]

/-- What the relation on representations allows at the tag `BOXED`. -/
theorem repCanBeRegardedAs_boxed (left right : Rep κ) :
    repCanBeRegardedAs (.tag .boxed) left right = true ↔
      left = right ∨ (left = .data .layoutRef ∧ right = .ptr) ∨
        ∃ layout, left = .data layout ∧ right = .binary := by
  cases left with
  | data layout => cases layout <;> cases right <;> simp [repCanBeRegardedAs]
  | _ => cases right <;> simp [repCanBeRegardedAs]

/-- The representations of pointers that are known never to be null. -/
theorem canBeRegardedAs_recordProp (size : SizeProp) (rep : Rep κ) :
    canBeRegardedAs ⟨.tag .boxed, size, rep⟩ recordProp = true ↔
      size = .size .pointerSize ∧ (rep = .ptr ∨ rep = .data .layoutRef) := by
  simp [canBeRegardedAs_iff, recordProp, recordTy, tyToProp,
    repCanBeRegardedAs_boxed]

end RuntimeTypes

end SmlSharp
