/-
The values of equality types whose representation is a pointer, their layout in
words, and the objects that represent them.  Record padding is zero.
-/
import SmlSharp.ObjEqual.Cells

namespace SmlSharp

namespace ObjEqual

/-- A field of a record: raw data `β`, or something behind a pointer. -/
inductive Field (β α : Type) where
  | raw (data : β)
  | boxed (content : α)
deriving DecidableEq

inductive Val where
  | null
  | intinf (n : Int)
  /-- An array or a reference, which is its address. -/
  | array (addr : Word)
  /-- A vector of unboxed elements, or a string with the zero behind it. -/
  | bytes (elems : List (List UInt8))
  /-- A record, a constructor with its tag, or a vector of boxed elements. -/
  | block (fields : List (Field (List UInt8) Val))

/-- Equality types without type variables, and the datatypes by name; the raw data
of a field type is its size. -/
inductive Ty (Name : Type) where
  | intInf
  | array
  | string
  | bytes (size : Nat)
  | vector (elem : Ty Name)
  | record (fields : List (Field Nat (Ty Name)))
  | data (name : Name)

abbrev FieldTy (Name : Type) := Field Nat (Ty Name)

/-- The layouts of a datatype of boxed values: constructors by their tag, with or
without a null pointer for one more; one constructor whose argument is the value;
and a null pointer or the argument of the other constructor. -/
inductive DataTy (Name : Type) where
  | tagged (hasNull : Bool) (con : List UInt8 → Option (List (FieldTy Name)))
  | singleArg (ty : Ty Name)
  | argOrNull (ty : Ty Name)

def FieldMatches {Name : Type} : FieldTy Name → Field (List UInt8) Val → Prop
  | .raw size, .raw data => data.length = size ∧ size ∈ [1, 2, 4, 8]
  | .boxed _, .boxed _ => True
  | _, _ => False

section Types

variable {Name : Type} (env : Name → DataTy Name)

/-- The values of a type.  The argument of an `argOrNull` constructor is not null,
since null is the other constructor. -/
inductive HasType : Ty Name → Val → Prop where
  | intInf (n : Int) : HasType .intInf (.intinf n)
  | array (addr : Word) : HasType .array (.array addr)
  | string (chars : List UInt8) :
      HasType .string (.bytes (chars.map (fun c => [c]) ++ [[0]]))
  | bytes {size : Nat} {elems : List (List UInt8)} :
      0 < size → (∀ elem ∈ elems, elem.length = size) →
        HasType (.bytes size) (.bytes elems)
  | vector {elem : Ty Name} {vals : List Val} :
      (∀ val ∈ vals, HasType elem val) →
        HasType (.vector elem) (.block (vals.map .boxed))
  | record {tys : List (FieldTy Name)} {fields : List (Field (List UInt8) Val)} :
      List.Forall₂ FieldMatches tys fields →
      (∀ ty val, (.boxed ty, .boxed val) ∈ tys.zip fields → HasType ty val) →
        HasType (.record tys) (.block fields)
  | con {name : Name} {hasNull : Bool}
      {con : List UInt8 → Option (List (FieldTy Name))} {tag : List UInt8}
      {tys : List (FieldTy Name)} {fields : List (Field (List UInt8) Val)} :
      env name = .tagged hasNull con → con tag = some tys → tag.length = 4 →
      List.Forall₂ FieldMatches tys fields →
      (∀ ty val, (.boxed ty, .boxed val) ∈ tys.zip fields → HasType ty val) →
        HasType (.data name) (.block (.raw tag :: fields))
  | nullCon {name : Name} {con : List UInt8 → Option (List (FieldTy Name))} :
      env name = .tagged true con → HasType (.data name) .null
  | singleArg {name : Name} {ty : Ty Name} {val : Val} :
      env name = .singleArg ty → HasType ty val → HasType (.data name) val
  | null {name : Name} {ty : Ty Name} :
      env name = .argOrNull ty → HasType (.data name) .null
  | arg {name : Name} {ty : Ty Name} {val : Val} :
      env name = .argOrNull ty → HasType ty val → val ≠ .null →
        HasType (.data name) val

end Types

/-! ### Layout -/

/-- A word of a payload: raw data, or the pointer to a value. -/
inductive Cell where
  | raw (w : Word)
  | ptr (val : Val)

/-- Zeros up to a multiple of `size`. -/
def padTo (size : Nat) (bytes : List UInt8) : List UInt8 :=
  bytes ++ List.replicate ((size - bytes.length % size) % size) 0

/-- The word that is being filled, with zeros behind its bytes. -/
def flush : List UInt8 → List Cell
  | [] => []
  | pending => [.raw (padTo wordSize pending)]

/-- The words of a record whose fields are aligned to their sizes; `pending` are the
bytes of the word that is being filled. -/
def layout (pending : List UInt8) : List (Field (List UInt8) Val) → List Cell
  | [] => flush pending
  | .boxed val :: fields => flush pending ++ .ptr val :: layout [] fields
  | .raw data :: fields =>
    let bytes := padTo data.length pending ++ data
    if bytes.length ≤ wordSize then layout bytes fields
    else .raw (bytes.take wordSize) :: layout (bytes.drop wordSize) fields

/-- The tagged word is that of the cell, its pointer left open. -/
def Stores : TaggedWord → Cell → Prop
  | (tag, w), .raw w' => tag = false ∧ w = w'
  | (tag, _), .ptr _ => tag = true

/-- An object of raw data: an unboxed vector, or a record without pointers. -/
def Obj.Raw (obj : Obj) : Prop :=
  obj.objType = .unboxedVector ∨
    (obj.objType = .record ∧ ∃ cells, obj.Cells cells ∧ ∀ cell ∈ cells, cell.1 = false)

/-- `sizeof(sml_intinf_t)`. -/
def intinfSize : Nat := 16

/-- The word represents the value.  Representations are finite, so that no value
contains itself. -/
inductive Rep (heap : Heap) : Word → Val → Prop where
  | null : Rep heap ObjEqual.null .null
  | intinf {p : Word} {obj : Obj} :
      p ≠ ObjEqual.null → heap p = some obj → obj.objType = .intinf →
      obj.size = intinfSize → Rep heap p (.intinf obj.intinf)
  | array {p : Word} {obj : Obj} :
      p ≠ ObjEqual.null → heap p = some obj →
      obj.objType = .unboxedArray ∨ obj.objType = .boxedArray → Rep heap p (.array p)
  | bytes {p : Word} {obj : Obj} {elems : List (List UInt8)} :
      p ≠ ObjEqual.null → heap p = some obj → obj.Raw →
      obj.payload = elems.flatten → Rep heap p (.bytes elems)
  | block {p : Word} {obj : Obj} {cells : List TaggedWord}
      {fields : List (Field (List UInt8) Val)} :
      p ≠ ObjEqual.null → heap p = some obj → obj.Cells cells →
      List.Forall₂ Stores cells (layout [] fields) →
      (∀ w val, ((true, w), .ptr val) ∈ cells.zip (layout [] fields) →
        Rep heap w val) →
        Rep heap p (.block fields)

/-! ### Padding -/

theorem length_padTo (size : Nat) (bytes bytes' : List UInt8)
    (h : bytes.length = bytes'.length) :
    (padTo size bytes).length = (padTo size bytes').length := by
  simp [padTo, h]

theorem padTo_injective {size : Nat} {bytes bytes' : List UInt8}
    (hlen : bytes.length = bytes'.length) (h : padTo size bytes = padTo size bytes') :
    bytes = bytes' :=
  (List.append_inj h hlen).1

theorem prefix_padTo (size : Nat) (bytes : List UInt8) : bytes <+: padTo size bytes :=
  List.prefix_append _ _

theorem flush_length (bytes bytes' : List UInt8) (h : bytes.length = bytes'.length) :
    (flush bytes).length = (flush bytes').length := by
  cases bytes with
  | nil =>
    have hnil : bytes' = [] := List.eq_nil_of_length_eq_zero h.symm
    rw [hnil]
  | cons b bytes =>
    cases bytes' with
    | nil => cases h
    | cons b' bytes' => rfl

theorem flush_injective {bytes bytes' : List UInt8} (hlen : bytes.length = bytes'.length)
    (h : flush bytes = flush bytes') : bytes = bytes' := by
  cases bytes with
  | nil => exact (List.eq_nil_of_length_eq_zero hlen.symm).symm
  | cons b bytes =>
    cases bytes' with
    | nil => cases hlen
    | cons b' bytes' =>
      have hword : padTo wordSize (b :: bytes) = padTo wordSize (b' :: bytes') := by
        injection h with hcell
        injection hcell
      exact padTo_injective hlen hword

end ObjEqual

end SmlSharp
