/-
Lists of bytes read as arrays of elements of one size, and the replacement of
a range of the bytes.
-/
import Mathlib.Data.List.Basic
import Mathlib.Tactic.Ring

namespace SmlSharp

namespace ElementArray

universe u

variable {β : Type u}

/-- The bytes of the element at an index. -/
def element (size : Nat) (bytes : List β) (index : Nat) : List β :=
  (bytes.drop (size * index)).take size

/-- The bytes from an offset on replaced by the stored ones. -/
def splice (offset : Nat) (stored bytes : List β) : List β :=
  bytes.take offset ++ stored ++ bytes.drop (offset + stored.length)

theorem getElem?_element (size : Nat) (bytes : List β) (index i : Nat) :
    (element size bytes index)[i]? =
      if i < size then bytes[size * index + i]? else none := by
  simp [element, List.getElem?_take, List.getElem?_drop]

theorem length_splice {offset : Nat} {stored bytes : List β}
    (hfit : offset + stored.length ≤ bytes.length) :
    (splice offset stored bytes).length = bytes.length := by
  simp only [splice, List.length_append, List.length_take, List.length_drop]
  omega

theorem getElem?_splice {offset : Nat} {stored bytes : List β}
    (hfit : offset + stored.length ≤ bytes.length) (i : Nat) :
    (splice offset stored bytes)[i]? =
      if offset ≤ i ∧ i < offset + stored.length then stored[i - offset]?
      else bytes[i]? := by
  have htake : (bytes.take offset).length = offset := by
    rw [List.length_take]
    omega
  rw [splice, List.append_assoc]
  by_cases hbelow : i < offset
  · rw [List.getElem?_append_left (by omega), List.getElem?_take_of_lt hbelow,
      if_neg (by omega)]
  · rw [List.getElem?_append_right (by omega), htake]
    by_cases hinside : i < offset + stored.length
    · rw [List.getElem?_append_left (by omega), if_pos (by omega)]
    · rw [List.getElem?_append_right (by omega), List.getElem?_drop,
        if_neg (by omega)]
      congr 1
      omega

@[simp]
theorem splice_nil (offset : Nat) (bytes : List β) : splice offset [] bytes = bytes := by
  simp [splice]

/-- Two stores, one behind the other. -/
theorem splice_splice {offset : Nat} {first second bytes : List β}
    (hfit : offset + first.length ≤ bytes.length) :
    splice (offset + first.length) second (splice offset first bytes) =
      splice offset (first ++ second) bytes := by
  have hlen : (bytes.take offset ++ first).length = offset + first.length := by
    rw [List.length_append, List.length_take, Nat.min_eq_left (by omega)]
  have htake : (splice offset first bytes).take (offset + first.length) =
      bytes.take offset ++ first := List.take_left' hlen
  have hdrop : (splice offset first bytes).drop (offset + first.length + second.length) =
      bytes.drop (offset + (first ++ second).length) := by
    have hsum : offset + (first ++ second).length =
        offset + first.length + second.length := by
      rw [List.length_append, Nat.add_assoc]
    rw [hsum, splice, ← List.drop_drop, List.drop_left' hlen, List.drop_drop]
  calc splice (offset + first.length) second (splice offset first bytes)
      = bytes.take offset ++ first ++ second ++
          bytes.drop (offset + (first ++ second).length) := by
        rw [← htake, ← hdrop, splice]
    _ = splice offset (first ++ second) bytes := by
        rw [splice, List.append_assoc _ first]

theorem set_eq_splice {offset : Nat} {bytes : List β} (hfit : offset < bytes.length) (b : β) :
    bytes.set offset b = splice offset [b] bytes := by
  rw [List.set_eq_take_append_cons_drop, if_pos hfit, splice, List.append_assoc]
  rfl

/-- A store over the whole. -/
theorem splice_of_length_eq {stored bytes : List β} (hlen : stored.length = bytes.length) :
    splice 0 stored bytes = stored := by
  rw [splice, List.take_zero, Nat.zero_add, hlen, List.drop_length, List.append_nil,
    List.nil_append]

/-- Elements of one size determine the bytes. -/
theorem eq_of_element_eq {size : Nat} (hsize : 0 < size) {xs ys : List β}
    (heq : ∀ index, element size xs index = element size ys index) : xs = ys := by
  refine List.ext_getElem? fun i => ?_
  have hindex := congrArg (fun bytes => bytes[i % size]?) (heq (i / size))
  simpa only [getElem?_element, Nat.mod_lt i hsize, if_true, Nat.div_add_mod]
    using hindex

/-- A position belongs to the range of the elements `low` to `low + count` when
the index of its element does. -/
theorem mem_range_iff {size : Nat} {i : Nat} (hi : i < size) (low count k : Nat) :
    (size * low ≤ size * k + i ∧ size * k + i < size * low + size * count) ↔
      low ≤ k ∧ k < low + count := by
  rw [← Nat.mul_add]
  constructor
  · rintro ⟨hlow, hhigh⟩
    constructor
    · by_contra hlt
      have hle : size * (k + 1) ≤ size * low := Nat.mul_le_mul_left _ (by omega)
      rw [Nat.mul_succ] at hle
      omega
    · by_contra hge
      have hle : size * (low + count) ≤ size * k := Nat.mul_le_mul_left _ (by omega)
      omega
  · rintro ⟨hlow, hhigh⟩
    have hle : size * low ≤ size * k := Nat.mul_le_mul_left _ hlow
    have hlt : size * (k + 1) ≤ size * (low + count) := Nat.mul_le_mul_left _ hhigh
    rw [Nat.mul_succ] at hlt
    omega

/-- Storing a range of whole elements stores each of them. -/
theorem element_splice {size si di count : Nat} {src dst : List β}
    (hsrc : size * (si + count) ≤ src.length) (hdst : size * (di + count) ≤ dst.length)
    (k : Nat) : element size
        (splice (size * di) ((src.drop (size * si)).take (size * count)) dst) k =
      if di ≤ k ∧ k < di + count then element size src (si + (k - di))
      else element size dst k := by
  rw [Nat.mul_add] at hsrc hdst
  have hlength : ((src.drop (size * si)).take (size * count)).length = size * count := by
    rw [List.length_take, List.length_drop]
    omega
  refine List.ext_getElem? fun i => ?_
  by_cases hi : i < size
  · rw [getElem?_element, if_pos hi, getElem?_splice (by omega), hlength]
    by_cases hk : di ≤ k ∧ k < di + count
    · rw [if_pos ((mem_range_iff hi di count k).2 hk), if_pos hk, getElem?_element,
        if_pos hi, List.getElem?_take, List.getElem?_drop]
      obtain ⟨offset, rfl⟩ := Nat.exists_eq_add_of_le hk.1
      have hpos := (mem_range_iff hi di count (di + offset)).2 hk
      simp only [Nat.mul_add, Nat.add_sub_cancel_left] at hpos ⊢
      rw [if_pos (by omega)]
      congr 1
      omega
    · rw [if_neg fun hpos => hk ((mem_range_iff hi di count k).1 hpos), if_neg hk,
        getElem?_element, if_pos hi]
  · split <;> simp only [getElem?_element, hi, if_false]

end ElementArray

end SmlSharp
