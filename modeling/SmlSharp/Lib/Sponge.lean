/-
The sponge construction over bit strings, with the padding rule `pad10*1`.
-/
import Mathlib.Logic.Function.Iterate
import SmlSharp.Lib.BitString

namespace SmlSharp

namespace Sponge

open BitString

/-- `pad10*1` for a message of `m` bits: a one, as few zeros as possible, and a
one, so that blocks of `r` bits are filled. -/
def pad (r m : Nat) : List Bool :=
  true :: (List.replicate ((r - (m + 2) % r) % r) false ++ [true])

section Construction

variable (f : List Bool → List Bool) (r b : Nat)

/-- One block enters the first `r` of the `b` bits of the state. -/
def absorbBlock (S block : List Bool) : List Bool :=
  f (xor S (block ++ List.replicate (b - r) false))

/-- The blocks of a padded message enter the state in their order. -/
def absorb (S P : List Bool) : List Bool :=
  (List.range (P.length / r)).foldl
    (fun S i => absorbBlock f r b S ((P.drop (r * i)).take r)) S

/-- The first `r` bits of the states that follow are the output, cut off after
`d` bits. -/
def squeeze (S : List Bool) (d : Nat) : List Bool :=
  ((List.range ((d + r - 1) / r)).flatMap fun i => (f^[i] S).take r).take d

def sponge (N : List Bool) (d : Nat) : List Bool :=
  squeeze f r (absorb f r b (List.replicate b false) (N ++ pad r N.length)) d

end Construction

/-- The padding depends on the length of the last block only. -/
theorem pad_add (r m : Nat) : pad r (r + m) = pad r m := by
  rw [pad, pad, Nat.add_assoc, Nat.add_mod_left]

/-- The padding of a message that leaves room for it in one block. -/
theorem pad_of_le {r m : Nat} (hle : m + 2 ≤ r) :
    pad r m = true :: (List.replicate (r - (m + 2)) false ++ [true]) := by
  rcases Nat.eq_or_lt_of_le hle with heq | hlt
  · rw [pad, heq, Nat.mod_self, Nat.sub_self, Nat.sub_zero, Nat.mod_self]
  · rw [pad, Nat.mod_eq_of_lt hlt, Nat.mod_eq_of_lt (by omega)]

section Rules

variable {f : List Bool → List Bool} {r b : Nat}

theorem absorb_nil (S : List Bool) : absorb f r b S [] = S := by
  rw [absorb, List.length_nil, Nat.zero_div]
  rfl

theorem absorb_append (hr : 0 < r) (S : List Bool) {block P : List Bool}
    (hblock : block.length = r) :
    absorb f r b S (block ++ P) = absorb f r b (absorbBlock f r b S block) P := by
  have hcount : (block ++ P).length / r = P.length / r + 1 := by
    rw [List.length_append, hblock, Nat.add_div_left _ hr]
  rw [absorb, hcount, List.range_succ_eq_map, List.foldl_cons, List.foldl_map, absorb,
    Nat.mul_zero, List.drop_zero, List.take_left' hblock]
  congr 1
  funext S i
  have hskip : r * (i + 1) = block.length + r * i := by
    rw [hblock, Nat.mul_succ, Nat.add_comm]
  rw [hskip, List.drop_length_add_append]

/-- A last block. -/
theorem absorb_block (hr : 0 < r) (S : List Bool) {block : List Bool}
    (hblock : block.length = r) :
    absorb f r b S block = absorbBlock f r b S block := by
  rw [← List.append_nil block, absorb_append hr S hblock, absorb_nil, List.append_nil]

theorem squeeze_of_le {S : List Bool} {d : Nat} (hle : d ≤ r) :
    squeeze f r S d = S.take d := by
  rcases Nat.eq_zero_or_pos d with hzero | hpos
  · rw [squeeze, hzero, List.take_zero, List.take_zero]
  · have hcount : (d + r - 1) / r = 1 :=
      Nat.div_eq_of_lt_le (by omega) (by omega)
    rw [squeeze, hcount, List.range_one, List.flatMap_singleton, Function.iterate_zero, id,
      List.take_take, Nat.min_eq_left hle]

theorem squeeze_of_lt (hr : 0 < r) {S : List Bool} (hlen : r ≤ S.length) {d : Nat}
    (hlt : r < d) :
    squeeze f r S d = S.take r ++ squeeze f r (f S) (d - r) := by
  have hcount : (d + r - 1) / r = (d - r + r - 1) / r + 1 := by
    have hsum : d + r - 1 = d - r + r - 1 + r := by omega
    rw [hsum, Nat.add_div_right _ hr]
  rw [squeeze, hcount, List.range_succ_eq_map, List.flatMap_cons, List.flatMap_map,
    Function.iterate_zero, id, List.take_append, List.length_take, Nat.min_eq_left hlen,
    List.take_take, Nat.min_eq_right (Nat.le_of_lt hlt)]
  rfl

/-- A shorter output is a prefix of a longer one. -/
theorem squeeze_shorter (S : List Bool) {d e : Nat} (hle : d ≤ e) :
    squeeze f r S d <+: squeeze f r S e := by
  have hcount : (d + r - 1) / r ≤ (e + r - 1) / r := Nat.div_le_div_right (by omega)
  have hblocks : ((List.range ((d + r - 1) / r)).flatMap fun i => (f^[i] S).take r) <+:
      (List.range ((e + r - 1) / r)).flatMap fun i => (f^[i] S).take r := by
    obtain ⟨more, hmore⟩ := Nat.exists_eq_add_of_le hcount
    rw [hmore, List.range_add, List.flatMap_append]
    apply List.prefix_append
  rw [squeeze, squeeze, List.prefix_take_iff]
  constructor
  · exact List.IsPrefix.trans ( List.take_prefix d _) hblocks
  · exact (List.length_take_le d _).trans hle

end Rules

end Sponge

end SmlSharp
