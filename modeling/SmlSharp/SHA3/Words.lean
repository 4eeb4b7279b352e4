/-
Words in byte arrays: `read64` and `absorbBlock` read them, and `write64` and
`serialize` write them, the low byte first.
-/
import SmlSharp.SHA3.Round

namespace SmlSharp

namespace SHA3

open BitString ElementArray

/-- The bytes that follow an index. -/
theorem take_drop_succ {a : List Word8} {i : Nat} (hi : i < a.length) (j : Nat) :
    (a.drop i).take (j + 1) = a[i] :: (a.drop (i + 1)).take j := by
  rw [List.drop_eq_getElem_cons hi, List.take_succ_cons]

theorem sub_ok {a : List Word8} {i : Nat} (hi : i < a.length) :
    sub a i = .ok (fromWord8 a[i]) := by
  rw [sub, Word8Array.sub, List.getElem?_eq_getElem hi]
  rfl

theorem update_ok {a : List Word8} {i : Nat} (hi : i < a.length) (w : Word64) :
    update a i w = .ok (splice i [toWord8 w] a) := by
  rw [update, Word8Array.update, if_pos hi, set_eq_splice hi]

theorem read64_ok {a : List Word8} {i j : Nat} (hfit : i + j ≤ a.length) (hj : j ≤ 8) :
    ∃ w, read64 a i j = .ok w ∧
      ofWord w = ofWords ((a.drop i).take j) ++ List.replicate (64 - 8 * j) false := by
  induction j generalizing i with
  | zero => exact ⟨0, rfl, ofWord_zero⟩
  | succ j ih =>
    have hi : i < a.length := by omega
    obtain ⟨high, hread, hbits⟩ := @ih (i + 1) (by omega) (by omega)
    refine ⟨fromWord8 a[i] ||| high <<< 8, ?_, ?_⟩
    · rw [read64, sub_ok hi, hread]
      rfl
    · have hlen : (ofWords ((a.drop (i + 1)).take j)).length = 8 * j := by
        rw [length_ofWords, List.length_take, List.length_drop, Nat.min_eq_left (by omega)]
      rw [fromWord8, ofWord_or_shiftLeft _ _ (by decide), hbits, take_drop_succ hi,
        ofWords_cons, List.take_append, hlen, List.take_of_length_le (by omega),
        List.take_replicate, Nat.min_eq_left (by omega), List.append_assoc]
      congr 3
      omega

theorem read64_word {a : List Word8} {i : Nat} (hfit : i + 8 ≤ a.length) :
    ∃ w, read64 a i 8 = .ok w ∧ ofWord w = ofWords ((a.drop i).take 8) := by
  obtain ⟨w, hread, hbits⟩ := read64_ok hfit (Nat.le_refl 8)
  exact ⟨w, hread, by rw [hbits, Nat.sub_self, List.replicate_zero, List.append_nil]⟩

/-- The words of a block follow one after the other. -/
theorem ofWords_chunks {b : List Word8} {c n : Nat} (hlen : b.length = c * n) :
    ((List.range n).flatMap fun k => ofWords ((b.drop (c * k)).take c)) = ofWords b := by
  induction n generalizing b with
  | zero => rw [List.eq_nil_of_length_eq_zero hlen]; rfl
  | succ n ih =>
    have hrest : (b.drop c).length = c * n := by
      rw [List.length_drop, hlen, Nat.mul_succ, Nat.add_sub_cancel]
    rw [List.range_succ_eq_map, List.flatMap_cons, List.flatMap_map, Nat.mul_zero,
      List.drop_zero]
    conv_rhs => rw [← List.take_append_drop c b, ofWords_append, ← ih hrest]
    simp only [List.drop_drop, Nat.mul_succ, Nat.add_comm]

theorem absorbBlock_ok {b : List Word8} (hlen : b.length = 200) (s : State) :
    ∃ s', absorbBlock b s = .ok s' ∧ s'.bits = xor s.bits (ofWords b) := by
  have hread : ∀ i, ∃ w, i + 8 ≤ 200 → read64 b i 8 = .ok w ∧
      ofWord w = ofWords ((b.drop i).take 8) := by
    intro i
    by_cases hfit : i + 8 ≤ 200
    · obtain ⟨w, hw⟩ := read64_word (hlen.symm ▸ hfit)
      exact ⟨w, fun _ => hw⟩
    · exact ⟨0, fun hfit' => absurd hfit' hfit⟩
  choose w hw using hread
  have hwords : ofWords ((List.range 25).map fun k => w (8 * k)) = ofWords b := by
    rw [ofWords, List.flatMap_map, ← ofWords_chunks (c := 8) (n := 25) hlen]
    apply List.flatMap_congr
    intro k hk
    have hlt := List.mem_range.mp hk
    exact (hw (8 * k) (by omega)).2
  have hok : absorbBlock b s = .ok
      ⟨s.a00 ^^^ w 0, s.a01 ^^^ w 8, s.a02 ^^^ w 16, s.a03 ^^^ w 24, s.a04 ^^^ w 32,
       s.a10 ^^^ w 40, s.a11 ^^^ w 48, s.a12 ^^^ w 56, s.a13 ^^^ w 64, s.a14 ^^^ w 72,
       s.a20 ^^^ w 80, s.a21 ^^^ w 88, s.a22 ^^^ w 96, s.a23 ^^^ w 104, s.a24 ^^^ w 112,
       s.a30 ^^^ w 120, s.a31 ^^^ w 128, s.a32 ^^^ w 136, s.a33 ^^^ w 144, s.a34 ^^^ w 152,
       s.a40 ^^^ w 160, s.a41 ^^^ w 168, s.a42 ^^^ w 176, s.a43 ^^^ w 184, s.a44 ^^^ w 192⟩ := by
    simp (disch := decide) only [absorbBlock, fun i hi => (hw i hi).1, except_ok_bind]
    rfl
  refine ⟨_, hok, ?_⟩
  rw [State.bits, ← hwords, State.bits, ← ofWords_zipWith_xor _ _ (by rfl)]
  rfl

theorem write64_ok {a : List Word8} {i j : Nat} (hfit : i + j ≤ a.length) (hj : j ≤ 8)
    (w : Word64) : ∃ bytes : List Word8, bytes.length = j ∧
      ofWords bytes = (ofWord w).take (8 * j) ∧
      write64 a i w j = .ok (splice i bytes a) := by
  induction j generalizing a i w with
  | zero => exact ⟨[], rfl, rfl, by rw [splice_nil, write64]⟩
  | succ j ih =>
    have hi : i < a.length := by omega
    have hlen : (splice i [toWord8 w] a).length = a.length :=
      length_splice (by rw [List.length_singleton]; omega)
    obtain ⟨bytes, hbytes, hbits, hwrite⟩ :=
      @ih (splice i [toWord8 w] a) (i + 1) (by omega) (by omega) (w >>> 8)
    refine ⟨toWord8 w :: bytes, by rw [List.length_cons, hbytes], ?_, ?_⟩
    · have hsplit : 8 * (j + 1) = 8 + 8 * j := by omega
      rw [ofWords_cons, toWord8, ofWord_setWidth w (by decide), hbits,
        ofWord_ushiftRight w 8 (by decide), List.take_append_of_le_length
          (by rw [List.length_drop, length_ofWord]; omega), hsplit, List.take_add]
    · rw [write64, update_ok hi, except_ok_bind, hwrite]
      exact congrArg Except.ok (@splice_splice _ i [toWord8 w] bytes a hi)

theorem serializeLoop_ok {ws : List Word64} {a : List Word8} {i l : Nat}
    (hfit : i + l ≤ a.length) (hl : l ≤ 8 * ws.length) :
    ∃ bytes : List Word8, bytes.length = l ∧
      ofWords bytes = (ofWords ws).take (8 * l) ∧
      serializeLoop a i l ws = .ok (splice i bytes a) := by
  induction ws generalizing a i l with
  | nil =>
    have hzero : l = 0 := Nat.le_zero.mp hl
    exact ⟨[], hzero.symm, by simp, by rw [splice_nil, serializeLoop]⟩
  | cons w ws ih =>
    rw [List.length_cons] at hl
    by_cases hlt : l > 8
    · obtain ⟨first, hfirst, hfirstBits, hwrite⟩ :=
        write64_ok (show i + 8 ≤ a.length by omega) (Nat.le_refl 8) w
      have hroom : i + first.length ≤ a.length := by omega
      have hlen := length_splice hroom
      obtain ⟨rest, hrest, hrestBits, hloop⟩ :=
        @ih (splice i first a) (i + 8) (l - 8) (by omega) (by omega)
      refine ⟨first ++ rest, by rw [List.length_append]; omega, ?_, ?_⟩
      · have hsplit : 8 * l = (ofWord w).length + 8 * (l - 8) := by
          rw [length_ofWord]
          omega
        rw [ofWords_append, hfirstBits, hrestBits, ofWords_cons, hsplit,
          List.take_length_add_append, List.take_of_length_le (by simp)]
      · rw [serializeLoop, if_pos hlt, hwrite, except_ok_bind, hloop, ← hfirst,
          splice_splice hroom]
    · obtain ⟨bytes, hbytes, hbits, hwrite⟩ :=
        write64_ok hfit (Nat.le_of_not_lt hlt) w
      refine ⟨bytes, hbytes, ?_, ?_⟩
      · rw [hbits, ofWords_cons,
          List.take_append_of_le_length (by rw [length_ofWord]; omega)]
      · rw [serializeLoop, if_neg hlt, hwrite]

theorem serialize_ok {a : List Word8} {i l : Nat} (hfit : i + l ≤ a.length) (hl : l ≤ 200)
    (s : State) :
    ∃ bytes : List Word8, bytes.length = l ∧ ofWords bytes = s.bits.take (8 * l) ∧
      serialize a i l s = .ok (splice i bytes a) := serializeLoop_ok hfit hl

end SHA3

end SmlSharp
