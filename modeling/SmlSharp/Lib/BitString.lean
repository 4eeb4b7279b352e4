/-
Words read as bit strings, the least significant bit first, and words written
one after the other.
-/
import Mathlib.Data.List.FinRange
import Mathlib.Data.List.Basic

namespace SmlSharp

namespace BitString

variable {n m : Nat}

def ofWord (w : BitVec n) : List Bool := List.ofFn fun i : Fin n => w.getLsbD i

def ofWords (ws : List (BitVec n)) : List Bool := ws.flatMap ofWord

/-- The exclusive or of two strings of one length. -/
def xor (s t : List Bool) : List Bool := List.zipWith (· ^^ ·) s t

@[simp]
theorem length_ofWord (w : BitVec n) : (ofWord w).length = n := List.length_ofFn

theorem getElem?_ofWord (w : BitVec n) (i : Nat) :
    (ofWord w)[i]? = if i < n then some (w.getLsbD i) else none := by
  by_cases hi : i < n
  · rw [if_pos hi, List.getElem?_eq_getElem (by rwa [length_ofWord])]
    exact congrArg some (List.getElem_ofFn _)
  · rw [if_neg hi, List.getElem?_eq_none (by rw [length_ofWord]; omega)]

theorem ofWord_zero : ofWord (0 : BitVec n) = List.replicate n false := by
  simp [ofWord, List.ofFn_const]

theorem ofWord_xor (v w : BitVec n) : ofWord (v ^^^ w) = xor (ofWord v) (ofWord w) := by
  apply List.ext_getElem?
  intro i
  rw [xor, List.getElem?_zipWith, getElem?_ofWord, getElem?_ofWord, getElem?_ofWord]
  by_cases hi : i < n
  · simp [if_pos hi]
  · simp [if_neg hi]

/-- The low bits of a word. -/
theorem ofWord_setWidth (w : BitVec n) (hle : m ≤ n) :
    ofWord (w.setWidth m) = (ofWord w).take m := by
  apply List.ext_getElem?
  intro i
  rw [getElem?_ofWord, List.getElem?_take, getElem?_ofWord]
  by_cases hi : i < m
  · simp [hi, Nat.lt_of_lt_of_le hi hle]
  · simp [hi]

/-- Shifting right drops the low bits. -/
theorem ofWord_ushiftRight (w : BitVec n) (k : Nat) (hle : k ≤ n) :
    ofWord (w >>> k) = (ofWord w).drop k ++ List.replicate k false := by
  apply List.ext_getElem?
  intro i
  rw [getElem?_ofWord, List.getElem?_append, List.length_drop, length_ofWord,
    List.getElem?_drop, getElem?_ofWord, List.getElem?_replicate, BitVec.getLsbD_ushiftRight]
  by_cases hi : i < n - k
  · rw [if_pos (by omega), if_pos hi, if_pos (by omega)]
  · rw [if_neg hi]
    by_cases hn : i < n
    · rw [if_pos hn, if_pos (by omega), BitVec.getLsbD_of_ge _ _ (by omega)]
    · rw [if_neg hn, if_neg (by omega)]

/-- A short word below a shifted one. -/
theorem ofWord_or_shiftLeft (v : BitVec m) (w : BitVec n) (hle : m ≤ n) :
    ofWord (v.setWidth n ||| w <<< m) = ofWord v ++ (ofWord w).take (n - m) := by
  apply List.ext_getElem?
  intro i
  rw [getElem?_ofWord, List.getElem?_append, length_ofWord, List.getElem?_take,
    getElem?_ofWord, getElem?_ofWord, BitVec.getLsbD_or, BitVec.getLsbD_setWidth,
    BitVec.getLsbD_shiftLeft]
  by_cases hm : i < m
  · simp [hm, Nat.lt_of_lt_of_le hm hle]
  · by_cases hn : i < n
    · have hlow : v.getLsbD i = false := BitVec.getLsbD_of_ge _ _ (Nat.le_of_not_lt hm)
      have hin : i - m < n - m := by omega
      have hin' : i - m < n := by omega
      simp [hm, hn, hlow, hin, hin']
    · have hout : ¬ i - m < n - m := by omega
      simp [hm, hn, hout]

@[simp]
theorem ofWords_nil : ofWords ([] : List (BitVec n)) = [] := rfl

@[simp]
theorem ofWords_cons (w : BitVec n) (ws : List (BitVec n)) :
    ofWords (w :: ws) = ofWord w ++ ofWords ws := rfl

@[simp]
theorem ofWords_append (vs ws : List (BitVec n)) :
    ofWords (vs ++ ws) = ofWords vs ++ ofWords ws := List.flatMap_append

@[simp]
theorem length_ofWords (ws : List (BitVec n)) : (ofWords ws).length = n * ws.length := by
  induction ws with
  | nil => rfl
  | cons w ws ih => rw [ofWords_cons, List.length_append, length_ofWord, ih,
      List.length_cons, Nat.mul_succ, Nat.add_comm]

theorem ofWords_replicate_zero (k : Nat) :
    ofWords (List.replicate k (0 : BitVec n)) = List.replicate (n * k) false := by
  induction k with
  | zero => rfl
  | succ k ih => rw [List.replicate_succ, ofWords_cons, ih, ofWord_zero,
      List.replicate_append_replicate, Nat.mul_succ, Nat.add_comm]

theorem ofWords_take (ws : List (BitVec n)) (k : Nat) :
    ofWords (ws.take k) = (ofWords ws).take (n * k) := by
  induction ws generalizing k with
  | nil => simp
  | cons w ws ih =>
    cases k with
    | zero => simp
    | succ k =>
      have hlen : n * (k + 1) = (ofWord w).length + n * k := by
        rw [length_ofWord, Nat.mul_succ, Nat.add_comm]
      rw [List.take_succ_cons, ofWords_cons, ofWords_cons, hlen,
        List.take_length_add_append, ih]

theorem xor_append {s t s' t' : List Bool} (h : s.length = t.length) :
    xor (s ++ s') (t ++ t') = xor s t ++ xor s' t' := by
  exact List.zipWith_append h

theorem ofWords_zipWith_xor (vs ws : List (BitVec n)) (h : vs.length = ws.length) :
    ofWords (List.zipWith (· ^^^ ·) vs ws) = xor (ofWords vs) (ofWords ws) := by
  induction vs generalizing ws with
  | nil => rfl
  | cons v vs ih =>
    cases ws with
    | nil => cases h
    | cons w ws =>
      rw [List.zipWith_cons_cons, ofWords_cons, ofWords_cons, ofWords_cons,
        xor_append (by rw [length_ofWord, length_ofWord]), ofWord_xor,
        ih ws (Nat.succ.inj h)]

/-- Reading at an index of a string that consists of blocks of one length. -/
theorem getElem?_flatMap {α β : Type} {f : α → List β} {k : Nat}
    (hlen : ∀ a, (f a).length = k) (l : List α) (i j : Nat) (hj : j < k) :
    (l.flatMap f)[k * i + j]? = l[i]?.bind fun a => (f a)[j]? := by
  induction l generalizing i with
  | nil => simp
  | cons a l ih =>
    rw [List.flatMap_cons, List.getElem?_append, hlen]
    cases i with
    | zero => simp [hj]
    | succ i =>
      have hskip : k * (i + 1) + j - k = k * i + j := by
        rw [Nat.mul_succ]
        omega
      have hge : ¬ k * (i + 1) + j < k := by
        rw [Nat.mul_succ]
        omega
      rw [if_neg hge, hskip, ih, List.getElem?_cons_succ]

theorem ofWord_injective : Function.Injective (ofWord (n := n)) := by
  intro v w heq
  apply BitVec.eq_of_getLsbD_eq
  intro i hi
  have hbit := congrArg (fun s => s[i]?) heq
  simpa only [getElem?_ofWord, if_pos hi, Option.some.injEq] using hbit

/-- Words are determined by their bits. -/
theorem ofWords_injective {vs ws : List (BitVec n)} (hlen : vs.length = ws.length)
    (heq : ofWords vs = ofWords ws) : vs = ws := by
  induction vs generalizing ws with
  | nil => exact (List.eq_nil_of_length_eq_zero hlen.symm).symm
  | cons v vs ih =>
    cases ws with
    | nil => cases hlen
    | cons w ws =>
      obtain ⟨hv, hvs⟩ := List.append_inj heq (by rw [length_ofWord, length_ofWord])
      rw [ofWord_injective hv, ih (Nat.succ.inj hlen) hvs]

end BitString

end SmlSharp
