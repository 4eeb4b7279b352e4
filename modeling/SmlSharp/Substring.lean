/-
Substrings of the basis library: `strstr`, the search by Rabin and Karp behind
`isSubstring` and `position`, and the runtime's `sml_memcmp`, which it calls.
-/
import Mathlib.Data.UInt
import SmlSharp.Lib.RollingHash

namespace SmlSharp

namespace Substring

open RollingHash
open scoped UInt32.CommRing

/-- The bytes that may be read, by their addresses. -/
abbrev Memory := Int → Option UInt8

/-- A string object.  Its size occupies 28 bits of the header. -/
structure Str where
  addr : Int
  size : Int32
  size_nonneg : 0 ≤ size.toInt
  size_lt : size.toInt < 2 ^ 28

/-- `unit slice`, without the invariant. -/
structure Slice where
  vec : Str
  start : Int32
  length : Int32

/-- The invariant of the type: the slice is within its string. -/
structure Slice.Inside (slice : Slice) : Prop where
  start_nonneg : 0 ≤ slice.start.toInt
  length_nonneg : 0 ≤ slice.length.toInt
  le_size : slice.start.toInt + slice.length.toInt ≤ slice.vec.size.toInt

abbrev ValidSlice := { slice : Slice // slice.Inside }

section Strstr

variable (mem : Memory)

/-- The loop of `sml_memcmp`, which counts `len` down. -/
def memcmpLoop : Nat → Int → Int → Option Int
  | 0, _, _ => some 0
  | len + 1, s1, s2 => do
      let c1 ← mem s1
      let c2 ← mem s2
      if c1 ≠ c2 then return c1.toNat - c2.toNat
      else memcmpLoop len (s1 + 1) (s2 + 1)

def smlMemcmp (s1 : Str) (i1 : Int32) (s2 : Str) (i2 len : Int32) : Option Int :=
  let s1 := s1.addr + i1.toInt
  let s2 := s2.addr + i2.toInt
  if s1 = s2 then some 0 else memcmpLoop mem len.toInt.toNat s1 s2

def prime : UInt32 := 127

/-- `Array.sub_unsafe`, which does not check the index. -/
def sub (vec : Str) (i : Int32) : Option UInt32 :=
  (mem (vec.addr + i.toInt)).map UInt8.toUInt32

def hashAdd (hash ch : UInt32) : UInt32 := hash * prime + ch

theorem toInt_succ_of_lt {i n : Int32} (h : i < n) : (i + 1).toInt = i.toInt + 1 := by
  have hlt := Int32.lt_iff_toInt_lt.mp h
  have hle := i.le_toInt
  have hn := n.toInt_lt
  rw [Int32.toInt_add, Int32.toInt_one, Int.bmod_eq_of_le] <;> omega

/-- The two loops that hash the pattern and the first window. -/
def hashLoop (sub : Int32 → Option UInt32) (len1 : Int32) (i : Int32) (hash : UInt32) :
    Option UInt32 :=
  if hlt : i < len1 then
    (sub i).bind fun ch => hashLoop sub len1 (i + 1) (hashAdd hash ch)
  else some hash
termination_by (len1.toInt - i.toInt).toNat
decreasing_by
  have hsucc := toInt_succ_of_lt hlt
  have hlt' := Int32.lt_iff_toInt_lt.mp hlt
  omega

def hash1 (vec1 : Str) (len1 : Int32) : Option UInt32 :=
  hashLoop (fun i => sub mem vec1 i) len1 0 0

def hash2 (vec2 : Str) (start len1 : Int32) : Option UInt32 :=
  hashLoop (fun i => sub mem vec2 (start + i)) len1 0 0

/-- The count `n` is the length of the pattern, which is not negative. -/
def hashDel : Nat → UInt32 → UInt32
  | 0, z => z
  | n + 1, z => hashDel n (z * prime)

def rotate (hashDel hash del add : UInt32) : UInt32 :=
  hash * prime + add - del * hashDel

/-- The condition of the loop: the second test is made only when the first one holds. -/
def isMatch (vec1 vec2 : Str) (hash1 : UInt32) (i : Int32) (hash2 : UInt32) : Option Bool :=
  if hash1 = hash2 then (smlMemcmp mem vec1 0 vec2 i vec1.size).map (· == 0)
  else some false

def search (vec1 vec2 : Str) (hash1 hashDel : UInt32) (limit i : Int32) (hash2 : UInt32) :
    Option Int32 := do
  let found ← isMatch mem vec1 vec2 hash1 i hash2
  if found then return i
  else if hle : limit ≤ i then return -1
  else
    let del ← sub mem vec2 i
    let add ← sub mem vec2 (i + vec1.size)
    search vec1 vec2 hash1 hashDel limit (i + 1) (rotate hashDel hash2 del add)
termination_by (limit.toInt - i.toInt).toNat
decreasing_by
  have hlt := Int32.not_le.mp hle
  have hsucc := toInt_succ_of_lt hlt
  have hlt' := Int32.lt_iff_toInt_lt.mp hlt
  omega

def strstr (vec1 : Str) (slice : Slice) : Option Int32 :=
  let len1 := vec1.size
  if slice.length < len1 then some (-1)
  else if len1 = slice.length then
    (smlMemcmp mem vec1 0 slice.vec slice.start slice.length).map fun r =>
      if r = 0 then slice.start else -1
  else do
    let h1 ← hash1 mem vec1 len1
    let h2 ← hash2 mem slice.vec slice.start len1
    let limit := slice.length - len1 + slice.start
    search mem vec1 slice.vec h1 (hashDel len1.toInt.toNat 1) limit slice.start h2

def isSubstring (vec1 : Str) (slice : Slice) : Option Bool :=
  (strstr mem vec1 slice).map (0 ≤ ·)

def position (vec1 : Str) (slice : Slice) : Option (Slice × Slice) :=
  (strstr mem vec1 slice).map fun i =>
    if i < 0 then (slice, ⟨slice.vec, slice.start + slice.length, 0⟩)
    else
      let len1 := i - slice.start
      (⟨slice.vec, slice.start, len1⟩, ⟨slice.vec, i, slice.length - len1⟩)

end Strstr

/-! What is in the memory, and what the loops make of it. -/

/-- The bytes stand in the memory from an address on. -/
def Memory.Holds (mem : Memory) (addr : Int) (bytes : List UInt8) : Prop :=
  ∀ k < bytes.length, mem (addr + k) = bytes[k]?

instance (mem : Memory) (addr : Int) (bytes : List UInt8) :
    Decidable (mem.Holds addr bytes) :=
  inferInstanceAs (Decidable (∀ k < bytes.length, _))

variable {mem : Memory} {addr : Int} {c : UInt8} {bytes xs ys : List UInt8}

theorem Memory.Holds.head (h : mem.Holds addr (c :: bytes)) : mem addr = some c := by
  simpa using h 0 (by simp)

theorem Memory.Holds.tail (h : mem.Holds addr (c :: bytes)) : mem.Holds (addr + 1) bytes := by
  intro k hk
  have hnext := h (k + 1) (by simpa using hk)
  rw [List.getElem?_cons_succ] at hnext
  rw [← hnext]
  congr 1
  omega

theorem Memory.Holds.window (h : mem.Holds addr bytes) {k m : Nat}
    (hkm : k + m ≤ bytes.length) : mem.Holds (addr + k) ((bytes.drop k).take m) := by
  intro j hj
  rw [List.length_take, List.length_drop] at hj
  rw [List.getElem?_take_of_lt (by omega), List.getElem?_drop, ← h (k + j) (by omega)]
  congr 1
  omega

theorem Memory.Holds.unique (hx : mem.Holds addr xs) (hy : mem.Holds addr ys)
    (hlen : xs.length = ys.length) : xs = ys := by
  apply List.ext_getElem?
  intro k
  rcases Nat.lt_or_ge k xs.length with hk | hk
  · rw [← hx k hk, hy k (hlen ▸ hk)]
  · rw [List.getElem?_eq_none hk, List.getElem?_eq_none (hlen ▸ hk)]

theorem memcmpLoop_spec {s1 s2 : Int} (hx : mem.Holds s1 xs) (hy : mem.Holds s2 ys)
    (hlen : xs.length = ys.length) :
    ∃ r, memcmpLoop mem xs.length s1 s2 = some r ∧ (r = 0 ↔ xs = ys) := by
  induction xs generalizing ys s1 s2 with
  | nil =>
    cases ys with
    | nil => exact ⟨0, rfl, by simp⟩
    | cons c2 ys => simp at hlen
  | cons c1 xs ih =>
    cases ys with
    | nil => simp at hlen
    | cons c2 ys =>
      rw [List.length_cons, memcmpLoop, hx.head, hy.head]
      by_cases hc : c1 = c2
      · obtain ⟨r, hr, hzero⟩ := ih hx.tail hy.tail (by simpa using hlen)
        exact ⟨r, by simpa [hc] using hr, by simp [hzero, hc]⟩
      · have hne : c1.toNat ≠ c2.toNat := fun heq => hc (UInt8.toNat_inj.mp heq)
        exact ⟨c1.toNat - c2.toNat, by simp [hc], by grind⟩

theorem smlMemcmp_spec {s1 s2 : Str} {i1 i2 len : Int32}
    (hx : mem.Holds (s1.addr + i1.toInt) xs) (hy : mem.Holds (s2.addr + i2.toInt) ys)
    (hxlen : xs.length = len.toInt) (hylen : ys.length = len.toInt) :
    ∃ r, smlMemcmp mem s1 i1 s2 i2 len = some r ∧ (r = 0 ↔ xs = ys) := by
  have hlen : xs.length = ys.length := by omega
  simp only [smlMemcmp]
  by_cases heq : s1.addr + i1.toInt = s2.addr + i2.toInt
  · rw [if_pos heq]
    rw [← heq] at hy
    exact ⟨0, rfl, by simp [hx.unique hy hlen]⟩
  · rw [if_neg heq, ← hxlen, Int.toNat_natCast]
    exact memcmpLoop_spec hx hy hlen

/-- The characters of the hashes. -/
def chars (bytes : List UInt8) : List UInt32 := bytes.map UInt8.toUInt32

theorem hashLoop_eq {sub : Int32 → Option UInt32} {len1 i : Int32} {hash : UInt32}
    (hlen : i.toInt + bytes.length = len1.toInt)
    (hsub : ∀ (j : Int32) (k : Nat), k < bytes.length → j.toInt = i.toInt + k →
      sub j = bytes[k]?.map UInt8.toUInt32) :
    hashLoop sub len1 i hash = some (hashFrom prime hash (chars bytes)) := by
  induction bytes generalizing i hash with
  | nil =>
    have hge : ¬ i < len1 := by
      rw [Int32.lt_iff_toInt_lt]
      simp at hlen
      omega
    rw [hashLoop, dif_neg hge]
    rfl
  | cons c bytes ih =>
    rw [List.length_cons] at hlen
    have hlt : i < len1 := by
      rw [Int32.lt_iff_toInt_lt]
      omega
    have hsucc := toInt_succ_of_lt hlt
    have hhead := hsub i 0 (by simp) (by simp)
    rw [hashLoop, dif_pos hlt, hhead]
    apply ih
    · omega
    · intro j k hk hj
      rw [hsub j (k + 1) (by simpa using hk) (by omega), List.getElem?_cons_succ]

theorem hashDel_eq (n : Nat) (z : UInt32) : hashDel n z = z * prime ^ n := by
  induction n generalizing z with
  | zero => simp [hashDel]
  | succ n ih =>
    rw [hashDel, ih]
    ring

/-! The search. -/

/-- The pattern string and the part of the text string within the slice are in the
memory.  Nothing is said about the bytes around the slice: they may be unreadable. -/
structure Stands (mem : Memory) (vec1 : Str) (slice : Slice) (pattern text : List UInt8) :
    Prop where
  holds_pattern : mem.Holds vec1.addr pattern
  pattern_length : pattern.length = vec1.size.toInt
  holds_text : mem.Holds (slice.vec.addr + slice.start.toInt) text
  text_length : text.length = slice.length.toInt
  inside : slice.Inside

/-- The answer of `strstr` is the first index of the pattern, or `~1` when there is
none. -/
def Found (pattern text : List UInt8) (start r : Int32) : Prop :=
  (∃ i, FirstAt pattern text i ∧ r.toInt = start.toInt + i) ∨
    (r = -1 ∧ ∀ i, ¬ OccursAt pattern text i)

variable {vec1 : Str} {slice : Slice} {pattern text : List UInt8} {k : Nat} {i : Int32}

namespace Stands

theorem bound (h : Stands mem vec1 slice pattern text) :
    0 ≤ slice.start.toInt ∧ slice.start.toInt + text.length < 2 ^ 28 := by
  have hle := h.inside.le_size
  have hlt := slice.vec.size_lt
  have htext := h.text_length
  exact ⟨h.inside.start_nonneg, by omega⟩

theorem hash1_eq (h : Stands mem vec1 slice pattern text) :
    hash1 mem vec1 vec1.size = some (hash prime (chars pattern)) := by
  apply hashLoop_eq
  · simpa using h.pattern_length
  · intro j k hk hj
    rw [sub, hj, Int32.toInt_zero, Int.zero_add, h.holds_pattern k hk]

/-- The text that `sub` reads at an index of the slice. -/
theorem sub_eq (h : Stands mem vec1 slice pattern text) (hk : k < text.length)
    (hi : i.toInt = slice.start.toInt + k) :
    sub mem slice.vec i = text[k]?.map UInt8.toUInt32 := by
  rw [sub, hi, ← Int.add_assoc, h.holds_text k hk]

theorem hash2_eq (h : Stands mem vec1 slice pattern text)
    (hle : pattern.length ≤ text.length) :
    hash2 mem slice.vec slice.start vec1.size =
      some (hash prime (chars (text.take pattern.length))) := by
  obtain ⟨hstart, hlt⟩ := h.bound
  apply hashLoop_eq
  · have hlen := h.pattern_length
    simp
    omega
  · intro j k hk hj
    rw [List.length_take] at hk
    rw [Int32.toInt_zero] at hj
    have hadd : (slice.start + j).toInt = slice.start.toInt + k := by
      rw [Int32.toInt_add, Int.bmod_eq_of_le] <;> omega
    rw [h.sub_eq (by omega) hadd, List.getElem?_take_of_lt (by omega)]

/-- The comparison at an index of the text. -/
theorem memcmp_spec (h : Stands mem vec1 slice pattern text)
    (hi : i.toInt = slice.start.toInt + k) (hk : k + pattern.length ≤ text.length) :
    ∃ r, smlMemcmp mem vec1 0 slice.vec i vec1.size = some r ∧
      (r = 0 ↔ OccursAt pattern text k) := by
  have hx : mem.Holds (vec1.addr + (0 : Int32).toInt) pattern := by
    simpa using h.holds_pattern
  have hy : mem.Holds (slice.vec.addr + i.toInt) ((text.drop k).take pattern.length) := by
    rw [hi, ← Int.add_assoc]
    exact h.holds_text.window hk
  obtain ⟨r, hr, hzero⟩ := smlMemcmp_spec hx hy h.pattern_length (by
    have hlen := h.pattern_length
    simp
    omega)
  refine ⟨r, hr, hzero.trans ?_⟩
  rw [OccursAt, eq_comm]
  simp [hk]

/-- A window with another hash is not an occurrence. -/
theorem isMatch_eq (h : Stands mem vec1 slice pattern text)
    (hi : i.toInt = slice.start.toInt + k) (hk : k + pattern.length ≤ text.length) :
    isMatch mem vec1 slice.vec (hash prime (chars pattern)) i
        (hash prime (chars ((text.drop k).take pattern.length))) =
      some (decide (OccursAt pattern text k)) := by
  obtain ⟨r, hr, hzero⟩ := h.memcmp_spec hi hk
  rw [isMatch, hr, Option.map_some]
  split
  · rw [← decide_eq_decide.mpr hzero]
    rfl
  · rename_i hne
    have hnot : ¬ OccursAt pattern text k := fun hocc => hne (by rw [hocc.2])
    rw [decide_eq_false hnot]

end Stands

/-- The window one index further on. -/
theorem windows (hpos : 0 < pattern.length) (hk : k + pattern.length < text.length) :
    ∃ del window add, text[k]? = some del ∧ text[k + pattern.length]? = some add ∧
      window.length + 1 = pattern.length ∧
      (text.drop k).take pattern.length = del :: window ∧
      (text.drop (k + 1)).take pattern.length = window ++ [add] := by
  obtain ⟨m, hm⟩ := Nat.exists_eq_add_of_lt hpos
  rw [Nat.zero_add] at hm
  rw [hm] at hk ⊢
  refine ⟨text[k], (text.drop (k + 1)).take m, text[k + (m + 1)], ?_, ?_, ?_, ?_, ?_⟩
  · exact List.getElem?_eq_getElem _
  · exact List.getElem?_eq_getElem _
  · simp
    omega
  · rw [List.drop_eq_getElem_cons (by omega), List.take_succ_cons]
  · rw [List.take_add_one, List.getElem?_drop, List.getElem?_eq_getElem (by omega)]
    simp [Nat.add_assoc, Nat.add_comm 1 m]

theorem chars_append (xs ys : List UInt8) : chars (xs ++ ys) = chars xs ++ chars ys :=
  List.map_append

/-- The hash that `rotate` computes is the hash of the next window. -/
theorem rotate_eq (del add : UInt8) (window : List UInt8) :
    rotate (hashDel (window.length + 1) 1) (hash prime (chars (del :: window)))
      del.toUInt32 add.toUInt32 = hash prime (chars (window ++ [add])) := by
  rw [chars_append, chars, chars, chars, List.map_cons, List.map_cons, List.map_nil,
    hash_roll prime del.toUInt32, rotate, hashDel_eq, List.length_map]
  ring

/-- The loop keeps the hash of the window at `i`; no earlier index is an occurrence. -/
theorem search_spec (h : Stands mem vec1 slice pattern text) {limit : Int32}
    (hlt : pattern.length < text.length)
    (hlimit : limit.toInt = slice.start.toInt + (text.length - pattern.length : Nat))
    (hi : i.toInt = slice.start.toInt + k) (hk : k + pattern.length ≤ text.length)
    (hnone : ∀ j < k, ¬ OccursAt pattern text j) :
    ∃ r, search mem vec1 slice.vec (hash prime (chars pattern))
        (hashDel pattern.length 1) limit i
        (hash prime (chars ((text.drop k).take pattern.length))) = some r ∧
      Found pattern text slice.start r := by
  induction hd : text.length - pattern.length - k using Nat.strong_induction_on
    generalizing i k with
  | h d ih =>
    obtain ⟨hstart, hbound⟩ := h.bound
    rw [search, h.isMatch_eq hi hk]
    by_cases hocc : OccursAt pattern text k
    · exact ⟨i, by simp [hocc], .inl ⟨k, ⟨hocc, hnone⟩, hi⟩⟩
    have hnone' : ∀ j < k + 1, ¬ OccursAt pattern text j := by
      intro j hj
      rcases Nat.lt_succ_iff_lt_or_eq.mp hj with hjk | rfl
      · exact hnone j hjk
      · exact hocc
    by_cases hle : limit ≤ i
    · refine ⟨-1, by simp [hocc, hle], .inr ⟨rfl, fun j hj => hnone' j ?_ hj⟩⟩
      have hle' := Int32.le_iff_toInt_le.mp hle
      have hfit := hj.1
      omega
    · have hlt' := Int32.lt_iff_toInt_lt.mp (Int32.not_le.mp hle)
      have hpos : 0 < pattern.length := by
        by_contra hempty
        have hnil := List.length_eq_zero_iff.mp (Nat.eq_zero_of_not_pos hempty)
        exact hocc ⟨hk, by rw [hnil]; rfl⟩
      have hfits : k + pattern.length < text.length := by omega
      obtain ⟨del, window, add, hdel, hadd, hlen, hold, hnew⟩ := windows hpos hfits
      have hfirst : sub mem slice.vec i = some del.toUInt32 := by
        rw [h.sub_eq (by omega) hi, hdel]
        rfl
      have hlast : sub mem slice.vec (i + vec1.size) = some add.toUInt32 := by
        have hsum : (i + vec1.size).toInt = slice.start.toInt + (k + pattern.length : Nat) := by
          have hpattern := h.pattern_length
          rw [Int32.toInt_add, Int.bmod_eq_of_le] <;> omega
        rw [h.sub_eq (by omega) hsum, hadd]
        rfl
      have hnext : (i + 1).toInt = slice.start.toInt + (k + 1 : Nat) := by
        rw [toInt_succ_of_lt (Int32.not_le.mp hle)]
        omega
      have hrest := ih _ (by omega) hnext (by omega) hnone' rfl
      rw [hnew, ← rotate_eq del add window, hlen, ← hold] at hrest
      simpa [hocc, hle, hfirst, hlast] using hrest

theorem strstr_found (h : Stands mem vec1 slice pattern text) :
    ∃ r, strstr mem vec1 slice = some r ∧ Found pattern text slice.start r := by
  have hpattern := h.pattern_length
  have htext := h.text_length
  obtain ⟨hstart, hbound⟩ := h.bound
  rw [strstr]
  by_cases hshort : slice.length < vec1.size
  · refine ⟨-1, if_pos hshort, .inr ⟨rfl, fun i => not_occursAt_of_length ?_⟩⟩
    have hlt := Int32.lt_iff_toInt_lt.mp hshort
    omega
  have hle := Int32.le_iff_toInt_le.mp (Int32.not_lt.mp hshort)
  rw [if_neg hshort]
  by_cases hsame : vec1.size = slice.length
  · have hlen : pattern.length = text.length := by
      rw [hsame] at hpattern
      omega
    obtain ⟨r, hr, hzero⟩ := h.memcmp_spec (k := 0) (i := slice.start) (by simp) (by omega)
    rw [if_pos hsame, ← hsame, hr]
    refine ⟨if r = 0 then slice.start else -1, rfl, ?_⟩
    by_cases hr0 : r = 0
    · rw [if_pos hr0]
      exact .inl ⟨0, ⟨hzero.mp hr0, by simp⟩, by simp⟩
    · rw [if_neg hr0]
      refine .inr ⟨rfl, fun i hi => hr0 (hzero.mpr ?_)⟩
      have hi0 : i = 0 := by
        have hfit := hi.1
        omega
      exact hi0 ▸ hi
  · have hlt : pattern.length < text.length := by
      have hne : vec1.size.toInt ≠ slice.length.toInt := fun heq => hsame (Int32.toInt_inj.mp heq)
      omega
    rw [if_neg hsame, h.hash1_eq, h.hash2_eq hlt.le, ← hpattern, Int.toNat_natCast]
    have hsub : (slice.length - vec1.size).toInt = (text.length - pattern.length : Nat) := by
      rw [Int32.toInt_sub, Int.bmod_eq_of_le] <;> omega
    have hlimit : (slice.length - vec1.size + slice.start).toInt =
        slice.start.toInt + (text.length - pattern.length : Nat) := by
      rw [Int32.toInt_add, hsub, Int.bmod_eq_of_le] <;> omega
    have hsearch := search_spec h (k := 0) (i := slice.start) hlt hlimit (by simp) (by omega)
      (by simp)
    rw [List.drop_zero] at hsearch
    exact hsearch

theorem Found.neg_iff {start r : Int32} (h : Found pattern text start r)
    (hstart : 0 ≤ start.toInt) : r.toInt < 0 ↔ ∀ i, ¬ OccursAt pattern text i := by
  rcases h with ⟨i, hfirst, hr⟩ | ⟨rfl, hnone⟩
  · refine iff_of_false (by omega) fun hnone => hnone i hfirst.1
  · exact iff_of_true (by decide) hnone

theorem isSubstring_iff (h : Stands mem vec1 slice pattern text) :
    ∃ b, isSubstring mem vec1 slice = some b ∧
      (b = true ↔ ∃ i, OccursAt pattern text i) := by
  obtain ⟨r, hr, hfound⟩ := strstr_found h
  refine ⟨decide (0 ≤ r), by rw [isSubstring, hr]; rfl, ?_⟩
  have hneg := hfound.neg_iff h.inside.start_nonneg
  rw [decide_eq_true_iff, Int32.le_iff_toInt_le, Int32.toInt_zero, ← not_lt, hneg]
  simp

/-- The two parts of a slice, which meet at the first occurrence of the pattern; without
one the second part is empty. -/
structure Splits (pattern text : List UInt8) (slice left right : Slice) : Prop where
  vec : left.vec = slice.vec ∧ right.vec = slice.vec
  start : left.start = slice.start
  meet : left.start.toInt + left.length.toInt = right.start.toInt
  end_eq : right.start.toInt + right.length.toInt = slice.start.toInt + slice.length.toInt
  first : FirstAt pattern text left.length.toInt.toNat ∨
    (right.length = 0 ∧ ∀ i, ¬ OccursAt pattern text i)

theorem position_splits (h : Stands mem vec1 slice pattern text) :
    ∃ left right : ValidSlice, position mem vec1 slice = some (left.1, right.1) ∧
      Splits pattern text slice left.1 right.1 := by
  obtain ⟨r, hr, hfound⟩ := strstr_found h
  have htext := h.text_length
  have hinside := h.inside
  have hsize := slice.vec.size_lt
  obtain ⟨hstart, hlength, hle⟩ := h.inside
  rw [position, hr, Option.map_some]
  rcases hfound with ⟨i, hfirst, hri⟩ | ⟨rfl, hnone⟩
  · have hfit := hfirst.1.1
    have hlen : (r - slice.start).toInt = i := by
      rw [Int32.toInt_sub, Int.bmod_eq_of_le] <;> omega
    have hrest : (slice.length - (r - slice.start)).toInt = slice.length.toInt - i := by
      rw [Int32.toInt_sub, hlen, Int.bmod_eq_of_le] <;> omega
    have hnonneg : ¬ r < 0 := by
      rw [Int32.lt_iff_toInt_lt, Int32.toInt_zero]
      omega
    rw [if_neg hnonneg]
    refine ⟨⟨⟨slice.vec, slice.start, r - slice.start⟩, ⟨hstart, ?_, ?_⟩⟩,
      ⟨⟨slice.vec, r, slice.length - (r - slice.start)⟩, ⟨?_, ?_, ?_⟩⟩, rfl, ?_⟩
    · simp only [hlen]
      omega
    · simp only [hlen]
      omega
    · simp only [hri]
      omega
    · simp only [hrest]
      omega
    · simp only [hri, hrest]
      omega
    · refine ⟨⟨rfl, rfl⟩, rfl, ?_, ?_, .inl ?_⟩
      · simp only [hlen, hri]
      · simp only [hri, hrest]
        omega
      · simpa only [hlen, Int.toNat_natCast] using hfirst
  · have hsum : (slice.start + slice.length).toInt =
        slice.start.toInt + slice.length.toInt := by
      rw [Int32.toInt_add, Int.bmod_eq_of_le] <;> omega
    rw [if_pos (by decide)]
    refine ⟨⟨slice, hinside⟩, ⟨⟨slice.vec, slice.start + slice.length, 0⟩, ⟨?_, ?_, ?_⟩⟩,
      rfl, ⟨⟨rfl, rfl⟩, rfl, ?_, ?_, .inr ⟨rfl, hnone⟩⟩⟩
    · simp only [hsum]
      omega
    · exact le_refl 0
    · simp only [hsum, Int32.toInt_zero]
      omega
    · simp only [hsum]
    · simp only [hsum, Int32.toInt_zero]
      omega

/-- The search by hashes is the naive search, and it needs no byte of the text string
outside the slice. -/
theorem strstr_naive_search (h : Stands mem vec1 slice pattern text) :
    (∃ r, strstr mem vec1 slice = some r ∧ Found pattern text slice.start r) ∧
    (∃ b, isSubstring mem vec1 slice = some b ∧
      (b = true ↔ ∃ i, OccursAt pattern text i)) ∧
    ∃ left right : ValidSlice, position mem vec1 slice = some (left.1, right.1) ∧
      Splits pattern text slice left.1 right.1 :=
  ⟨strstr_found h, isSubstring_iff h, position_splits h⟩

/-- `"ab"` in the middle of `"xbaby"`, of which the first and the last byte are not in
the memory.  The first window of the text is `"ba"`, so the hash is rotated. -/
theorem strstr_naive_search_middle :
    let mem : Memory := fun addr =>
      if addr = 0 ∨ addr = 10 then some 97 else
        if addr = 1 ∨ addr = 9 ∨ addr = 11 then some 98 else none
    let vec1 : Str := ⟨0, 2, by decide, by decide⟩
    let slice : Slice := ⟨⟨8, 5, by decide, by decide⟩, 1, 3⟩
    ∃ r, strstr mem vec1 slice = some r ∧ Found [97, 98] [98, 97, 98] slice.start r :=
  (strstr_naive_search
    { holds_pattern := by decide
      pattern_length := by decide
      holds_text := by decide
      text_length := by decide
      inside := ⟨by decide, by decide, by decide⟩ }).1

/-! ### Pieces between delimiters -/

section Pieces

variable (mem : Memory) (isDelimiter : UInt8 → Bool)

/-- The loop of `tokens` and `fields`, which differ in how they add a piece. -/
def pieces (add : Int32 → Int32 → List Slice → List Slice) (vec : Str) (limit beg i : Int32)
    (z : List Slice) : Option (List Slice) :=
  if hle : limit ≤ i then some (add beg i z).reverse
  else do
    let c ← mem (vec.addr + i.toInt)
    if isDelimiter c then pieces add vec limit (i + 1) (i + 1) (add beg i z)
    else pieces add vec limit beg (i + 1) z
termination_by (limit.toInt - i.toInt).toNat
decreasing_by
  all_goals
    have hlt := Int32.not_le.mp hle
    have hsucc := toInt_succ_of_lt hlt
    have hlt' := Int32.lt_iff_toInt_lt.mp hlt
    omega

def tokens (slice : Slice) : Option (List Slice) :=
  pieces mem isDelimiter
    (fun b e z => if b = e then z else ⟨slice.vec, b, e - b⟩ :: z)
    slice.vec (slice.start + slice.length) slice.start slice.start []

def fields (slice : Slice) : Option (List Slice) :=
  pieces mem isDelimiter (fun b e z => ⟨slice.vec, b, e - b⟩ :: z)
    slice.vec (slice.start + slice.length) slice.start slice.start []

end Pieces

/-- The text of a slice. -/
structure TextOf (mem : Memory) (slice : Slice) (text : List UInt8) : Prop where
  holds : mem.Holds (slice.vec.addr + slice.start.toInt) text
  length : text.length = slice.length.toInt
  inside : slice.Inside

section Pieces

variable {mem : Memory} {isDelimiter : UInt8 → Bool} {slice : Slice} {text : List UInt8}
  {vec : Str} {beg i limit : Int32} {cur rest : List UInt8}

theorem toInt_sub_of_le {b e : Int32} (hb : 0 ≤ b.toInt) (hle : b.toInt ≤ e.toInt) :
    (e - b).toInt = e.toInt - b.toInt := by
  have he := e.toInt_lt
  rw [Int32.toInt_sub, Int.bmod_eq_of_le] <;> omega

/-- The bytes of a string between two indices. -/
structure Between (mem : Memory) (vec : Str) (b e : Int32) (bytes : List UInt8) : Prop where
  nonneg : 0 ≤ b.toInt
  stop : b.toInt + bytes.length = e.toInt
  le_size : e.toInt ≤ vec.size.toInt
  holds : mem.Holds (vec.addr + b.toInt) bytes

theorem Between.textOf {b e : Int32} (h : Between mem vec b e text) :
    TextOf mem ⟨vec, b, e - b⟩ text := by
  have hstop := h.stop
  have hnonneg := h.nonneg
  have hsize := h.le_size
  have hlength := toInt_sub_of_le hnonneg (e := e) (by omega)
  exact ⟨h.holds, by rw [hlength]; omega, hnonneg, by rw [hlength]; omega,
    by simp only [hlength]; omega⟩

theorem Between.empty {b : Int32} (hnonneg : 0 ≤ b.toInt)
    (hsize : b.toInt ≤ vec.size.toInt) : Between mem vec b b [] :=
  ⟨hnonneg, by simp, hsize, fun _ hk => absurd hk (Nat.not_lt_zero _)⟩

theorem TextOf.between (h : TextOf mem slice text) :
    Between mem slice.vec slice.start (slice.start + slice.length) text := by
  have hnonneg := h.inside.start_nonneg
  have hlength := h.inside.length_nonneg
  have hsize := h.inside.le_size
  have hlt := slice.vec.size_lt
  have hsum : (slice.start + slice.length).toInt =
      slice.start.toInt + slice.length.toInt := by
    rw [Int32.toInt_add, Int.bmod_eq_of_le] <;> omega
  exact ⟨hnonneg, by rw [hsum, h.length], by rw [hsum]; exact hsize, h.holds⟩

theorem Between.length_eq {b e : Int32} (h : Between mem vec b e text) :
    e - b = Int32.ofNat text.length ∧ b + Int32.ofNat text.length = e := by
  have hstop := h.stop
  have hlt := e.toInt_lt
  have hnonneg := h.nonneg
  have hnat : (Int32.ofNat text.length).toInt = text.length :=
    Int32.toInt_ofNat_of_lt (by omega)
  constructor
  · apply Int32.toInt_inj.mp
    rw [toInt_sub_of_le hnonneg (by omega), hnat]
    omega
  · apply Int32.toInt_inj.mp
    rw [Int32.toInt_add, hnat, hstop, Int.bmod_eq_of_le] <;> omega

/-- The pieces one after the other, with a delimiter between each and the next. -/
def place (vec : Str) : Int32 → List (List UInt8) → List Slice
  | _, [] => []
  | b, piece :: pieces =>
    ⟨vec, b, Int32.ofNat piece.length⟩ ::
      place vec (b + Int32.ofNat piece.length + 1) pieces

/-- A byte is added behind the bytes. -/
theorem Between.snoc {c : UInt8} {bytes : List UInt8} {b : Int32}
    (h : Between mem vec b i bytes) (hc : mem (vec.addr + i.toInt) = some c)
    (hlt : i < limit) (hsize : limit.toInt ≤ vec.size.toInt) :
    Between mem vec b (i + 1) (bytes ++ [c]) := by
  have hstop := h.stop
  have hsucc := toInt_succ_of_lt hlt
  have hlt' := Int32.lt_iff_toInt_lt.mp hlt
  refine ⟨h.nonneg, ?_, by omega, fun k hk => ?_⟩
  · rw [List.length_append, List.length_singleton]
    omega
  · rw [List.length_append, List.length_singleton] at hk
    by_cases hlast : k = bytes.length
    · subst hlast
      rw [List.getElem?_concat_length, ← hc]
      congr 1
      omega
    · rw [List.getElem?_append_left (by omega), h.holds k (by omega)]

/-- The first piece is the one that is added. -/
theorem place_cons {keep : Slice → Bool} {add : Int32 → Int32 → List Slice → List Slice}
    (hadd : ∀ b e z, add b e z = if keep ⟨vec, b, e - b⟩ then ⟨vec, b, e - b⟩ :: z else z)
    (z : List Slice) (hcur : Between mem vec beg i cur) (texts : List (List UInt8)) :
    z.reverse ++ (place vec beg (cur :: texts)).filter keep =
        (add beg i z).reverse ++ (place vec (i + 1) texts).filter keep ∧
      TextOf mem ⟨vec, beg, Int32.ofNat cur.length⟩ cur := by
  obtain ⟨hlength, hnext⟩ := hcur.length_eq
  refine ⟨?_, hlength ▸ hcur.textOf⟩
  rw [place, hnext, hadd, hlength]
  cases hkeep : keep ⟨vec, beg, Int32.ofNat cur.length⟩ <;> simp [hkeep]

theorem pieces_place (isDelimiter : UInt8 → Bool) (keep : Slice → Bool)
    {add : Int32 → Int32 → List Slice → List Slice}
    (hadd : ∀ b e z, add b e z = if keep ⟨vec, b, e - b⟩ then ⟨vec, b, e - b⟩ :: z else z)
    (z : List Slice) (hcur : Between mem vec beg i cur) (hrest : Between mem vec i limit rest) :
    let texts := rest.splitOnPPrepend isDelimiter cur.reverse
    pieces mem isDelimiter add vec limit beg i z =
        some (z.reverse ++ (place vec beg texts).filter keep) ∧
      List.Forall₂ (TextOf mem) (place vec beg texts) texts := by
  induction rest generalizing beg i cur z with
  | nil =>
    have hle : limit ≤ i := by
      have hstop := hrest.stop
      rw [Int32.le_iff_toInt_le]
      simp only [List.length_nil] at hstop
      omega
    obtain ⟨hplaced, htext⟩ := place_cons hadd z hcur []
    rw [List.splitOnPPrepend_nil, List.reverse_reverse]
    dsimp only
    rw [hplaced, pieces, dif_pos hle]
    simp [place, htext]
  | cons c rest ih =>
    have hstop := hrest.stop
    simp only [List.length_cons] at hstop
    have hlt : i < limit := by
      rw [Int32.lt_iff_toInt_lt]
      omega
    have hsucc := toInt_succ_of_lt hlt
    have hle : (i + 1).toInt ≤ vec.size.toInt := by
      have hsize := hrest.le_size
      omega
    have hnonneg := hrest.nonneg
    have hnext : Between mem vec (i + 1) limit rest := by
      refine ⟨by omega, by omega, hrest.le_size, ?_⟩
      rw [hsucc, ← Int.add_assoc]
      exact hrest.holds.tail
    rw [pieces, dif_neg (Int32.not_le.mpr hlt), hrest.holds.head]
    simp only [Option.bind_eq_bind, Option.bind_some]
    by_cases hdelimiter : isDelimiter c = true
    · obtain ⟨hout, hall⟩ := ih (add beg i z)
        (Between.empty (b := i + 1) (by omega) hle) hnext
      obtain ⟨hplaced, htext⟩ := place_cons hadd z hcur (rest.splitOnP isDelimiter)
      rw [if_pos hdelimiter, List.splitOnPPrepend_cons_pos hdelimiter,
        List.reverse_reverse, hplaced, place, hcur.length_eq.2]
      exact ⟨hout, .cons htext hall⟩
    · rw [if_neg hdelimiter,
        List.splitOnPPrepend_cons_neg (Bool.eq_false_iff.mpr hdelimiter)]
      simpa using ih z (hcur.snoc hrest.holds.head hlt hrest.le_size) hnext

/-- `fields` cuts a slice at every delimiter, and `tokens` leaves the empty pieces
out.  The pieces are the slices of the same string that follow each other from its
start on. -/
theorem fields_tokens_splitOnP (isDelimiter : UInt8 → Bool) (h : TextOf mem slice text) :
    let texts := text.splitOnP isDelimiter
    let placed := place slice.vec slice.start texts
    fields mem isDelimiter slice = some placed ∧
      tokens mem isDelimiter slice = some (placed.filter fun piece => piece.length != 0) ∧
      List.Forall₂ (TextOf mem) placed texts ∧
      List.Forall₂ (TextOf mem) (placed.filter fun piece => piece.length != 0)
        (texts.filter fun piece => !piece.isEmpty) := by
  intro texts placed
  have hempty : Between mem slice.vec slice.start slice.start [] := by
    have hstop := h.between.stop
    have hsize := h.between.le_size
    exact Between.empty h.inside.start_nonneg (by omega)
  obtain ⟨hfields, htexts⟩ := pieces_place isDelimiter (fun _ => true)
    (fun _ _ _ => rfl) [] hempty h.between
  have htoken : ∀ (b e : Int32) (z : List Slice),
      (if b = e then z else ⟨slice.vec, b, e - b⟩ :: z) =
        if (e - b != 0) = true then ⟨slice.vec, b, e - b⟩ :: z else z := by
    intro b e z
    by_cases heq : b = e
    · simp [heq]
    · have hne : e - b ≠ 0 := by
        intro hzero
        have hcancel := Int32.sub_add_cancel e b
        rw [hzero, Int32.zero_add] at hcancel
        exact heq hcancel
      simp [heq, hne]
  obtain ⟨htokens, -⟩ := pieces_place isDelimiter (fun piece => piece.length != 0)
    htoken [] hempty h.between
  have hlengths : ∀ ⦃piece : Slice⦄ ⦃bytes : List UInt8⦄, TextOf mem piece bytes →
      ((piece.length != 0) = true ↔ (!bytes.isEmpty) = true) := by
    intro piece bytes hpiece
    have hzero : piece.length = 0 ↔ bytes.length = 0 := by
      rw [← Int32.toInt_inj, ← Int.natCast_inj, hpiece.length]
      rfl
    simp [hzero]
  have htokens : tokens mem isDelimiter slice = _ := htokens
  refine ⟨?_, htokens, htexts, List.rel_filter hlengths htexts⟩
  rw [fields]
  simpa using hfields

/-- The pieces of `"a,,a"` in the middle of a string. -/
theorem fields_tokens_commas :
    let mem : Memory := fun addr =>
      if addr = 9 ∨ addr = 12 then some 97 else
        if addr = 10 ∨ addr = 11 then some 44 else none
    let slice : Slice := ⟨⟨8, 6, by decide, by decide⟩, 1, 4⟩
    tokens mem (· == 44) slice = some [⟨slice.vec, 1, 1⟩, ⟨slice.vec, 4, 1⟩] ∧
      List.Forall₂ (TextOf mem) [⟨slice.vec, 1, 1⟩, ⟨slice.vec, 4, 1⟩] [[97], [97]] := by
  intro mem slice
  have htext : TextOf mem slice [97, 44, 44, 97] :=
    { holds := by decide
      length := by decide
      inside := ⟨by decide, by decide, by decide⟩ }
  obtain ⟨-, htokens, -, htexts⟩ := fields_tokens_splitOnP (· == 44) htext
  exact ⟨htokens, htexts⟩

end Pieces

end Substring

end SmlSharp
