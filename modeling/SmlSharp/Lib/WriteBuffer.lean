/-
Buffers that are filled by writes to positions, with every write on record.
-/
import Mathlib.Data.List.Basic
import Mathlib.Data.List.Nodup

namespace SmlSharp

universe u

/-- An allocated buffer and the writes to it, the oldest first. -/
structure WriteBuffer (A : Type u) where
  size : Int
  writes : List (Int × A)

namespace WriteBuffer

variable {A : Type u}

def alloc (size : Int) : WriteBuffer A := ⟨size, []⟩

def update (buf : WriteBuffer A) (i : Int) (a : A) : WriteBuffer A :=
  { buf with writes := buf.writes ++ [(i, a)] }

/-- The last value that was written to a position. -/
def written (buf : WriteBuffer A) (i : Int) : Option A :=
  (buf.writes.reverse.find? fun write => write.1 = i).map Prod.snd

def contents [Inhabited A] (buf : WriteBuffer A) : List A :=
  (List.range buf.size.toNat).map fun i : Nat => (buf.written i).getD default

/-- Every write is to a position of the buffer, and every position has been
written once. -/
structure WrittenOnce (buf : WriteBuffer A) : Prop where
  inBounds : ∀ write ∈ buf.writes, 0 ≤ write.1 ∧ write.1 < buf.size
  once : ∀ i, 0 ≤ i → i < buf.size → (buf.writes.map Prod.fst).count i = 1

/-- Values at consecutive positions. -/
def writesFrom (i : Int) : List A → List (Int × A)
  | [] => []
  | a :: as => (i, a) :: writesFrom (i + 1) as

/-- Write values to consecutive positions. -/
def updateFrom (buf : WriteBuffer A) (i : Int) (xs : List A) : WriteBuffer A :=
  { buf with writes := buf.writes ++ writesFrom i xs }

attribute [local simp] writesFrom

theorem writesFrom_append (i : Int) (xs ys : List A) :
    writesFrom i (xs ++ ys) = writesFrom i xs ++ writesFrom (i + xs.length) ys := by
  induction xs generalizing i with
  | nil => simp
  | cons a xs ih =>
    simp only [List.cons_append, writesFrom, ih, List.length_cons]
    rw [show i + 1 + (xs.length : Int) = i + ((xs.length + 1 : Nat) : Int) by omega]

theorem mem_writesFrom {i : Int} {xs : List A} {write : Int × A}
    (hmem : write ∈ writesFrom i xs) : i ≤ write.1 ∧ write.1 < i + xs.length := by
  induction xs generalizing i with
  | nil => simp at hmem
  | cons a xs ih =>
    rw [List.length_cons]
    rcases List.mem_cons.1 hmem with rfl | hmem
    · simp only
      omega
    · have := ih hmem
      omega

theorem count_writesFrom (i : Int) (xs : List A) (j : Int) :
    ((writesFrom i xs).map Prod.fst).count j = if i ≤ j ∧ j < i + xs.length then 1 else 0 := by
  induction xs generalizing i with
  | nil =>
    simp only [writesFrom, List.map_nil, List.count_nil, List.length_nil]
    rw [if_neg (by omega)]
  | cons a xs ih =>
    simp only [writesFrom, List.map_cons, List.count_cons, ih, List.length_cons, beq_iff_eq]
    by_cases hj : i = j
    · rw [if_neg (by omega), if_pos hj, if_pos (by omega)]
    · rw [if_neg hj]
      by_cases hrange : i ≤ j ∧ j < i + (xs.length + 1 : Nat)
      · rw [if_pos (by omega), if_pos hrange]
      · rw [if_neg (by omega), if_neg hrange]

/-- The values have been written from the start of the buffer on, in their
order, and nothing else. -/
def Upto (buf : WriteBuffer A) (xs : List A) : Prop := buf.writes = writesFrom 0 xs

theorem upto_alloc (size : Int) : (alloc size : WriteBuffer A).Upto [] := rfl

theorem Upto.updateFrom {buf : WriteBuffer A} {xs : List A} (h : buf.Upto xs) {i : Int}
    (hi : i = xs.length) (ys : List A) : (buf.updateFrom i ys).Upto (xs ++ ys) := by
  rw [Upto, WriteBuffer.updateFrom, h, writesFrom_append, hi, Int.zero_add]

theorem Upto.update {buf : WriteBuffer A} {xs : List A} (h : buf.Upto xs) {i : Int}
    (hi : i = xs.length) (a : A) : (buf.update i a).Upto (xs ++ [a]) :=
  h.updateFrom hi [a]

theorem Upto.writtenOnce {buf : WriteBuffer A} {xs : List A} (h : buf.Upto xs)
    (hsize : buf.size = xs.length) : buf.WrittenOnce := by
  refine ⟨fun write hmem => ?_, fun i hpos hlt => ?_⟩
  · rw [h] at hmem
    have := mem_writesFrom hmem
    omega
  · rw [h, count_writesFrom, if_pos (by omega)]

theorem find_writesFrom {i : Int} {xs : List A} (k : Nat) (hk : k < xs.length) :
    (writesFrom i xs).reverse.find? (fun write => write.1 = i + k) = some (i + k, xs[k]) := by
  induction xs generalizing i k with
  | nil => simp at hk
  | cons a xs ih =>
    rw [writesFrom, List.reverse_cons, List.find?_append]
    cases k with
    | zero =>
      have hnone : (writesFrom (i + 1) xs).reverse.find?
          (fun write => write.1 = i + (0 : Nat)) = none := by
        refine List.find?_eq_none.2 fun write hmem => ?_
        have := mem_writesFrom (List.mem_reverse.1 hmem)
        simp only [decide_eq_true_eq]
        omega
      rw [hnone]
      simp
    | succ k =>
      have hstep := ih (i := i + 1) k (by simpa using hk)
      rw [show i + 1 + (k : Int) = i + ((k + 1 : Nat) : Int) by omega] at hstep
      rw [hstep]
      simp

theorem Upto.contents [Inhabited A] {buf : WriteBuffer A} {xs : List A} (h : buf.Upto xs)
    (hsize : buf.size = xs.length) : buf.contents = xs := by
  refine List.ext_getElem ?_ fun i hi hi' => ?_
  · simp [WriteBuffer.contents, hsize]
  · have hfind := find_writesFrom (i := 0) i hi'
    rw [Int.zero_add] at hfind
    simp only [WriteBuffer.contents, List.getElem_map, List.getElem_range, written]
    rw [h, hfind]
    rfl

end WriteBuffer

end SmlSharp
