/-
The pass that cuts the guards of a format expression that are nested too deep or
have too many elements.
-/
import SmlSharp.AssocResolver

namespace SmlSharp

namespace Truncator

open PrettyPrinter2
open AssocResolver (stackWeight stackWeight_pop stackWeight_push stackWeight_tail
  weight_le_stackWeight stackWeight_body flatten flattenAll isSequence isVisible
  flatten_single stack_induction pending pending_nil pending_pop pending_push pending_cons
  isSequence_of_mem_flattenAll)

/-- Of the printer parameters the limits. -/
structure ParameterRecord where
  maxDepthOfGuards : Option Int
  maxWidthOfGuards : Option Int

def elision : Expression :=
  .guard none [.indicator true (some .deferred), .term 3 "..."]

def snoc : List Expression → Expression → List Expression
  | [], x => [x]
  | l, x => [.sequence l, x]

def filterFE (f : Expression → Bool) : List Expression → List (List Expression) →
    List Expression → List Expression
  | [], [], r => r
  | [], h :: t, r => filterFE f h t r
  | .sequence x :: t, k, r => filterFE f x (t :: k) r
  | h :: t, k, r => filterFE f t k (if f h then snoc r h else r)
termination_by symbols k => stackWeight symbols k
decreasing_by
  · exact stackWeight_pop h t
  · exact stackWeight_push x t k
  · exact stackWeight_tail h t k

def isCutOffDepth (parameter : ParameterRecord) (d : Int) : Bool :=
  match parameter.maxDepthOfGuards with
  | none => false
  | some depth => decide (depth ≤ d)

def keepSymbol : Expression → Bool
  | .startOfIndent _ => true
  | .endOfIndent => true
  | _ => false

/-- What `takeHead` returns when the width is used up. -/
def cut (accum symbols : List Expression) (k : List (List Expression)) : List Expression :=
  .sequence accum :: elision :: filterFE keepSymbol symbols k []

mutual

def takeHead (parameter : ParameterRecord) (d : Int) :
    Int → List Expression → List Expression → List (List Expression) → List Expression
  | _, accum, [], [] => accum
  | w, accum, [], h :: t =>
    if w = 0 then cut accum [] (h :: t) else takeHead parameter d w accum h t
  | w, accum, .sequence x :: t, k =>
    if w = 0 then cut accum (.sequence x :: t) k
    else takeHead parameter d w accum x (t :: k)
  | w, accum, symbol :: symbols, k =>
    if w = 0 then cut accum (symbol :: symbols) k
    else
      let accum' := visit parameter (d + 1) symbol :: accum
      match symbol with
      | .term _ _ => takeHead parameter d (w - 1) accum' symbols k
      | .guard _ _ => takeHead parameter d (w - 1) accum' symbols k
      | _ => takeHead parameter d w accum' symbols k
termination_by _ _ symbols k => stackWeight symbols k + 1
decreasing_by
  · exact Nat.succ_lt_succ (stackWeight_pop h t)
  · exact Nat.succ_lt_succ (stackWeight_push x t k)
  · exact Nat.lt_succ_of_le (weight_le_stackWeight symbol symbols k)
  all_goals exact Nat.succ_lt_succ (stackWeight_tail _ symbols k)

def visit (parameter : ParameterRecord) (depth : Int) : Expression → Expression
  | .guard enclosedAssocOpt symbols =>
    if isCutOffDepth parameter depth then elision
    else
      .guard enclosedAssocOpt
        (match parameter.maxWidthOfGuards with
        | none => symbols
        | some width => takeHead parameter depth width [] symbols [])
  | symbol => symbol
termination_by symbol => symbol.weight
decreasing_by exact stackWeight_body enclosedAssocOpt symbols

end

def truncate (parameter : ParameterRecord) (symbol : Expression) : Expression :=
  match parameter.maxDepthOfGuards, parameter.maxWidthOfGuards with
  | none, none => symbol
  | _, _ => visit parameter 0 symbol

/-! ### The loop on flat lists -/

/-- The elements up to the last one that the width has room for, and the others. -/
def splitVisible (w : Int) : List Expression → List Expression × List Expression
  | [] => ([], [])
  | symbol :: symbols =>
    if w = 0 then ([], symbol :: symbols)
    else
      let (kept, rest) := splitVisible (if isVisible symbol then w - 1 else w) symbols
      (symbol :: kept, rest)

def countVisible (symbols : List Expression) : Nat := symbols.countP isVisible

/-- Behind the last visible element there is something more, be it the end of a
sequence only. -/
def endsOpen : List Expression → List (List Expression) → Bool
  | symbols, [] =>
    match symbols.getLast? with
    | none => false
    | some symbol => !isVisible symbol
  | _, [last] =>
    match last.getLast? with
    | none => true
    | some symbol => !isVisible symbol
  | _, _ :: h :: t => endsOpen [] (h :: t)

/-- The width is used up before the end; one below zero is never used up. -/
def Cuts (w : Int) (symbols : List Expression) (k : List (List Expression)) : Prop :=
  0 ≤ w ∧ (w < countVisible (pending symbols k) ∨
    w = countVisible (pending symbols k) ∧ endsOpen symbols k = true)

attribute [local simp] filterFE takeHead endsOpen flattenAll

theorem flattenAll_append (xs ys : List Expression) :
    flattenAll (xs ++ ys) = flattenAll xs ++ flattenAll ys := by
  induction xs with
  | nil => rfl
  | cons x xs ih => simp [ih, List.append_assoc]

theorem flattenAll_snoc (r : List Expression) (h : Expression) :
    flattenAll (snoc r h) = flattenAll r ++ flatten h := by
  cases r with
  | nil => simp [snoc]
  | cons x xs => simp [snoc, flatten]

theorem filterFE_cons {head : Expression} (hhead : isSequence head = false)
    (f : Expression → Bool) (tail : List Expression) (k : List (List Expression))
    (r : List Expression) :
    filterFE f (head :: tail) k r = filterFE f tail k (if f head then snoc r head else r) := by
  cases head with
  | sequence _ => cases hhead
  | _ => simp

/-- The filter keeps the order. -/
theorem flattenAll_filterFE (f : Expression → Bool) (symbols : List Expression)
    (k : List (List Expression)) (r : List Expression) :
    flattenAll (filterFE f symbols k r) = flattenAll r ++ (pending symbols k).filter f := by
  induction symbols, k using stack_induction generalizing r with
  | done => simp [pending]
  | pop head tail ih => rw [filterFE, ih, pending_pop]
  | push body tail stack ih => rw [filterFE, ih, pending_push]
  | cons head tail stack hhead ih =>
    rw [filterFE_cons hhead, ih, pending_cons hhead]
    by_cases hf : f head = true
    · simp [hf, flattenAll_snoc, flatten_single hhead]
    · simp [hf]

theorem takeHead_cons {head : Expression} (hhead : isSequence head = false)
    (parameter : ParameterRecord) (d w : Int) (accum symbols : List Expression)
    (k : List (List Expression)) :
    takeHead parameter d w accum (head :: symbols) k =
      if w = 0 then cut accum (head :: symbols) k
      else takeHead parameter d (if isVisible head then w - 1 else w)
        (visit parameter (d + 1) head :: accum) symbols k := by
  cases head with
  | sequence _ => cases hhead
  | _ => simp [isVisible]

theorem splitVisible_zero (symbols : List Expression) : splitVisible 0 symbols = ([], symbols) := by
  cases symbols with
  | nil => rfl
  | cons symbol symbols => rw [splitVisible, if_pos rfl]

theorem splitVisible_cons {w : Int} (hw : w ≠ 0) (symbol : Expression)
    (symbols : List Expression) : splitVisible w (symbol :: symbols) =
      (symbol :: (splitVisible (if isVisible symbol then w - 1 else w) symbols).1,
        (splitVisible (if isVisible symbol then w - 1 else w) symbols).2) := by
  rw [splitVisible, if_neg hw]

theorem endsOpen_stack (symbols h : List Expression) (t : List (List Expression)) :
    endsOpen symbols (h :: t) = endsOpen [] (h :: t) := by
  cases t with
  | nil => rfl
  | cons h' t => rfl

theorem isVisible_of_isSequence {symbol : Expression} (h : isSequence symbol = true) :
    isVisible symbol = false := by
  cases symbol with
  | sequence _ => rfl
  | _ => cases h

/-- Without a visible element what is left ends open. -/
theorem endsOpen_of_count {symbols : List Expression} {k : List (List Expression)}
    (hcount : countVisible (pending symbols k) = 0) (hne : ¬ (symbols = [] ∧ k = [])) :
    endsOpen symbols k = true := by
  have hlast : ∀ (xs : List Expression) symbol, xs.getLast? = some symbol →
      countVisible (flattenAll xs) = 0 → isVisible symbol = false := by
    intro xs symbol hsome hnone
    by_cases hseq : isSequence symbol = true
    · exact isVisible_of_isSequence hseq
    · obtain ⟨ys, rfl⟩ := List.getLast?_eq_some_iff.mp hsome
      have hflat : flattenAll [symbol] = [symbol] := by
        rw [flattenAll, flatten_single (Bool.not_eq_true _ ▸ hseq), flattenAll, List.append_nil]
      rw [flattenAll_append, hflat, countVisible, List.countP_append, Nat.add_eq_zero_iff] at hnone
      simpa using hnone.2
  induction k generalizing symbols with
  | nil =>
    rw [pending_nil] at hcount
    unfold endsOpen
    cases hsome : symbols.getLast? with
    | none => exact absurd ⟨List.getLast?_eq_none_iff.mp hsome, rfl⟩ hne
    | some symbol => simp [hlast symbols symbol hsome hcount]
  | cons h t ih =>
    have hsplit : countVisible (flattenAll symbols) = 0 ∧ countVisible (pending h t) = 0 := by
      simpa [pending, countVisible] using hcount
    cases t with
    | nil =>
      rw [pending_nil] at hsplit
      unfold endsOpen
      cases hsome : h.getLast? with
      | none => rfl
      | some symbol => simp [hlast h symbol hsome hsplit.2]
    | cons h' t =>
      rw [endsOpen, ← endsOpen_stack h]
      exact ih hsplit.2 (by simp)

theorem cuts_zero {symbols : List Expression} {k : List (List Expression)}
    (hne : ¬ (symbols = [] ∧ k = [])) : Cuts 0 symbols k := by
  refine ⟨Int.le_refl 0, ?_⟩
  by_cases hcount : countVisible (pending symbols k) = 0
  · exact Or.inr ⟨by rw [hcount]; rfl, endsOpen_of_count hcount hne⟩
  · exact Or.inl (by omega)

theorem cuts_pop {w : Int} (hw : w ≠ 0) (h : List Expression) (t : List (List Expression)) :
    Cuts w [] (h :: t) ↔ Cuts w h t := by
  unfold Cuts
  rw [pending_pop]
  cases t with
  | cons h' t => rw [endsOpen, endsOpen_stack h]
  | nil =>
    cases hlast : h.getLast? with
    | some symbol => simp [hlast]
    | none =>
      rw [List.getLast?_eq_none_iff.mp hlast]
      simp [pending, countVisible, hw]

theorem cuts_push (w : Int) (x t : List Expression) (k : List (List Expression)) :
    Cuts w (.sequence x :: t) k ↔ Cuts w x (t :: k) := by
  unfold Cuts
  rw [pending_push]
  cases k with
  | cons h k => rw [endsOpen_stack, endsOpen]
  | nil =>
    cases t with
    | nil => simp [isVisible]
    | cons y t =>
      cases hlast : (y :: t).getLast? with
      | none => simp at hlast
      | some symbol => simp [List.getLast?_cons_cons, hlast]

theorem cuts_cons {head : Expression} (hhead : isSequence head = false) {w : Int} (hw : w ≠ 0)
    (tail : List Expression) (k : List (List Expression)) :
    Cuts w (head :: tail) k ↔ Cuts (if isVisible head then w - 1 else w) tail k := by
  unfold Cuts
  rw [pending_cons hhead]
  have hends : isVisible head = true ∨ ¬ (tail = [] ∧ k = []) →
      endsOpen (head :: tail) k = endsOpen tail k := by
    intro hcase
    cases k with
    | cons h k => rw [endsOpen_stack, endsOpen_stack tail]
    | nil =>
      cases tail with
      | cons y tail => simp [List.getLast?_cons_cons]
      | nil =>
        have hvisible : isVisible head = true := hcase.resolve_right fun hne => hne ⟨rfl, rfl⟩
        simp [hvisible]
  by_cases hvisible : isVisible head = true
  · rw [hends (Or.inl hvisible), if_pos hvisible]
    simp only [countVisible, List.countP_cons_of_pos hvisible]
    cases endsOpen tail k with
    | true =>
      simp only [and_true]
      omega
    | false =>
      simp only [Bool.false_eq_true, and_false, or_false]
      omega
  · rw [if_neg hvisible]
    simp only [countVisible, List.countP_cons_of_neg hvisible]
    by_cases hnil : tail = [] ∧ k = []
    · obtain ⟨rfl, rfl⟩ := hnil
      simp [pending, hw]
    · rw [hends (Or.inr hnil)]

section Loop

variable (parameter : ParameterRecord) (d : Int)

/-- The elements that the width has room for, visited, in the reverse order; behind
them, if the width is used up before the end, the ellipsis and the indents of
the others. -/
def Taken (w : Int) (accum symbols : List Expression) (cuts : Prop)
    (taken : List Expression) : Prop :=
  let split := splitVisible w symbols
  let visited := (split.1.map (visit parameter (d + 1))).reverse ++ accum
  (cuts → ∃ tail, taken = .sequence visited :: elision :: tail ∧
    flattenAll tail = split.2.filter keepSymbol) ∧
  (¬ cuts → taken = visited ∧ split.2 = [])

theorem taken_cut (accum : List Expression) {symbols : List Expression}
    {k : List (List Expression)} (hne : ¬ (symbols = [] ∧ k = [])) :
    Taken parameter d 0 accum (pending symbols k) (Cuts 0 symbols k) (cut accum symbols k) := by
  rw [Taken, splitVisible_zero]
  refine ⟨fun _ => ⟨_, rfl, ?_⟩, fun hnot => absurd (cuts_zero hne) hnot⟩
  rw [flattenAll_filterFE]
  rfl

theorem taken_cons {w : Int} (hw : w ≠ 0) {accum symbols : List Expression}
    {head : Expression} {cuts : Prop} {taken : List Expression}
    (h : Taken parameter d (if isVisible head then w - 1 else w)
      (visit parameter (d + 1) head :: accum) symbols cuts taken) :
    Taken parameter d w accum (head :: symbols) cuts taken := by
  simpa [Taken, splitVisible_cons hw] using h

theorem takeHead_taken (w : Int) (accum symbols : List Expression)
    (k : List (List Expression)) :
    Taken parameter d w accum (pending symbols k) (Cuts w symbols k)
      (takeHead parameter d w accum symbols k) := by
  induction symbols, k using stack_induction generalizing w accum with
  | done =>
    rw [takeHead]
    refine ⟨fun hcuts => ?_, fun _ => ⟨rfl, rfl⟩⟩
    simp [Cuts, pending, countVisible] at hcuts
    omega
  | pop head tail ih =>
    rw [takeHead]
    by_cases hw : w = 0
    · subst hw
      rw [if_pos rfl]
      exact taken_cut parameter d accum (by simp)
    · rw [if_neg hw, cuts_pop hw, pending_pop]
      exact ih w accum
  | push body tail stack ih =>
    rw [takeHead]
    by_cases hw : w = 0
    · subst hw
      rw [if_pos rfl]
      exact taken_cut parameter d accum (by simp)
    · rw [if_neg hw, cuts_push, pending_push]
      exact ih w accum
  | cons head tail stack hhead ih =>
    rw [takeHead_cons hhead]
    by_cases hw : w = 0
    · subst hw
      rw [if_pos rfl]
      exact taken_cut parameter d accum (by simp)
    · rw [if_neg hw, cuts_cons hhead hw, pending_cons hhead]
      exact taken_cons parameter d hw (ih _ _)

end Loop

end Truncator

end SmlSharp
