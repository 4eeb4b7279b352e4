/-
What the truncation should keep, and when it does.
-/
import SmlSharp.Truncator.Truncate

namespace SmlSharp

namespace Truncator

open PrettyPrinter2
open AssocResolver (flatten flattenAll isSequence isVisible flatten_single pending pending_nil
  isSequence_of_mem_flattenAll flattenAll_self)

/-! ### What is visible -/

inductive Shape where
  | term (len : Int) (text : String)
  | guard (assoc : Option GuardAssoc) (children : List Shape)

mutual

/-- The visible terms, in their guards. -/
def shapes : Expression → List Shape
  | .term len text => [.term len text]
  | .guard assoc body => [.guard assoc (shapesAll body)]
  | .sequence body => shapesAll body
  | .newline => []
  | .indicator _ _ => []
  | .startOfIndent _ => []
  | .endOfIndent => []

def shapesAll : List Expression → List Shape
  | [] => []
  | symbol :: symbols => shapes symbol ++ shapesAll symbols

end

def ellipsis : Shape := .guard none [.term 3 "..."]

/-- The first elements of a guard, with an ellipsis for the others; a width below
zero is none. -/
def first (arrange : List Shape → List Shape) (parameter : ParameterRecord)
    (children : List Shape) : List Shape :=
  match parameter.maxWidthOfGuards with
  | none => arrange children
  | some w =>
    if 0 ≤ w ∧ w < children.length then arrange (children.take w.toNat) ++ [ellipsis]
    else arrange children

section Kept

variable (arrange : List Shape → List Shape) (parameter : ParameterRecord)

mutual

/-- What is to be visible of an expression at a depth, if the first elements of each
guard are arranged in this way. -/
def keptShapes (d : Int) : Expression → List Shape
  | .term len text => [.term len text]
  | .guard assoc body =>
    if isCutOffDepth parameter d then [ellipsis]
    else [.guard assoc (first arrange parameter (keptShapesAll (d + 1) body))]
  | .sequence body => keptShapesAll d body
  | .newline => []
  | .indicator _ _ => []
  | .startOfIndent _ => []
  | .endOfIndent => []

def keptShapesAll (d : Int) : List Expression → List Shape
  | [] => []
  | symbol :: symbols => keptShapes d symbol ++ keptShapesAll d symbols

end

end Kept

/-- The indents that are opened and closed. -/
def marker : Expression → Option Bool
  | .startOfIndent _ => some true
  | .endOfIndent => some false
  | _ => none

def closes : Nat → List Bool → Bool
  | depth, [] => depth == 0
  | depth, true :: markers => closes (depth + 1) markers
  | 0, false :: _ => false
  | depth + 1, false :: markers => closes depth markers

/-- In every guard the indents are closed in order. -/
inductive Balanced : Expression → Prop
  | other {symbol : Expression} : (∀ assoc body, symbol ≠ .guard assoc body) → Balanced symbol
  | guard {assoc : Option GuardAssoc} {body : List Expression} :
      closes 0 ((flattenAll body).filterMap marker) = true →
      (∀ symbol ∈ flattenAll body, Balanced symbol) → Balanced (.guard assoc body)

/-- Neither limit is exceeded. -/
inductive Fits (parameter : ParameterRecord) : Int → Expression → Prop
  | other {d : Int} {symbol : Expression} :
      (∀ assoc body, symbol ≠ .guard assoc body) → Fits parameter d symbol
  | guard {d : Int} {assoc : Option GuardAssoc} {body : List Expression} :
      isCutOffDepth parameter d = false →
      (∀ w, parameter.maxWidthOfGuards = some w → 0 ≤ w →
        countVisible (flattenAll body) ≤ w) →
      (∀ symbol ∈ flattenAll body, Fits parameter (d + 1) symbol) →
      Fits parameter d (.guard assoc body)

/-- The first elements of each guard are kept in their order, guards that are too
deep and further elements are replaced by the ellipsis, the indents stay
balanced, and what fits is unchanged. -/
structure Truncates (parameter : ParameterRecord) (symbol symbol' : Expression) : Prop where
  visible : shapes symbol' = keptShapes id parameter 0 symbol
  balanced : Balanced symbol → Balanced symbol'
  unchanged : Fits parameter 0 symbol → symbol' = symbol

/-! ### When it does -/

/-- Without a width: what is too deep looks like the ellipsis already. -/
inductive Shallow (parameter : ParameterRecord) : Int → Expression → Prop
  | other {d : Int} {symbol : Expression} :
      (∀ assoc body, symbol ≠ .guard assoc body) → Shallow parameter d symbol
  | deep {d : Int} {assoc : Option GuardAssoc} {body : List Expression} :
      isCutOffDepth parameter d = true → shapes (.guard assoc body) = [ellipsis] →
      Shallow parameter d (.guard assoc body)
  | guard {d : Int} {assoc : Option GuardAssoc} {body : List Expression} :
      isCutOffDepth parameter d = false →
      (∀ symbol ∈ flattenAll body, Shallow parameter (d + 1) symbol) →
      Shallow parameter d (.guard assoc body)

/-- With a width: no guard that has just as many elements goes on behind the last
one. -/
inductive Tight (parameter : ParameterRecord) (w : Int) : Int → Expression → Prop
  | other {d : Int} {symbol : Expression} :
      (∀ assoc body, symbol ≠ .guard assoc body) → Tight parameter w d symbol
  | deep {d : Int} {assoc : Option GuardAssoc} {body : List Expression} :
      isCutOffDepth parameter d = true → Tight parameter w d (.guard assoc body)
  | guard {d : Int} {assoc : Option GuardAssoc} {body : List Expression} :
      isCutOffDepth parameter d = false →
      ¬ (w = countVisible (flattenAll body) ∧ endsOpen body [] = true) →
      (∀ symbol ∈ (splitVisible w (flattenAll body)).1, Tight parameter w (d + 1) symbol) →
      Tight parameter w d (.guard assoc body)

/-- The indents of the first elements, read backwards, and those of the others are
balanced. -/
inductive BalancedBack (parameter : ParameterRecord) (w : Int) : Int → Expression → Prop
  | other {d : Int} {symbol : Expression} :
      (∀ assoc body, symbol ≠ .guard assoc body) → BalancedBack parameter w d symbol
  | deep {d : Int} {assoc : Option GuardAssoc} {body : List Expression} :
      isCutOffDepth parameter d = true → BalancedBack parameter w d (.guard assoc body)
  | guard {d : Int} {assoc : Option GuardAssoc} {body : List Expression} :
      isCutOffDepth parameter d = false →
      closes 0 (((splitVisible w (flattenAll body)).1.filterMap marker).reverse ++
        (splitVisible w (flattenAll body)).2.filterMap marker) = true →
      (∀ symbol ∈ (splitVisible w (flattenAll body)).1, BalancedBack parameter w (d + 1) symbol) →
      BalancedBack parameter w d (.guard assoc body)

mutual

/-- All guards read backwards, without sequences. -/
def mirror : Expression → List Expression
  | .term len text => [.term len text]
  | .newline => [.newline]
  | .guard assoc body => [.guard assoc (mirrorAll body).reverse]
  | .indicator space newline => [.indicator space newline]
  | .startOfIndent n => [.startOfIndent n]
  | .endOfIndent => [.endOfIndent]
  | .sequence body => mirrorAll body

def mirrorAll : List Expression → List Expression
  | [] => []
  | symbol :: symbols => mirror symbol ++ mirrorAll symbols

end

/-- With a width, what is kept has to read the same backwards. -/
structure Palindromic (parameter : ParameterRecord) (w : Int) (symbol : Expression) : Prop where
  tight : Tight parameter w 0 symbol
  visible : keptShapes List.reverse parameter 0 symbol = keptShapes id parameter 0 symbol
  balanced : Balanced symbol → BalancedBack parameter w 0 symbol
  unchanged : Fits parameter 0 symbol → mirror symbol = [symbol]

/-- The inputs on which the truncation is right. -/
def RightOn (parameter : ParameterRecord) (symbol : Expression) : Prop :=
  match parameter.maxWidthOfGuards with
  | none => isCutOffDepth parameter 0 = true ∨ Shallow parameter 0 symbol
  | some w => Palindromic parameter w symbol

/-! ### Flat lists -/

mutual

theorem flatMap_flatten {β : Type} {f : Expression → List β}
    (hf : ∀ body, f (.sequence body) = body.flatMap f) (symbol : Expression) :
    (flatten symbol).flatMap f = f symbol := by
  match symbol with
  | .sequence body =>
    rw [flatten, hf]
    exact flatMap_flattenAll hf body
  | .term _ _ => simp [flatten]
  | .newline => simp [flatten]
  | .guard _ _ => simp [flatten]
  | .indicator _ _ => simp [flatten]
  | .startOfIndent _ => simp [flatten]
  | .endOfIndent => simp [flatten]

theorem flatMap_flattenAll {β : Type} {f : Expression → List β}
    (hf : ∀ body, f (.sequence body) = body.flatMap f) (symbols : List Expression) :
    (flattenAll symbols).flatMap f = symbols.flatMap f := by
  match symbols with
  | [] => rfl
  | symbol :: symbols =>
    rw [flattenAll, List.flatMap_append, flatMap_flatten hf symbol,
      flatMap_flattenAll hf symbols, List.flatMap_cons]

end

theorem shapesAll_eq_flatMap (symbols : List Expression) :
    shapesAll symbols = symbols.flatMap shapes := by
  induction symbols with
  | nil => rfl
  | cons symbol symbols ih => rw [shapesAll, ih, List.flatMap_cons]

theorem shapesAll_flattenAll (symbols : List Expression) :
    shapesAll symbols = (flattenAll symbols).flatMap shapes := by
  rw [flatMap_flattenAll fun body => shapesAll_eq_flatMap body, shapesAll_eq_flatMap]

theorem keptShapesAll_eq_flatMap (arrange : List Shape → List Shape)
    (parameter : ParameterRecord) (d : Int) (symbols : List Expression) :
    keptShapesAll arrange parameter d symbols =
      symbols.flatMap (keptShapes arrange parameter d) := by
  induction symbols with
  | nil => rfl
  | cons symbol symbols ih => rw [keptShapesAll, ih, List.flatMap_cons]

theorem keptShapesAll_flattenAll (arrange : List Shape → List Shape)
    (parameter : ParameterRecord) (d : Int) (symbols : List Expression) :
    keptShapesAll arrange parameter d symbols =
      (flattenAll symbols).flatMap (keptShapes arrange parameter d) := by
  rw [flatMap_flattenAll fun body => keptShapesAll_eq_flatMap arrange parameter d body,
    keptShapesAll_eq_flatMap]

theorem mirrorAll_flattenAll (symbols : List Expression) :
    mirrorAll symbols = (flattenAll symbols).flatMap mirror := by
  have heq : ∀ symbols, mirrorAll symbols = symbols.flatMap mirror := by
    intro symbols
    induction symbols with
    | nil => rfl
    | cons symbol symbols ih => rw [mirrorAll, ih, List.flatMap_cons]
  rw [flatMap_flattenAll fun body => heq body, heq]

mutual

theorem weight_of_mem_flatten (head : Expression) :
    ∀ symbol ∈ flatten head, symbol.weight ≤ head.weight := by
  match head with
  | .sequence body =>
    intro symbol hmem
    have hle := weight_of_mem_flattenAll body symbol hmem
    simp only [Expression.weight]
    omega
  | .term _ _ => simp [flatten]
  | .newline => simp [flatten]
  | .guard _ _ => simp [flatten]
  | .indicator _ _ => simp [flatten]
  | .startOfIndent _ => simp [flatten]
  | .endOfIndent => simp [flatten]

theorem weight_of_mem_flattenAll (symbols : List Expression) :
    ∀ symbol ∈ flattenAll symbols, symbol.weight ≤ weights symbols := by
  match symbols with
  | [] => simp [flattenAll]
  | head :: rest =>
    intro symbol hmem
    rw [weights_cons]
    rcases List.mem_append.mp hmem with hhead | hrest
    · have hle := weight_of_mem_flatten head symbol hhead
      omega
    · have hle := weight_of_mem_flattenAll rest symbol hrest
      omega

end

/-- What holds of a guard when it holds of its elements holds of every expression. -/
theorem guard_induction {motive : Expression → Prop}
    (other : ∀ symbol, (∀ assoc body, symbol ≠ .guard assoc body) → motive symbol)
    (guard : ∀ assoc body, (∀ symbol ∈ flattenAll body, motive symbol) →
      motive (.guard assoc body)) (symbol : Expression) : motive symbol := by
  induction hweight : symbol.weight using Nat.strongRecOn generalizing symbol with
  | ind weight ih =>
    cases symbol with
    | guard assoc body =>
      refine guard assoc body fun symbol hmem => ih symbol.weight ?_ symbol rfl
      have hle := weight_of_mem_flattenAll body symbol hmem
      have hlt := AssocResolver.stackWeight_body assoc body
      simp only [AssocResolver.stackWeight, List.map_nil, List.sum_nil] at hlt
      omega
    | _ => exact other _ (by simp)

/-! ### The first elements -/

theorem splitVisible_append (w : Int) (symbols : List Expression) :
    (splitVisible w symbols).1 ++ (splitVisible w symbols).2 = symbols := by
  induction symbols generalizing w with
  | nil => rfl
  | cons symbol symbols ih =>
    by_cases hw : w = 0
    · rw [hw, splitVisible_zero]
      rfl
    · rw [splitVisible_cons hw]
      exact congrArg (symbol :: ·) (ih _)

theorem mem_of_mem_kept {w : Int} {symbols : List Expression} {symbol : Expression}
    (h : symbol ∈ (splitVisible w symbols).1) : symbol ∈ symbols := by
  rw [← splitVisible_append w symbols]
  exact List.mem_append_left _ h

theorem splitVisible_neg {w : Int} (hw : w < 0) (symbols : List Expression) :
    splitVisible w symbols = (symbols, []) := by
  induction symbols generalizing w with
  | nil => rfl
  | cons symbol symbols ih =>
    rw [splitVisible_cons (by omega), ih (by split <;> omega)]

/-- A visible element has one shape, any other none. -/
def OneEach {β : Type} (g : Expression → List β) (symbols : List Expression) : Prop :=
  ∀ symbol ∈ symbols, (g symbol).length = if isVisible symbol then 1 else 0

section OneEach

variable {β : Type} {g : Expression → List β} {symbols : List Expression}

theorem OneEach.length (h : OneEach g symbols) :
    (symbols.flatMap g).length = countVisible symbols := by
  induction symbols with
  | nil => rfl
  | cons symbol symbols ih =>
    have hrest := ih fun symbol' hmem => h symbol' (List.mem_cons_of_mem symbol hmem)
    have hhead := h symbol List.mem_cons_self
    rw [List.flatMap_cons, List.length_append, hrest, hhead, countVisible, countVisible,
      List.countP_cons, Nat.add_comm]

theorem OneEach.kept (h : OneEach g symbols) {w : Int} (hw : 0 ≤ w) :
    (splitVisible w symbols).1.flatMap g = (symbols.flatMap g).take w.toNat := by
  induction symbols generalizing w with
  | nil => simp [splitVisible]
  | cons symbol symbols ih =>
    have hrest : OneEach g symbols :=
      fun symbol' hmem => h symbol' (List.mem_cons_of_mem symbol hmem)
    have hhead := h symbol List.mem_cons_self
    by_cases hzero : w = 0
    · rw [hzero, splitVisible_zero]
      simp
    · rw [splitVisible_cons hzero, List.flatMap_cons, List.flatMap_cons]
      by_cases hvisible : isVisible symbol = true
      · rw [if_pos hvisible] at hhead ⊢
        have htake : (g symbol).take w.toNat = g symbol :=
          List.take_of_length_le (by omega)
        have hless : (w - 1).toNat = w.toNat - 1 := by omega
        rw [ih hrest (by omega), List.take_append, htake, hhead, hless]
      · rw [if_neg hvisible] at hhead ⊢
        rw [List.eq_nil_of_length_eq_zero hhead, ih hrest hw]
        rfl

theorem OneEach.reverse (h : OneEach g symbols) :
    symbols.reverse.flatMap g = (symbols.flatMap g).reverse := by
  induction symbols with
  | nil => rfl
  | cons symbol symbols ih =>
    have hrest := ih fun symbol' hmem => h symbol' (List.mem_cons_of_mem symbol hmem)
    have hhead : (g symbol).reverse = g symbol := by
      have hlength := h symbol List.mem_cons_self
      match hg : g symbol with
      | [] => rfl
      | [shape] => rfl
      | _ :: _ :: _ =>
        rw [hg] at hlength
        split at hlength <;> simp at hlength
    rw [List.reverse_cons, List.flatMap_append, hrest, List.flatMap_cons,
      List.flatMap_cons, List.reverse_append, hhead]
    simp

end OneEach

theorem first_eq {parameter : ParameterRecord} {w : Int}
    (hwidth : parameter.maxWidthOfGuards = some w) (arrange : List Shape → List Shape)
    {g : Expression → List Shape} {symbols : List Expression} (h : OneEach g symbols) :
    first arrange parameter (symbols.flatMap g) =
      arrange ((splitVisible w symbols).1.flatMap g) ++
        if 0 ≤ w ∧ w < countVisible symbols then [ellipsis] else [] := by
  rw [first, hwidth]
  dsimp only
  rw [h.length]
  split
  · next hcut => rw [h.kept hcut.1]
  · next hall =>
      rw [List.append_nil]
      by_cases hw : 0 ≤ w
      · rw [h.kept hw, List.take_of_length_le]
        rw [h.length]
        omega
      · rw [splitVisible_neg (by omega)]

theorem oneEach_shapes {symbols : List Expression}
    (h : ∀ symbol ∈ symbols, isSequence symbol = false) : OneEach shapes symbols := by
  intro symbol hmem
  cases symbol with
  | sequence body => nomatch h _ hmem
  | _ => rfl

theorem oneEach_keptShapes (arrange : List Shape → List Shape) (parameter : ParameterRecord)
    (d : Int) {symbols : List Expression}
    (h : ∀ symbol ∈ symbols, isSequence symbol = false) :
    OneEach (keptShapes arrange parameter d) symbols := by
  intro symbol hmem
  cases symbol with
  | sequence body => nomatch h _ hmem
  | guard assoc body =>
    rw [keptShapes]
    split <;> rfl
  | _ => rfl

end Truncator

end SmlSharp
