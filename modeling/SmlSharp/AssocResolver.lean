/-
The pass that replaces the associativities of guards by parentheses.
-/
import SmlSharp.PrettyPrinter2.Machine

namespace SmlSharp

namespace AssocResolver

open PrettyPrinter2

/-- Of the printer parameters the texts of the parentheses. -/
structure ParameterRecord where
  guardLeft : String
  guardRight : String

def weakThan (left right : GuardAssoc) : Bool :=
  if left.strength < right.strength then true
  else if left.strength = right.strength then
    match left.direction, right.direction with
    | .left, .neutral => true
    | .right, .neutral => true
    | _, _ => false
  else false

def equal (left right : GuardAssoc) : Bool :=
  decide (left.strength = right.strength) && decide (left.direction = right.direction)

def encloseSymbols (parameter : ParameterRecord) (symbols : List Expression) :
    List Expression :=
  [.term 1 parameter.guardLeft, .startOfIndent 1, .sequence symbols,
    .term 1 parameter.guardRight, .endOfIndent]

/-! ### Loops over flattened lists -/

/-- The work in a list and in the lists that are left for after it. -/
def stackWeight (symbols : List Expression) (stack : List (List Expression)) :
    Nat :=
  weights symbols + (stack.map fun rest => weights rest + 1).sum

theorem weight_pos (symbol : Expression) : 0 < symbol.weight := by
  match symbol with
  | .term _ _ => exact Nat.one_pos
  | .newline => exact Nat.one_pos
  | .guard none _ => exact Nat.succ_pos _
  | .guard (some _) _ => exact Nat.succ_pos _
  | .indicator _ _ => exact Nat.succ_pos _
  | .startOfIndent _ => exact Nat.one_pos
  | .endOfIndent => exact Nat.one_pos
  | .sequence _ => exact Nat.succ_pos _

theorem stackWeight_pop (head : List Expression) (tail : List (List Expression)) :
    stackWeight head tail < stackWeight [] (head :: tail) := by
  simp [stackWeight]

theorem stackWeight_push (body tail : List Expression)
    (stack : List (List Expression)) :
    stackWeight body (tail :: stack) < stackWeight (.sequence body :: tail) stack := by
  simp [stackWeight, Expression.weight]
  omega

theorem stackWeight_tail (head : Expression) (tail : List Expression)
    (stack : List (List Expression)) :
    stackWeight tail stack < stackWeight (head :: tail) stack := by
  have hpos := weight_pos head
  simp [stackWeight]
  omega

theorem weight_le_stackWeight (head : Expression) (tail : List Expression)
    (stack : List (List Expression)) :
    head.weight ≤ stackWeight (head :: tail) stack := by
  simp [stackWeight]
  omega

/-- The expressions in reverse order, without sequences. -/
def revFE : List Expression → List (List Expression) → List Expression →
    List Expression
  | [], [], reversed => reversed
  | [], head :: tail, reversed => revFE head tail reversed
  | .sequence body :: tail, stack, reversed => revFE body (tail :: stack) reversed
  | head :: tail, stack, reversed => revFE tail stack (head :: reversed)
termination_by symbols stack => stackWeight symbols stack
decreasing_by
  · exact stackWeight_pop head tail
  · exact stackWeight_push body tail stack
  · exact stackWeight_tail head tail stack

theorem weights_revFE (symbols : List Expression) (stack : List (List Expression))
    (reversed : List Expression) : weights (revFE symbols stack reversed) ≤
      stackWeight symbols stack + weights reversed := by
  fun_induction revFE symbols stack reversed with
  | case1 reversed => simp [stackWeight]
  | case2 head tail reversed ih =>
    have hpop := stackWeight_pop head tail
    omega
  | case3 body tail stack reversed ih =>
    have hpush := stackWeight_push body tail stack
    omega
  | case4 head tail stack reversed _ ih =>
    simp [stackWeight] at ih ⊢
    omega

theorem stackWeight_body (enclosed : Option GuardAssoc)
    (symbols : List Expression) :
    stackWeight symbols [] + 1 < (Expression.guard enclosed symbols).weight := by
  cases enclosed <;> simp [stackWeight, Expression.weight]

theorem stackWeight_revFE (enclosed : Option GuardAssoc)
    (symbols : List Expression) : stackWeight (revFE symbols [] []) [] + 1 <
      (Expression.guard enclosed symbols).weight := by
  have hrev := weights_revFE symbols [] []
  have hbody := stackWeight_body enclosed symbols
  simp [stackWeight] at hrev hbody ⊢
  omega

mutual

def visit (parameter : ParameterRecord) (enclosing : GuardAssoc) :
    Expression → Expression
  | .guard enclosed symbols =>
    let inheritToFirst := match enclosed with
      | none => enclosing
      | some assoc => assoc
    let inheritToOther := { inheritToFirst with direction := .neutral }
    let newSymbols := match inheritToFirst.direction with
      | .left =>
        revFE (scan parameter inheritToFirst inheritToOther symbols [] []) [] []
      | .right =>
        scan parameter inheritToFirst inheritToOther (revFE symbols [] []) [] []
      | .neutral => revFE (mapRevFE parameter inheritToFirst symbols [] []) [] []
    match enclosed with
    | none => .guard none newSymbols
    | some assoc =>
      if assoc.cut then .guard none newSymbols
      else if weakThan enclosing assoc || equal enclosing assoc then
        .guard none newSymbols
      else .guard none (encloseSymbols parameter newSymbols)
  | symbol => symbol
termination_by symbol => symbol.weight
decreasing_by
  · exact stackWeight_body enclosed symbols
  · exact stackWeight_revFE enclosed symbols
  · exact stackWeight_body enclosed symbols

/-- `visitList (toInherit, toOther)`. -/
def scan (parameter : ParameterRecord) (toInherit toOther : GuardAssoc) :
    List Expression → List (List Expression) → List Expression → List Expression
  | [], [], visited => visited
  | [], head :: tail, visited => scan parameter toInherit toOther head tail visited
  | .sequence body :: tail, stack, visited =>
    scan parameter toInherit toOther body (tail :: stack) visited
  | head :: others, stack, visited =>
    let visited' := visit parameter toInherit head :: visited
    match head with
    | .guard _ _ => scan parameter toOther toOther others stack visited'
    | .term _ _ => scan parameter toOther toOther others stack visited'
    | _ => scan parameter toInherit toOther others stack visited'
termination_by symbols stack => stackWeight symbols stack + 1
decreasing_by
  · exact Nat.succ_lt_succ (stackWeight_pop head tail)
  · exact Nat.succ_lt_succ (stackWeight_push body tail stack)
  · exact Nat.lt_succ_of_le (weight_le_stackWeight head others stack)
  all_goals exact Nat.succ_lt_succ (stackWeight_tail _ others stack)

/-- `mapRevFE (visit toInherit)`. -/
def mapRevFE (parameter : ParameterRecord) (toInherit : GuardAssoc) :
    List Expression → List (List Expression) → List Expression → List Expression
  | [], [], visited => visited
  | [], head :: tail, visited => mapRevFE parameter toInherit head tail visited
  | .sequence body :: tail, stack, visited =>
    mapRevFE parameter toInherit body (tail :: stack) visited
  | head :: tail, stack, visited =>
    mapRevFE parameter toInherit tail stack
      (visit parameter toInherit head :: visited)
termination_by symbols stack => stackWeight symbols stack + 1
decreasing_by
  · exact Nat.succ_lt_succ (stackWeight_pop head tail)
  · exact Nat.succ_lt_succ (stackWeight_push body tail stack)
  · exact Nat.lt_succ_of_le (weight_le_stackWeight head tail stack)
  · exact Nat.succ_lt_succ (stackWeight_tail head tail stack)

end

def resolve (parameter : ParameterRecord) (symbol : Expression) : Expression :=
  visit parameter ⟨true, -1, .neutral⟩ symbol

/-! ### The loops on flat lists -/

mutual

def flatten : Expression → List Expression
  | .sequence body => flattenAll body
  | .term len text => [.term len text]
  | .newline => [.newline]
  | .guard assoc body => [.guard assoc body]
  | .indicator space newline => [.indicator space newline]
  | .startOfIndent n => [.startOfIndent n]
  | .endOfIndent => [.endOfIndent]

/-- The expressions without sequences. -/
def flattenAll : List Expression → List Expression
  | [] => []
  | expression :: rest => flatten expression ++ flattenAll rest

end

def isSequence : Expression → Bool
  | .sequence _ => true
  | _ => false

/-- The children that an associativity is inherited to. -/
def isVisible : Expression → Bool
  | .guard _ _ => true
  | .term _ _ => true
  | _ => false

attribute [local simp] revFE mapRevFE scan visit flatten flattenAll

variable {head : Expression} {assoc : GuardAssoc} {symbols symbols' : List Expression}

theorem flatten_single (hhead : isSequence head = false) :
    flatten head = [head] := by
  cases head with
  | sequence _ => cases hhead
  | _ => rfl

/-- The loops take the head of the list, the list of a sequence or the next list
that is left. -/
theorem stack_induction {motive : List Expression → List (List Expression) → Prop}
    (done : motive [] [])
    (pop : ∀ head tail, motive head tail → motive [] (head :: tail))
    (push : ∀ body tail stack, motive body (tail :: stack) →
      motive (.sequence body :: tail) stack)
    (cons : ∀ head tail stack, isSequence head = false → motive tail stack →
      motive (head :: tail) stack)
    (symbols : List Expression) (stack : List (List Expression)) :
    motive symbols stack := by
  fun_induction revFE symbols stack [] with
  | case1 => exact done
  | case2 head tail _ ih => exact pop head tail ih
  | case3 body tail stack _ ih => exact push body tail stack ih
  | case4 head tail stack _ hhead ih =>
    refine cons head tail stack ?_ ih
    cases head with
    | sequence body => exact absurd rfl (hhead body)
    | _ => rfl

/-- The expressions that a loop has still to go through. -/
def pending (symbols : List Expression) (stack : List (List Expression)) :
    List Expression :=
  flattenAll symbols ++ stack.flatMap flattenAll

theorem pending_nil (symbols : List Expression) :
    pending symbols [] = flattenAll symbols :=
  List.append_nil _

theorem pending_pop (head : List Expression) (tail : List (List Expression)) :
    pending [] (head :: tail) = pending head tail := rfl

theorem pending_push (body tail : List Expression)
    (stack : List (List Expression)) :
    pending (.sequence body :: tail) stack = pending body (tail :: stack) := by
  simp [pending, List.append_assoc]

theorem pending_cons (hhead : isSequence head = false)
    (tail : List Expression) (stack : List (List Expression)) :
    pending (head :: tail) stack = head :: pending tail stack := by
  simp [pending, flatten_single hhead]

theorem revFE_cons (hhead : isSequence head = false)
    (tail : List Expression) (stack : List (List Expression))
    (reversed : List Expression) :
    revFE (head :: tail) stack reversed = revFE tail stack (head :: reversed) := by
  cases head with
  | sequence _ => cases hhead
  | _ => simp

theorem revFE_eq (symbols : List Expression) (stack : List (List Expression))
    (reversed : List Expression) :
    revFE symbols stack reversed = (pending symbols stack).reverse ++ reversed := by
  induction symbols, stack using stack_induction generalizing reversed with
  | done => rw [revFE]; rfl
  | pop head tail ih => rw [revFE, ih, pending_pop]
  | push body tail stack ih => rw [revFE, ih, pending_push]
  | cons head tail stack hhead ih =>
    rw [revFE_cons hhead, ih, pending_cons hhead]
    simp

section Loops

variable (parameter : ParameterRecord)

/-- What `scan` visits, in the order of its list. -/
def scanned (toInherit toOther : GuardAssoc) : List Expression → List Expression
  | [] => []
  | head :: others =>
    visit parameter toInherit head ::
      scanned (if isVisible head then toOther else toInherit) toOther others

theorem mapRevFE_cons (hhead : isSequence head = false)
    (toInherit : GuardAssoc) (tail : List Expression)
    (stack : List (List Expression)) (visited : List Expression) :
    mapRevFE parameter toInherit (head :: tail) stack visited =
      mapRevFE parameter toInherit tail stack
        (visit parameter toInherit head :: visited) := by
  cases head with
  | sequence _ => cases hhead
  | _ => simp

theorem scan_cons (hhead : isSequence head = false)
    (toInherit toOther : GuardAssoc) (others : List Expression)
    (stack : List (List Expression)) (visited : List Expression) :
    scan parameter toInherit toOther (head :: others) stack visited =
      scan parameter (if isVisible head then toOther else toInherit) toOther others
        stack (visit parameter toInherit head :: visited) := by
  cases head with
  | sequence _ => cases hhead
  | _ => simp [isVisible]

theorem mapRevFE_eq (toInherit : GuardAssoc) (symbols : List Expression)
    (stack : List (List Expression)) (visited : List Expression) :
    mapRevFE parameter toInherit symbols stack visited =
      ((pending symbols stack).map (visit parameter toInherit)).reverse
        ++ visited := by
  induction symbols, stack using stack_induction generalizing visited with
  | done => rw [mapRevFE]; rfl
  | pop head tail ih => rw [mapRevFE, ih, pending_pop]
  | push body tail stack ih => rw [mapRevFE, ih, pending_push]
  | cons head tail stack hhead ih =>
    rw [mapRevFE_cons parameter hhead, ih, pending_cons hhead]
    simp

theorem scan_eq (toInherit toOther : GuardAssoc) (symbols : List Expression)
    (stack : List (List Expression)) (visited : List Expression) :
    scan parameter toInherit toOther symbols stack visited =
      (scanned parameter toInherit toOther (pending symbols stack)).reverse
        ++ visited := by
  induction symbols, stack using stack_induction generalizing toInherit visited with
  | done => rw [scan]; rfl
  | pop head tail ih => rw [scan, ih, pending_pop]
  | push body tail stack ih => rw [scan, ih, pending_push]
  | cons head tail stack hhead ih =>
    rw [scan_cons parameter hhead, ih, pending_cons hhead]
    simp [scanned]

theorem scanned_append (toInherit toOther : GuardAssoc)
    (symbols symbols' : List Expression) :
    scanned parameter toInherit toOther (symbols ++ symbols') =
      scanned parameter toInherit toOther symbols ++
        scanned parameter (if symbols.any isVisible then toOther else toInherit)
          toOther symbols' := by
  induction symbols generalizing toInherit with
  | nil => rfl
  | cons head others ih =>
    cases hvisible : isVisible head <;> simp [scanned, ih, hvisible]

theorem scanned_same (toInherit : GuardAssoc) (symbols : List Expression) :
    scanned parameter toInherit toInherit symbols =
      symbols.map (visit parameter toInherit) := by
  induction symbols with
  | nil => rfl
  | cons head others ih => simp [scanned, ih]

/-- What `scan` visits from the end of its list, in the order of the list. -/
def scannedBack (toInherit toOther : GuardAssoc) (symbols : List Expression) :
    List Expression :=
  (scanned parameter toInherit toOther symbols.reverse).reverse

theorem scannedBack_append (toInherit toOther : GuardAssoc)
    (symbols symbols' : List Expression) :
    scannedBack parameter toInherit toOther (symbols ++ symbols') =
      scannedBack parameter (if symbols'.any isVisible then toOther else toInherit)
        toOther symbols ++ scannedBack parameter toInherit toOther symbols' := by
  simp [scannedBack, scanned_append]

theorem scannedBack_same (toInherit : GuardAssoc) (symbols : List Expression) :
    scannedBack parameter toInherit toInherit symbols =
      symbols.map (visit parameter toInherit) := by
  simp [scannedBack, scanned_same]

end Loops

/-! ### Inheritance from left to right -/

def neutral (assoc : GuardAssoc) : GuardAssoc :=
  { assoc with direction := .neutral }

def hasVisible (symbols : List Expression) : Bool :=
  (flattenAll symbols).any isVisible

/-- What a child inherits when `rest` comes after it. -/
def toHead (rest : List Expression) (assoc : GuardAssoc) : GuardAssoc :=
  match assoc.direction with
  | .right => if hasVisible rest then neutral assoc else assoc
  | _ => assoc

/-- What the children after `head` inherit. -/
def toRest (head : Expression) (assoc : GuardAssoc) : GuardAssoc :=
  match assoc.direction with
  | .left => if (flatten head).any isVisible then neutral assoc else assoc
  | _ => assoc

theorem neutral_neutral (assoc : GuardAssoc) :
    neutral (neutral assoc) = neutral assoc := rfl

theorem neutral_of_neutral (hassoc : assoc.direction = .neutral) :
    neutral assoc = assoc := by
  obtain ⟨cut, strength, direction⟩ := assoc
  dsimp only at hassoc
  rw [hassoc]
  rfl

section Placed

variable (parameter : ParameterRecord)

mutual

def placed (assoc : GuardAssoc) : Expression → List Expression
  | .sequence body => placedAll assoc body
  | .term len text => [visit parameter assoc (.term len text)]
  | .newline => [visit parameter assoc .newline]
  | .guard enclosed body => [visit parameter assoc (.guard enclosed body)]
  | .indicator space newline => [visit parameter assoc (.indicator space newline)]
  | .startOfIndent n => [visit parameter assoc (.startOfIndent n)]
  | .endOfIndent => [visit parameter assoc .endOfIndent]

/-- The visited children without sequences, with what each one inherits. -/
def placedAll (assoc : GuardAssoc) : List Expression → List Expression
  | [] => []
  | head :: rest => placed (toHead rest assoc) head ++ placedAll (toRest head assoc) rest

end

theorem toHead_of_ne (hassoc : assoc.direction ≠ .right)
    (rest : List Expression) : toHead rest assoc = assoc := by
  unfold toHead
  split
  · rename_i hright
    exact absurd hright hassoc
  · rfl

theorem toHead_right (hassoc : assoc.direction = .right)
    (rest : List Expression) :
    toHead rest assoc = if hasVisible rest then neutral assoc else assoc := by
  simp [toHead, hassoc]

theorem toRest_right (hassoc : assoc.direction = .right)
    (head : Expression) : toRest head assoc = assoc := by
  simp [toRest, hassoc]

/-- Where the direction is not to the right, the children after a visible one
inherit the neutral associativity. -/
theorem toRest_of_ne (hassoc : assoc.direction ≠ .right) (head : Expression) :
    toRest head assoc =
      if (flatten head).any isVisible then neutral assoc else assoc := by
  cases hdirection : assoc.direction with
  | left => simp [toRest, hdirection]
  | right => exact absurd hdirection hassoc
  | neutral => simp [toRest, hdirection, neutral_of_neutral hdirection]

mutual

theorem placed_left (head : Expression) (assoc : GuardAssoc)
    (hassoc : assoc.direction ≠ .right) :
    scanned parameter assoc (neutral assoc) (flatten head) =
      placed parameter assoc head := by
  match head with
  | .sequence body => exact placedAll_left body assoc hassoc
  | .term _ _ => rfl
  | .newline => rfl
  | .guard _ _ => rfl
  | .indicator _ _ => rfl
  | .startOfIndent _ => rfl
  | .endOfIndent => rfl

theorem placedAll_left (symbols : List Expression) (assoc : GuardAssoc)
    (hassoc : assoc.direction ≠ .right) :
    scanned parameter assoc (neutral assoc) (flattenAll symbols) =
      placedAll parameter assoc symbols := by
  match symbols with
  | [] => rfl
  | head :: rest =>
    have hneutral : neutral (toRest head assoc) = neutral assoc := by
      rw [toRest_of_ne hassoc]
      split <;> rfl
    have hdirection : (toRest head assoc).direction ≠ .right := by
      rw [toRest_of_ne hassoc]
      split
      · exact AssocDirection.noConfusion
      · exact hassoc
    have hrest := placedAll_left rest (toRest head assoc) hdirection
    rw [hneutral] at hrest
    rw [placedAll, toHead_of_ne hassoc, ← hrest, ← placed_left head assoc hassoc,
      flattenAll, scanned_append, ← toRest_of_ne hassoc]

end

mutual

theorem placed_right (head : Expression) (assoc : GuardAssoc)
    (hassoc : assoc.direction = .right) :
    scannedBack parameter assoc (neutral assoc) (flatten head) =
      placed parameter assoc head := by
  match head with
  | .sequence body => exact placedAll_right body assoc hassoc
  | .term _ _ => rfl
  | .newline => rfl
  | .guard _ _ => rfl
  | .indicator _ _ => rfl
  | .startOfIndent _ => rfl
  | .endOfIndent => rfl

theorem placedAll_right (symbols : List Expression) (assoc : GuardAssoc)
    (hassoc : assoc.direction = .right) :
    scannedBack parameter assoc (neutral assoc) (flattenAll symbols) =
      placedAll parameter assoc symbols := by
  match symbols with
  | [] => rfl
  | head :: rest =>
    rw [placedAll, toRest_right hassoc, ← placedAll_right rest assoc hassoc,
      flattenAll, scannedBack_append]
    congr 1
    rw [toHead_right hassoc, hasVisible]
    split
    · -- Where something visible follows, the child inherits no direction.
      have hne : (neutral assoc).direction ≠ .right := AssocDirection.noConfusion
      rw [← placed_left parameter head (neutral assoc) hne, neutral_neutral,
        scannedBack_same, scanned_same]
    · exact placed_right head assoc hassoc

end

theorem isSequence_visit {symbol : Expression} (hsymbol : isSequence symbol = false)
    (assoc : GuardAssoc) : isSequence (visit parameter assoc symbol) = false := by
  cases symbol with
  | sequence _ => cases hsymbol
  | guard enclosed _ =>
    cases enclosed with
    | none =>
      rw [visit]
      rfl
    | some _ =>
      rw [visit]
      split
      · rfl
      · split <;> rfl
  | _ => simp [isSequence]

mutual

theorem isSequence_of_mem_flatten (head : Expression) :
    ∀ symbol ∈ flatten head, isSequence symbol = false := by
  match head with
  | .sequence body => exact isSequence_of_mem_flattenAll body
  | .term _ _ => simp [isSequence]
  | .newline => simp [isSequence]
  | .guard _ _ => simp [isSequence]
  | .indicator _ _ => simp [isSequence]
  | .startOfIndent _ => simp [isSequence]
  | .endOfIndent => simp [isSequence]

theorem isSequence_of_mem_flattenAll (symbols : List Expression) :
    ∀ symbol ∈ flattenAll symbols, isSequence symbol = false := by
  match symbols with
  | [] => simp
  | head :: rest =>
    intro symbol hmem
    rcases List.mem_append.mp hmem with hhead | hrest
    · exact isSequence_of_mem_flatten head symbol hhead
    · exact isSequence_of_mem_flattenAll rest symbol hrest

end

theorem isSequence_of_mem_scanned (toInherit toOther : GuardAssoc)
    (hsymbols : ∀ symbol ∈ symbols, isSequence symbol = false) :
    ∀ symbol ∈ scanned parameter toInherit toOther symbols,
      isSequence symbol = false := by
  induction symbols generalizing toInherit with
  | nil => simp [scanned]
  | cons head others ih =>
    intro symbol hmem
    rcases List.mem_cons.mp hmem with rfl | hmem
    · exact isSequence_visit parameter (hsymbols head List.mem_cons_self) toInherit
    · exact ih _ (fun other hother => hsymbols other (List.mem_cons_of_mem _ hother))
        symbol hmem

theorem flattenAll_self (hsymbols : ∀ symbol ∈ symbols, isSequence symbol = false) :
    flattenAll symbols = symbols := by
  induction symbols with
  | nil => rfl
  | cons head rest ih =>
    rw [flattenAll, flatten_single (hsymbols head List.mem_cons_self),
      ih fun symbol hmem => hsymbols symbol (List.mem_cons_of_mem _ hmem)]
    rfl

/-- `revFE` on a list that has no sequences. -/
theorem revFE_self (hsymbols : ∀ symbol ∈ symbols, isSequence symbol = false) :
    revFE symbols [] [] = symbols.reverse := by
  rw [revFE_eq, pending_nil, flattenAll_self hsymbols, List.append_nil]

theorem newSymbols_left (hassoc : assoc.direction ≠ .right)
    (symbols : List Expression) :
    revFE (scan parameter assoc (neutral assoc) symbols [] []) [] [] =
      placedAll parameter assoc symbols := by
  have hvisited := isSequence_of_mem_scanned parameter assoc (neutral assoc)
    (isSequence_of_mem_flattenAll symbols)
  rw [scan_eq, pending_nil, List.append_nil, revFE_self, List.reverse_reverse,
    placedAll_left parameter symbols assoc hassoc]
  intro symbol hmem
  exact hvisited symbol (List.mem_reverse.mp hmem)

theorem newSymbols_right (hassoc : assoc.direction = .right)
    (symbols : List Expression) :
    scan parameter assoc (neutral assoc) (revFE symbols [] []) [] [] =
      placedAll parameter assoc symbols := by
  have hflat : ∀ symbol ∈ (flattenAll symbols).reverse,
      isSequence symbol = false := by
    intro symbol hmem
    exact isSequence_of_mem_flattenAll symbols symbol (List.mem_reverse.mp hmem)
  rw [revFE_eq, pending_nil, List.append_nil, scan_eq, pending_nil,
    flattenAll_self hflat, List.append_nil, ← scannedBack,
    placedAll_right parameter symbols assoc hassoc]

theorem newSymbols_neutral (hassoc : assoc.direction = .neutral)
    (symbols : List Expression) :
    revFE (mapRevFE parameter assoc symbols [] []) [] [] =
      placedAll parameter assoc symbols := by
  have hne : assoc.direction ≠ .right := by
    rw [hassoc]
    exact AssocDirection.noConfusion
  have hmap : mapRevFE parameter assoc symbols [] [] =
      scan parameter assoc (neutral assoc) symbols [] [] := by
    rw [mapRevFE_eq, scan_eq, neutral_of_neutral hassoc, scanned_same]
  rw [hmap]
  exact newSymbols_left parameter hne symbols

theorem visit_guard (enclosing : GuardAssoc) (enclosed : Option GuardAssoc)
    (symbols : List Expression) :
    visit parameter enclosing (.guard enclosed symbols) =
      match enclosed with
      | none => .guard none (placedAll parameter enclosing symbols)
      | some assoc =>
        if assoc.cut || (weakThan enclosing assoc || equal enclosing assoc) then
          .guard none (placedAll parameter assoc symbols)
        else
          .guard none
            (encloseSymbols parameter (placedAll parameter assoc symbols)) := by
  have hsymbols : ∀ assoc : GuardAssoc,
      (match assoc.direction with
        | .left =>
          revFE (scan parameter assoc (neutral assoc) symbols [] []) [] []
        | .right =>
          scan parameter assoc (neutral assoc) (revFE symbols [] []) [] []
        | .neutral => revFE (mapRevFE parameter assoc symbols [] []) [] []) =
      placedAll parameter assoc symbols := by
    intro assoc
    cases hdirection : assoc.direction with
    | left =>
      have hne : assoc.direction ≠ .right := by
        rw [hdirection]
        exact AssocDirection.noConfusion
      exact newSymbols_left parameter hne symbols
    | right => exact newSymbols_right parameter hdirection symbols
    | neutral => exact newSymbols_neutral parameter hdirection symbols
  cases enclosed with
  | none =>
    have hnew := hsymbols enclosing
    simp only [neutral] at hnew
    rw [visit]
    simp only [hnew]
  | some assoc =>
    have hnew := hsymbols assoc
    simp only [neutral] at hnew
    rw [visit]
    simp only [hnew]
    cases hcut : assoc.cut <;> simp

end Placed

/-! ### The enclosed guards -/

/-- Expressions without sequences and associativities, where the marked guards
among those that had an associativity, from left to right and from the outside
in, are enclosed in parentheses. -/
inductive Encloses (parameter : ParameterRecord) :
    List Expression → List Bool → List Expression → Prop where
  | nil : Encloses parameter [] [] []
  | keep (symbol : Expression) {rest rest' : List Expression} {marks : List Bool} :
      isSequence symbol = false → (∀ assoc body, symbol ≠ .guard assoc body) →
      Encloses parameter rest marks rest' →
        Encloses parameter (symbol :: rest) marks (symbol :: rest')
  | sequence {body body' rest rest' : List Expression} {marks marks' : List Bool} :
      Encloses parameter body marks body' → Encloses parameter rest marks' rest' →
        Encloses parameter (.sequence body :: rest) (marks ++ marks')
          (body' ++ rest')
  | guard {body body' rest rest' : List Expression} {marks marks' : List Bool} :
      Encloses parameter body marks body' → Encloses parameter rest marks' rest' →
        Encloses parameter (.guard none body :: rest) (marks ++ marks')
          (.guard none body' :: rest')
  | bare (assoc : GuardAssoc) {body body' rest rest' : List Expression}
      {marks marks' : List Bool} :
      Encloses parameter body marks body' → Encloses parameter rest marks' rest' →
        Encloses parameter (.guard (some assoc) body :: rest)
          (false :: marks ++ marks') (.guard none body' :: rest')
  | enclosed (assoc : GuardAssoc) {body body' rest rest' : List Expression}
      {marks marks' : List Bool} :
      Encloses parameter body marks body' → Encloses parameter rest marks' rest' →
        Encloses parameter (.guard (some assoc) body :: rest)
          (true :: marks ++ marks')
          (.guard none (encloseSymbols parameter body') :: rest')

mutual

def marks (assoc : GuardAssoc) : Expression → List Bool
  | .guard none body => marksAll assoc body
  | .guard (some inner) body =>
    (!(inner.cut || (weakThan assoc inner || equal assoc inner)))
      :: marksAll inner body
  | .sequence body => marksAll assoc body
  | .term _ _ => []
  | .newline => []
  | .indicator _ _ => []
  | .startOfIndent _ => []
  | .endOfIndent => []

/-- Whether `visit` encloses the guards with an associativity. -/
def marksAll (assoc : GuardAssoc) : List Expression → List Bool
  | [] => []
  | head :: rest => marks (toHead rest assoc) head ++ marksAll (toRest head assoc) rest

end

section Encloses

variable {parameter : ParameterRecord}

mutual

theorem placed_encloses (head : Expression) (assoc : GuardAssoc)
    {rest rest' : List Expression} {marks' : List Bool}
    (hrest : Encloses parameter rest marks' rest') :
    Encloses parameter (head :: rest) (marks assoc head ++ marks')
      (placed parameter assoc head ++ rest') := by
  match head with
  | .sequence body => exact .sequence (placedAll_encloses body assoc) hrest
  | .guard none body =>
    have hbody := placedAll_encloses body assoc
    rw [placed, visit_guard]
    exact .guard hbody hrest
  | .guard (some inner) body =>
    have hbody := placedAll_encloses body inner
    simp only [placed, visit_guard, marks]
    cases inner.cut || (weakThan assoc inner || equal assoc inner) with
    | true => exact .bare inner hbody hrest
    | false => exact .enclosed inner hbody hrest
  | .term len text =>
    rw [placed, visit] <;> first | exact .keep _ rfl (by simp) hrest | simp
  | .newline =>
    rw [placed, visit] <;> first | exact .keep _ rfl (by simp) hrest | simp
  | .indicator space newline =>
    rw [placed, visit] <;> first | exact .keep _ rfl (by simp) hrest | simp
  | .startOfIndent n =>
    rw [placed, visit] <;> first | exact .keep _ rfl (by simp) hrest | simp
  | .endOfIndent =>
    rw [placed, visit] <;> first | exact .keep _ rfl (by simp) hrest | simp

theorem placedAll_encloses (symbols : List Expression) (assoc : GuardAssoc) :
    Encloses parameter symbols (marksAll assoc symbols)
      (placedAll parameter assoc symbols) := by
  match symbols with
  | [] => exact .nil
  | head :: rest =>
    exact placed_encloses head (toHead rest assoc)
      (placedAll_encloses rest (toRest head assoc))

end

theorem Encloses.length_eq {marks : List Bool} (h : Encloses parameter symbols marks symbols') :
    symbols'.length = (flattenAll symbols).length := by
  induction h with
  | nil => rfl
  | keep symbol hsymbol _ _ ih =>
    simp [flatten_single hsymbol, ih, Nat.add_comm]
  | sequence _ _ ih ih' => simp [ih, ih']
  | guard _ _ _ ih' => simp [ih', Nat.add_comm]
  | bare assoc _ _ _ ih' => simp [ih', Nat.add_comm]
  | enclosed assoc _ _ _ ih' => simp [ih', Nat.add_comm]

theorem Encloses.isSequence {symbols symbols' : List Expression}
    {marks : List Bool} (h : Encloses parameter symbols marks symbols') :
    ∀ symbol ∈ symbols', isSequence symbol = false := by
  induction h with
  | nil => simp
  | keep symbol hsymbol _ _ ih => simpa [hsymbol] using ih
  | sequence _ _ ih ih' =>
    intro symbol hmem
    rcases List.mem_append.mp hmem with hbody | hrest
    · exact ih symbol hbody
    · exact ih' symbol hrest
  | guard _ _ _ ih' => simpa [AssocResolver.isSequence] using ih'
  | bare assoc _ _ _ ih' => simpa [AssocResolver.isSequence] using ih'
  | enclosed assoc _ _ _ ih' => simpa [AssocResolver.isSequence] using ih'

/-- A visited list is not the enclosed form of another one. -/
theorem Encloses.ne_encloseSymbols {body : List Expression}
    {marks : List Bool} (h : Encloses parameter symbols marks symbols') :
    symbols' ≠ encloseSymbols parameter body := by
  intro heq
  have hsequence := h.isSequence (.sequence body) (by simp [heq, encloseSymbols])
  cases hsequence

/-- The enclosed guards can be read off. -/
theorem Encloses.marks_unique {symbols'' : List Expression}
    {marks marks' : List Bool} (h : Encloses parameter symbols marks symbols')
    (h' : Encloses parameter symbols marks' symbols'')
    (hsame : symbols' = symbols'') : marks = marks' := by
  induction h generalizing marks' symbols'' with
  | nil => cases h'; rfl
  | keep symbol hsymbol hguard _ ih =>
    cases h' with
    | keep _ _ _ hrest' => exact ih hrest' (List.cons.inj hsame).2
    | sequence _ _ => cases hsymbol
    | guard _ _ => exact absurd rfl (hguard _ _)
    | bare _ _ _ => exact absurd rfl (hguard _ _)
    | enclosed _ _ _ => exact absurd rfl (hguard _ _)
  | sequence hbody _ ih ih' =>
    cases h' with
    | keep _ hsymbol _ _ => cases hsymbol
    | sequence hbody' hrest' =>
      have hlength := hbody.length_eq.trans hbody'.length_eq.symm
      obtain ⟨hbodies, hrests⟩ := List.append_inj hsame hlength
      rw [ih hbody' hbodies, ih' hrest' hrests]
  | guard _ _ ih ih' =>
    cases h' with
    | keep _ _ hguard _ => exact absurd rfl (hguard _ _)
    | guard hbody' hrest' =>
      obtain ⟨hguards, hrests⟩ := List.cons.inj hsame
      rw [ih hbody' (Expression.guard.inj hguards).2, ih' hrest' hrests]
  | bare assoc hbody _ ih ih' =>
    cases h' with
    | keep _ _ hguard _ => exact absurd rfl (hguard _ _)
    | bare _ hbody' hrest' =>
      obtain ⟨hguards, hrests⟩ := List.cons.inj hsame
      rw [ih hbody' (Expression.guard.inj hguards).2, ih' hrest' hrests]
    | enclosed _ _ _ =>
      obtain ⟨hguards, -⟩ := List.cons.inj hsame
      exact absurd (Expression.guard.inj hguards).2 hbody.ne_encloseSymbols
  | enclosed assoc _ _ ih ih' =>
    cases h' with
    | keep _ _ hguard _ => exact absurd rfl (hguard _ _)
    | bare _ hbody' _ =>
      obtain ⟨hguards, -⟩ := List.cons.inj hsame
      exact absurd (Expression.guard.inj hguards).2.symm
        hbody'.ne_encloseSymbols
    | enclosed _ hbody' hrest' =>
      obtain ⟨hguards, hrests⟩ := List.cons.inj hsame
      have hbodies := (Expression.guard.inj hguards).2
      simp only [encloseSymbols, List.cons.injEq, Expression.sequence.injEq,
        and_true, true_and] at hbodies
      rw [ih hbody' hbodies, ih' hrest' hrests]

end Encloses

/-- The guards that `resolve` encloses, and only these. -/
theorem resolve_encloses (parameter : ParameterRecord)
    (symbols : List Expression) (marks : List Bool) :
    Encloses parameter [.guard none symbols] marks
        [resolve parameter (.guard none symbols)] ↔
      marks = marksAll ⟨true, -1, .neutral⟩ symbols := by
  have hresolve : Encloses parameter [.guard none symbols]
      (marksAll ⟨true, -1, .neutral⟩ symbols)
      [resolve parameter (.guard none symbols)] := by
    have hbody : Encloses parameter symbols _ _ :=
      placedAll_encloses symbols ⟨true, -1, .neutral⟩
    have hguard := Encloses.guard hbody .nil
    rw [List.append_nil] at hguard
    rw [resolve, visit_guard]
    exact hguard
  constructor
  · intro h
    exact h.marks_unique hresolve rfl
  · rintro rfl
    exact hresolve

end AssocResolver

end SmlSharp
