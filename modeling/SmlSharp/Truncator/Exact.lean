/-
The truncation is right just where what is kept reads the same backwards.
-/
import SmlSharp.Truncator.Kept

namespace SmlSharp

namespace Truncator

open PrettyPrinter2
open AssocResolver (flatten flattenAll isSequence isVisible flatten_single pending pending_nil
  isSequence_of_mem_flattenAll flattenAll_self)

instance (w : Int) (symbols : List Expression) (k : List (List Expression)) :
    Decidable (Cuts w symbols k) :=
  inferInstanceAs (Decidable (_ ∧ _))

section Visit

variable (parameter : ParameterRecord) (d : Int)

theorem visit_other {symbol : Expression} (h : ∀ assoc body, symbol ≠ .guard assoc body) :
    visit parameter d symbol = symbol := by
  cases symbol with
  | guard assoc body => exact absurd rfl (h assoc body)
  | _ => simp [visit]

theorem visit_deep {assoc : Option GuardAssoc} {body : List Expression}
    (h : isCutOffDepth parameter d = true) :
    visit parameter d (.guard assoc body) = elision := by
  rw [visit, if_pos h]

theorem visit_guard {assoc : Option GuardAssoc} {body : List Expression} {w : Int}
    (h : isCutOffDepth parameter d = false) (hwidth : parameter.maxWidthOfGuards = some w) :
    visit parameter d (.guard assoc body) = .guard assoc (takeHead parameter d w [] body []) := by
  rw [visit, if_neg (by simp [h]), hwidth]

theorem isSequence_visit (symbol : Expression) (h : isSequence symbol = false) :
    isSequence (visit parameter d symbol) = false := by
  cases symbol with
  | sequence body => nomatch h
  | guard assoc body =>
    rw [visit]
    split <;> rfl
  | _ => simp [visit, isSequence]

theorem marker_visit (symbol : Expression) :
    marker (visit parameter d symbol) = marker symbol := by
  cases symbol with
  | guard assoc body =>
    rw [visit]
    split <;> rfl
  | _ => simp [visit]

theorem oneEach_visit {symbols : List Expression}
    (h : ∀ symbol ∈ symbols, isSequence symbol = false) :
    OneEach (fun symbol => shapes (visit parameter d symbol)) symbols := by
  intro symbol hmem
  cases symbol with
  | sequence body => nomatch h _ hmem
  | guard assoc body =>
    dsimp only
    rw [visit]
    split <;> rfl
  | _ => simp [visit, shapes, isVisible]

end Visit

/-! ### The elements of a guard -/

section Guard

variable {parameter : ParameterRecord} {d w : Int} {body : List Expression}

theorem taken (parameter : ParameterRecord) (d w : Int) (body : List Expression) :
    Taken parameter d w [] (flattenAll body) (Cuts w body [])
      (takeHead parameter d w [] body []) := by
  have h := takeHead_taken parameter d w [] body []
  rwa [pending_nil] at h

theorem cuts_iff :
    Cuts w body [] ↔ 0 ≤ w ∧ (w < countVisible (flattenAll body) ∨
      w = countVisible (flattenAll body) ∧ endsOpen body [] = true) := by
  rw [Cuts, pending_nil]

theorem isSequence_of_kept {symbol : Expression}
    (h : symbol ∈ (splitVisible w (flattenAll body)).1) : isSequence symbol = false :=
  isSequence_of_mem_flattenAll body symbol (mem_of_mem_kept h)

theorem visited_isSequence :
    ∀ symbol ∈ ((splitVisible w (flattenAll body)).1.map (visit parameter d)).reverse,
      isSequence symbol = false := by
  intro symbol hmem
  obtain ⟨symbol', hmem', rfl⟩ := List.mem_map.mp (List.mem_reverse.mp hmem)
  exact isSequence_visit parameter d symbol' (isSequence_of_kept hmem')

theorem shapes_of_keepSymbol {symbol : Expression} (h : keepSymbol symbol = true) :
    shapes symbol = [] := by
  cases symbol with
  | startOfIndent n => rfl
  | endOfIndent => rfl
  | _ => nomatch h

theorem shapesAll_takeHead : shapesAll (takeHead parameter d w [] body []) =
      ((splitVisible w (flattenAll body)).1.flatMap
        fun symbol => shapes (visit parameter (d + 1) symbol)).reverse ++
        if Cuts w body [] then [ellipsis] else [] := by
  have hvisited : shapesAll ((splitVisible w (flattenAll body)).1.map
        (visit parameter (d + 1))).reverse =
      ((splitVisible w (flattenAll body)).1.flatMap
        fun symbol => shapes (visit parameter (d + 1) symbol)).reverse := by
    rw [shapesAll_eq_flatMap, ← List.map_reverse, List.flatMap_map]
    exact (oneEach_visit parameter (d + 1) fun _ => isSequence_of_kept).reverse
  obtain ⟨hcuts, hall⟩ := taken parameter d w body
  rw [List.append_nil] at hcuts hall
  by_cases hcut : Cuts w body []
  · obtain ⟨tail, htaken, htail⟩ := hcuts hcut
    have hnone : shapesAll tail = [] := by
      rw [shapesAll_flattenAll, htail, List.flatMap_eq_nil_iff]
      exact fun symbol hmem => shapes_of_keepSymbol (List.mem_filter.mp hmem).2
    rw [htaken, if_pos hcut, shapesAll, shapesAll, shapes, hvisited, hnone]
    rfl
  · rw [(hall hcut).1, if_neg hcut, hvisited, List.append_nil]

/-- The elements of a visited guard, without sequences. -/
theorem flattenAll_takeHead : flattenAll (takeHead parameter d w [] body []) =
      ((splitVisible w (flattenAll body)).1.map (visit parameter (d + 1))).reverse ++
        if Cuts w body [] then
          elision :: (splitVisible w (flattenAll body)).2.filter keepSymbol
        else [] := by
  obtain ⟨hcuts, hall⟩ := taken parameter d w body
  rw [List.append_nil] at hcuts hall
  by_cases hcut : Cuts w body []
  · obtain ⟨tail, htaken, htail⟩ := hcuts hcut
    rw [htaken, if_pos hcut, flattenAll, flattenAll, flatten,
      flattenAll_self visited_isSequence, htail]
    rfl
  · rw [(hall hcut).1, if_neg hcut, flattenAll_self visited_isSequence, List.append_nil]

end Guard

/-! ### Sizes -/

mutual

def Shape.size : Shape → Nat
  | .term _ _ => 1
  | .guard _ children => 1 + sizes children

def sizes : List Shape → Nat
  | [] => 0
  | shape :: rest => shape.size + sizes rest

end

theorem sizes_append (xs ys : List Shape) : sizes (xs ++ ys) = sizes xs + sizes ys := by
  induction xs with
  | nil => simp [sizes]
  | cons x xs ih => simp [sizes, ih, Nat.add_assoc]

theorem sizes_reverse (xs : List Shape) : sizes xs.reverse = sizes xs := by
  induction xs with
  | nil => rfl
  | cons x xs ih =>
    simp only [List.reverse_cons, sizes_append, ih, sizes]
    omega

/-- Sums of larger sizes, and when they are equal. -/
theorem sizes_flatMap_le {g g' : Expression → List Shape} {symbols : List Expression}
    (h : ∀ symbol ∈ symbols, sizes (g symbol) ≤ sizes (g' symbol)) :
    sizes (symbols.flatMap g) ≤ sizes (symbols.flatMap g') ∧
      (sizes (symbols.flatMap g') ≤ sizes (symbols.flatMap g) →
        ∀ symbol ∈ symbols, sizes (g' symbol) ≤ sizes (g symbol)) := by
  induction symbols with
  | nil => exact ⟨Nat.le_refl _, by simp⟩
  | cons symbol symbols ih =>
    obtain ⟨hle, heq⟩ := ih fun symbol' hmem => h symbol' (List.mem_cons_of_mem symbol hmem)
    have hhead := h symbol List.mem_cons_self
    simp only [List.flatMap_cons, sizes_append]
    refine ⟨by omega, fun hge symbol' hmem => ?_⟩
    rcases List.mem_cons.mp hmem with rfl | hmem
    · omega
    · exact heq (by omega) symbol' hmem

/-! ### Indents -/

theorem balanced_elision : Balanced elision := by
  refine .guard rfl fun symbol hmem => .other ?_
  simp only [flattenAll, flatten, List.append_nil, List.singleton_append, List.mem_cons,
    List.not_mem_nil, or_false] at hmem
  rcases hmem with rfl | rfl <;> simp

section Width

variable {parameter : ParameterRecord} {w : Int}
  (hwidth : parameter.maxWidthOfGuards = some w)

include hwidth

/-- A visited expression is never smaller than it should be, and larger unless it is
tight. -/
theorem sizes_visit (symbol : Expression) : ∀ d, isSequence symbol = false →
      sizes (keptShapes id parameter d symbol) ≤ sizes (shapes (visit parameter d symbol)) ∧
      (sizes (shapes (visit parameter d symbol)) ≤ sizes (keptShapes id parameter d symbol) →
        Tight parameter w d symbol) := by
  induction symbol using guard_induction with
  | other symbol hother =>
    intro d hsequence
    have heq : keptShapes id parameter d symbol = shapes symbol := by
      cases symbol with
      | guard assoc body => exact absurd rfl (hother assoc body)
      | sequence body => nomatch hsequence
      | _ => rfl
    rw [visit_other parameter d hother, heq]
    exact ⟨Nat.le_refl _, fun _ => .other hother⟩
  | guard assoc body ih =>
    intro d _
    by_cases hdeep : isCutOffDepth parameter d = true
    · rw [visit_deep parameter d hdeep, keptShapes, if_pos hdeep]
      exact ⟨Nat.le_refl _, fun _ => .deep hdeep⟩
    · rw [Bool.not_eq_true] at hdeep
      have hone := oneEach_keptShapes id parameter (d + 1)
        (isSequence_of_mem_flattenAll body)
      rw [visit_guard parameter d hdeep hwidth, keptShapes, if_neg (by simp [hdeep]),
        keptShapesAll_flattenAll, first_eq hwidth id hone, shapes, shapesAll_takeHead]
      obtain ⟨hle, heq⟩ := @sizes_flatMap_le (keptShapes id parameter (d + 1))
        (fun symbol => shapes (visit parameter (d + 1) symbol))
        (splitVisible w (flattenAll body)).1
        fun symbol hmem => (ih symbol (mem_of_mem_kept hmem) (d + 1) (isSequence_of_kept hmem)).1
      have hellipsis : sizes [ellipsis] = 2 := rfl
      have hnil : sizes [] = 0 := rfl
      have htight : ¬ (w = countVisible (flattenAll body) ∧ endsOpen body [] = true) →
          sizes ((splitVisible w (flattenAll body)).1.flatMap
            fun symbol => shapes (visit parameter (d + 1) symbol)) ≤
          sizes ((splitVisible w (flattenAll body)).1.flatMap
            (keptShapes id parameter (d + 1))) →
          Tight parameter w d (.guard assoc body) :=
        fun hends hge => .guard hdeep hends fun symbol hmem =>
          (ih symbol (mem_of_mem_kept hmem) (d + 1) (isSequence_of_kept hmem)).2
            (heq hge symbol hmem)
      have hcuts := @cuts_iff w body
      simp only [sizes, Shape.size, sizes_append, sizes_reverse, id]
      by_cases hover : 0 ≤ w ∧ w < countVisible (flattenAll body)
      · rw [if_pos (hcuts.mpr ⟨hover.1, Or.inl hover.2⟩), if_pos hover]
        exact ⟨by omega, fun hge => htight (fun hends => by omega) (by omega)⟩
      · rw [if_neg hover]
        by_cases hcut : Cuts w body []
        · rw [if_pos hcut]
          exact ⟨by omega, fun hge => absurd hge (by omega)⟩
        · rw [if_neg hcut]
          refine ⟨by omega, fun hge => htight (fun hends => hcut (hcuts.mpr ?_)) (by omega)⟩
          exact ⟨by omega, Or.inr hends⟩

/-- A tight expression is visited in reverse order. -/
theorem shapes_visit {d : Int} {symbol : Expression} (h : Tight parameter w d symbol)
    (hsequence : isSequence symbol = false) :
    shapes (visit parameter d symbol) = keptShapes List.reverse parameter d symbol := by
  induction h with
  | @other d symbol hother =>
    rw [visit_other parameter d hother]
    cases symbol with
    | guard assoc body => exact absurd rfl (hother assoc body)
    | sequence body => nomatch hsequence
    | _ => rfl
  | @deep d assoc body hdeep =>
    rw [visit_deep parameter d hdeep, keptShapes, if_pos hdeep]
    rfl
  | @guard d assoc body hdeep hends _ ih =>
    have hone := oneEach_keptShapes List.reverse parameter (d + 1)
      (isSequence_of_mem_flattenAll body)
    have hkept : (splitVisible w (flattenAll body)).1.flatMap
          (fun symbol => shapes (visit parameter (d + 1) symbol)) =
        (splitVisible w (flattenAll body)).1.flatMap
          (keptShapes List.reverse parameter (d + 1)) := by
      rw [List.flatMap_def, List.flatMap_def, List.map_congr_left fun symbol hmem =>
        ih symbol hmem (isSequence_of_kept hmem)]
    rw [visit_guard parameter d hdeep hwidth, keptShapes, if_neg (by simp [hdeep]),
      keptShapesAll_flattenAll, first_eq hwidth List.reverse hone, shapes, shapesAll_takeHead,
      hkept]
    have hiff : Cuts w body [] ↔ 0 ≤ w ∧ w < countVisible (flattenAll body) := by
      rw [cuts_iff, or_iff_left hends]
    simp only [hiff]

theorem shapes_visit_iff {d : Int} {symbol : Expression}
    (hsequence : isSequence symbol = false) :
    shapes (visit parameter d symbol) = keptShapes id parameter d symbol ↔
      Tight parameter w d symbol ∧
        keptShapes List.reverse parameter d symbol = keptShapes id parameter d symbol := by
  constructor
  · intro h
    have htight := (sizes_visit hwidth symbol d hsequence).2 (by rw [h])
    exact ⟨htight, by rw [← h, shapes_visit hwidth htight hsequence]⟩
  · rintro ⟨htight, hmirror⟩
    rw [shapes_visit hwidth htight hsequence, hmirror]

omit hwidth in
theorem markers_takeHead {d : Int} {body : List Expression} :
    (flattenAll (takeHead parameter d w [] body [])).filterMap marker =
      ((splitVisible w (flattenAll body)).1.filterMap marker).reverse ++
        (splitVisible w (flattenAll body)).2.filterMap marker := by
  have hvisited : ((splitVisible w (flattenAll body)).1.map
        (visit parameter (d + 1))).reverse.filterMap marker =
      ((splitVisible w (flattenAll body)).1.filterMap marker).reverse := by
    rw [List.filterMap_reverse, List.filterMap_map]
    congr 2
    funext symbol
    exact marker_visit parameter (d + 1) symbol
  rw [flattenAll_takeHead, List.filterMap_append, hvisited]
  by_cases hcut : Cuts w body []
  · have helision : marker elision = none := rfl
    rw [if_pos hcut, List.filterMap_cons, helision, List.filterMap_filter]
    dsimp only
    congr 2
    funext symbol
    cases symbol <;> rfl
  · rw [if_neg hcut, ((taken parameter d w body).2 hcut).2]

theorem balanced_visit_iff (symbol : Expression) :
    ∀ d, isSequence symbol = false →
      (Balanced (visit parameter d symbol) ↔ BalancedBack parameter w d symbol) := by
  induction symbol using guard_induction with
  | other symbol hother =>
    intro d _
    rw [visit_other parameter d hother]
    exact ⟨fun _ => .other hother, fun _ => .other hother⟩
  | guard assoc body ih =>
    intro d _
    by_cases hdeep : isCutOffDepth parameter d = true
    · rw [visit_deep parameter d hdeep]
      exact ⟨fun _ => .deep hdeep, fun _ => balanced_elision⟩
    · rw [Bool.not_eq_true] at hdeep
      rw [visit_guard parameter d hdeep hwidth]
      have hkept : ∀ symbol ∈ (splitVisible w (flattenAll body)).1,
          (Balanced (visit parameter (d + 1) symbol) ↔
            BalancedBack parameter w (d + 1) symbol) :=
        fun symbol hmem => ih symbol (mem_of_mem_kept hmem) (d + 1) (isSequence_of_kept hmem)
      constructor
      · intro h
        cases h with
        | other hother => exact absurd rfl (hother assoc _)
        | guard hcloses hall =>
          rw [markers_takeHead] at hcloses
          refine .guard hdeep hcloses fun symbol hmem => (hkept symbol hmem).mp (hall _ ?_)
          rw [flattenAll_takeHead]
          exact List.mem_append_left _
            (List.mem_reverse.mpr (List.mem_map_of_mem hmem))
      · intro h
        cases h with
        | other hother => exact absurd rfl (hother assoc body)
        | deep hdeep' => simp [hdeep] at hdeep'
        | guard _ hcloses hall =>
          refine .guard (by rw [markers_takeHead, hcloses]) fun symbol hmem => ?_
          rw [flattenAll_takeHead] at hmem
          rcases List.mem_append.mp hmem with hmem | hmem
          · obtain ⟨symbol, hsymbol, rfl⟩ := List.mem_map.mp (List.mem_reverse.mp hmem)
            exact (hkept symbol hsymbol).mpr (hall symbol hsymbol)
          · split at hmem
            · rcases List.mem_cons.mp hmem with rfl | hmem
              · exact balanced_elision
              · have hkeep := (List.mem_filter.mp hmem).2
                refine .other fun assoc body heq => ?_
                rw [heq] at hkeep
                nomatch hkeep
            · nomatch hmem

/-! ### What fits -/

/-- What fits and is tight is returned backwards. -/
theorem mirror_of_fits {d : Int} {symbol : Expression} (hfits : Fits parameter d symbol)
    (htight : Tight parameter w d symbol) (hsequence : isSequence symbol = false) :
    mirror symbol = [visit parameter d symbol] := by
  induction hfits with
  | @other d symbol hother =>
    rw [visit_other parameter d hother]
    cases symbol with
    | guard assoc body => exact absurd rfl (hother assoc body)
    | sequence body => nomatch hsequence
    | _ => rfl
  | @guard d assoc body hdeep hcount _ ih =>
    cases htight with
    | other hother => exact absurd rfl (hother assoc body)
    | deep hdeep' => simp [hdeep] at hdeep'
    | guard _ hends hall =>
      have hcut : ¬ Cuts w body [] := by
        rw [cuts_iff]
        rintro ⟨hw, hless | hopen⟩
        · have hle := hcount w hwidth hw
          omega
        · exact hends hopen
      obtain ⟨htaken, hrest⟩ := (taken parameter d w body).2 hcut
      have hkept : (splitVisible w (flattenAll body)).1 = flattenAll body := by
        have happend := splitVisible_append w (flattenAll body)
        rwa [hrest, List.append_nil] at happend
      rw [hkept] at hall htaken
      have hmirror : (flattenAll body).flatMap mirror =
          (flattenAll body).map (visit parameter (d + 1)) := by
        rw [List.flatMap_def, List.map_congr_left fun symbol hmem => ih symbol hmem
          (hall symbol hmem) (isSequence_of_mem_flattenAll body symbol hmem)]
        induction flattenAll body with
        | nil => rfl
        | cons x xs ihxs => simpa using ihxs
      rw [visit_guard parameter d hdeep hwidth, htaken, mirror, mirrorAll_flattenAll, hmirror,
        List.append_nil]

/-- With a width the truncation of a guard is right just when what is kept reads the
same backwards. -/
theorem truncates_width_iff {assoc : Option GuardAssoc} {body : List Expression} :
    Truncates parameter (.guard assoc body) (visit parameter 0 (.guard assoc body)) ↔
      Palindromic parameter w (.guard assoc body) := by
  have hvisible := @shapes_visit_iff parameter w hwidth 0 (.guard assoc body) rfl
  have hbalanced := balanced_visit_iff hwidth (.guard assoc body) 0 rfl
  constructor
  · intro h
    obtain ⟨htight, hmirror⟩ := hvisible.mp h.visible
    refine ⟨htight, hmirror, fun hb => hbalanced.mp (h.balanced hb), fun hfits => ?_⟩
    rw [mirror_of_fits hwidth hfits htight rfl, h.unchanged hfits]
  · intro h
    refine ⟨hvisible.mpr ⟨h.tight, h.visible⟩, fun hb => hbalanced.mpr (h.balanced hb),
      fun hfits => ?_⟩
    have hmirror := mirror_of_fits hwidth hfits h.tight rfl
    rw [h.unchanged hfits] at hmirror
    exact (List.singleton_inj.mp hmirror).symm

end Width

/-! ### Without a width -/

theorem flatMap_eq_iff {β : Type} {g g' : Expression → List β} {symbols : List Expression}
    (h : OneEach g symbols) (h' : OneEach g' symbols) :
    symbols.flatMap g = symbols.flatMap g' ↔ ∀ symbol ∈ symbols, g symbol = g' symbol := by
  induction symbols with
  | nil => simp
  | cons symbol symbols ih =>
    have hhead : (g symbol).length = (g' symbol).length :=
      (h symbol List.mem_cons_self).trans (h' symbol List.mem_cons_self).symm
    rw [List.flatMap_cons, List.flatMap_cons, List.forall_mem_cons,
      ← ih (fun s hs => h s (List.mem_cons_of_mem _ hs))
        (fun s hs => h' s (List.mem_cons_of_mem _ hs))]
    constructor
    · intro heq
      exact List.append_inj heq hhead
    · rintro ⟨hsymbol, hsymbols⟩
      rw [hsymbol, hsymbols]

theorem shapes_eq_iff {parameter : ParameterRecord} (hwidth : parameter.maxWidthOfGuards = none)
    (symbol : Expression) : ∀ d, isSequence symbol = false →
      (shapes symbol = keptShapes id parameter d symbol ↔ Shallow parameter d symbol) := by
  induction symbol using guard_induction with
  | other symbol hother =>
    intro d hsequence
    refine ⟨fun _ => .other hother, fun _ => ?_⟩
    cases symbol with
    | guard assoc body => exact absurd rfl (hother assoc body)
    | sequence body => nomatch hsequence
    | _ => rfl
  | guard assoc body ih =>
    intro d _
    by_cases hdeep : isCutOffDepth parameter d = true
    · rw [keptShapes, if_pos hdeep]
      constructor
      · exact .deep hdeep
      · intro h
        cases h with
        | other hother => exact absurd rfl (hother assoc body)
        | deep _ hshapes => exact hshapes
        | guard hdeep' => simp [hdeep] at hdeep'
    · rw [Bool.not_eq_true] at hdeep
      have hflat := isSequence_of_mem_flattenAll body
      have hiff := flatMap_eq_iff (oneEach_shapes hflat)
        (oneEach_keptShapes id parameter (d + 1) hflat)
      rw [keptShapes, if_neg (by simp [hdeep]), shapes, first, hwidth,
        keptShapesAll_flattenAll, shapesAll_flattenAll]
      simp only [id, List.cons.injEq, Shape.guard.injEq, true_and, and_true]
      rw [hiff]
      constructor
      · intro h
        exact .guard hdeep fun symbol hmem =>
          (ih symbol hmem (d + 1) (hflat symbol hmem)).mp (h symbol hmem)
      · intro h symbol hmem
        cases h with
        | other hother => exact absurd rfl (hother assoc body)
        | deep hdeep' => simp [hdeep] at hdeep'
        | guard _ hall => exact (ih symbol hmem (d + 1) (hflat symbol hmem)).mpr (hall symbol hmem)

/-! ### The truncation -/

theorem truncate_guard (parameter : ParameterRecord) (assoc : Option GuardAssoc)
    (body : List Expression) :
    truncate parameter (.guard assoc body) = visit parameter 0 (.guard assoc body) := by
  obtain ⟨depth, width⟩ := parameter
  cases depth with
  | some depth => rfl
  | none =>
    cases width with
    | some width => rfl
    | none => simp [truncate, visit, isCutOffDepth]

theorem not_fits_of_deep {parameter : ParameterRecord} {d : Int} {assoc : Option GuardAssoc}
    {body : List Expression} (hdeep : isCutOffDepth parameter d = true) :
    ¬ Fits parameter d (.guard assoc body) := by
  intro h
  cases h with
  | other hother => exact hother assoc body rfl
  | guard hdeep' => simp [hdeep] at hdeep'

/-- The truncation of a list of format expressions is right if and only if, without a
width, it is cut off as a whole or nothing in it is too deep, and with a width
what is kept reads the same backwards. -/
theorem truncate_truncates_iff (parameter : ParameterRecord) (expressions : List Expression) :
    Truncates parameter (.guard none expressions)
        (truncate parameter (.guard none expressions)) ↔
      RightOn parameter (.guard none expressions) := by
  rw [truncate_guard, RightOn]
  cases hwidth : parameter.maxWidthOfGuards with
  | some w => exact truncates_width_iff hwidth
  | none =>
    dsimp only
    by_cases hdeep : isCutOffDepth parameter 0 = true
    · refine ⟨fun _ => Or.inl hdeep, fun _ => ?_⟩
      rw [visit_deep parameter 0 hdeep]
      refine ⟨?_, fun _ => balanced_elision, fun h => absurd h (not_fits_of_deep hdeep)⟩
      rw [keptShapes, if_pos hdeep]
      rfl
    · have hsame : visit parameter 0 (.guard none expressions) = .guard none expressions := by
        rw [visit, if_neg hdeep, hwidth]
      rw [hsame, or_iff_right hdeep, ← shapes_eq_iff hwidth (.guard none expressions) 0 rfl]
      exact ⟨fun h => h.visible, fun h => ⟨h, id, fun _ => rfl⟩⟩

/-- Two terms within the limits come out in the wrong order. -/
theorem truncate_reverses :
    ¬ Truncates ⟨none, some 5⟩ (.guard none [.term 1 "a", .term 1 "b"])
      (truncate ⟨none, some 5⟩ (.guard none [.term 1 "a", .term 1 "b"])) := by
  intro h
  have hvisible := h.visible
  simp [truncate, visit, takeHead, isCutOffDepth, shapes, shapesAll, keptShapes, keptShapesAll,
    first] at hvisible

end Truncator

end SmlSharp
