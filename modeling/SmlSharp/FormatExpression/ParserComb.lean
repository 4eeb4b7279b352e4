/-
Parser combinators over the reader of a text, and what they yield when their parts
do.
-/
import Mathlib.Data.List.Basic
import SmlSharp.Lib.Fuel

namespace SmlSharp

namespace ParserComb

inductive Exn where
  /-- the recursion was cut off -/
  | outOfFuel

/-- A parser returns an item and the text behind it, or nothing. -/
abbrev Parser (α : Type) := List Char → Except Exn (Option (α × List Char))

variable {α β γ : Type}

/-- `wrap` applies a function to what is parsed. -/
def wrap (p : Parser α) (f : α → β) : Parser β := fun strm => do
  match ← p strm with
  | none => return none
  | some (x, strm) => return some (f x, strm)

/-- Both parsers in turn, with their results combined. -/
def seqWith (f : α → β → γ) (p1 : Parser α) (p2 : Parser β) : Parser γ := fun strm => do
  match ← p1 strm with
  | none => return none
  | some (t1, strm1) =>
    match ← p2 strm1 with
    | none => return none
    | some (t2, strm2) => return some (f t1 t2, strm2)

def seq (p1 : Parser α) (p2 : Parser β) : Parser (α × β) := seqWith Prod.mk p1 p2

/-- One character that satisfies the predicate. -/
def eatChar (pred : Char → Bool) : Parser Char := fun strm =>
  match strm with
  | [] => .ok none
  | c :: strm' => if pred c then .ok (some (c, strm')) else .ok none

def char (c : Char) : Parser Char := eatChar (c == ·)

def string (s : List Char) : Parser (List Char) :=
  let rec eat : List Char → Parser (List Char)
    | [], strm => .ok (some (s, strm))
    | _ :: _, [] => .ok none
    | c1 :: ss, c2 :: strm => if c1 = c2 then eat ss strm else .ok none
  eat s

/-- Characters of the predicate are skipped before the parser. -/
def skipBefore (pred : Char → Bool) (p : Parser α) : Parser α
  | [] => .ok none
  | c :: strm => if pred c then skipBefore pred p strm else p (c :: strm)

/-- The first parser that succeeds. -/
def or' : List (Parser α) → Parser α
  | [], _ => .ok none
  | p :: r, strm => do
      match ← p strm with
      | none => or' r strm
      | res => return res

def or (p1 p2 : Parser α) : Parser α := fun strm => do
  match ← p1 strm with
  | none => p2 strm
  | res => return res

/-- `fuel` bounds the number of items. -/
def zeroOrMore (fuel : Nat) (p : Parser α) : Parser (List α) :=
  let rec parse : Nat → List α → Parser (List α)
    | 0, _, _ => .error .outOfFuel
    | n + 1, l, strm => do
        match ← p strm with
        | some (item, strm) => parse n (item :: l) strm
        | none => return some (l.reverse, strm)
  parse fuel []

def oneOrMore (fuel : Nat) (p : Parser α) : Parser (List α) := fun strm => do
  match ← zeroOrMore fuel p strm with
  | some (x :: xs, strm) => return some (x :: xs, strm)
  | _ => return none

def option (p : Parser α) : Parser (Option α) := fun strm => do
  match ← p strm with
  | some (x, strm) => return some (some x, strm)
  | none => return some (none, strm)

/-! ### What is yielded -/

/-- From some bound on, the parsers yield the item and the text behind it. -/
def Yields (p : Nat → Parser α) (strm : List Char) (x : α) (strm' : List Char) : Prop :=
  Converges (fun fuel => p fuel strm) (some (x, strm'))

def Fails (p : Nat → Parser α) (strm : List Char) : Prop :=
  Converges (fun fuel => p fuel strm) none

section Rules

variable {p : Nat → Parser α} {q : Nat → Parser β} {x : α} {y : β}
  {strm strm' strm'' : List Char}

/-- Without a loop no fuel is needed. -/
theorem Yields.of_eq {p : Parser α} (h : p strm = .ok (some (x, strm'))) :
    Yields (fun _ => p) strm x strm' := Converges.pure fun _ => h

theorem Fails.of_eq {p : Parser α} (h : p strm = .ok none) : Fails (fun _ => p) strm :=
  Converges.pure fun _ => h

theorem Yields.wrap (h : Yields p strm x strm') (f : α → β) :
    Yields (fun fuel => ParserComb.wrap (p fuel) f) strm (f x) strm' :=
  Converges.bind h (Converges.pure fun _ => rfl)

theorem Fails.wrap (h : Fails p strm) (f : α → β) :
    Fails (fun fuel => ParserComb.wrap (p fuel) f) strm :=
  Converges.bind h (Converges.pure fun _ => rfl)

/-- A sequence yields when both parsers do. -/
theorem Yields.seqWith (h : Yields p strm x strm') (h' : Yields q strm' y strm'')
    (f : α → β → γ) :
    Yields (fun fuel => ParserComb.seqWith f (p fuel) (q fuel)) strm (f x y) strm'' :=
  Converges.bind h (Converges.bind h' (Converges.pure fun _ => rfl))

theorem Fails.seqWith_left (h : Fails p strm) (q : Nat → Parser β) (f : α → β → γ) :
    Fails (fun fuel => ParserComb.seqWith f (p fuel) (q fuel)) strm :=
  Converges.bind h (Converges.pure fun _ => rfl)

/-- A sequence fails where the second parser does, with the characters of the
first given back. -/
theorem Yields.seqWith_fails (h : Yields p strm x strm') (h' : Fails q strm')
    (f : α → β → γ) : Fails (fun fuel => ParserComb.seqWith f (p fuel) (q fuel)) strm :=
  Converges.bind h (Converges.bind h' (Converges.pure fun _ => rfl))

theorem Yields.or_left (h : Yields p strm x strm') (q : Nat → Parser α) :
    Yields (fun fuel => ParserComb.or (p fuel) (q fuel)) strm x strm' :=
  Converges.bind h (Converges.pure fun _ => rfl)

/-- The second parser is tried when the first one fails. -/
theorem Yields.or_right {q : Nat → Parser α} (h : Yields q strm x strm') (hp : Fails p strm) :
    Yields (fun fuel => ParserComb.or (p fuel) (q fuel)) strm x strm' :=
  Converges.bind hp h

theorem Fails.or {q : Nat → Parser α} (hp : Fails p strm) (hq : Fails q strm) :
    Fails (fun fuel => ParserComb.or (p fuel) (q fuel)) strm :=
  Converges.bind hp hq

theorem Yields.or'_head (h : Yields p strm x strm') (ps : Nat → List (Parser α)) :
    Yields (fun fuel => ParserComb.or' (p fuel :: ps fuel)) strm x strm' :=
  Converges.bind h (Converges.pure fun _ => rfl)

/-- A parser that fails is passed over. -/
theorem Yields.or'_tail {ps : Nat → List (Parser α)}
    (h : Yields (fun fuel => ParserComb.or' (ps fuel)) strm x strm') (hp : Fails p strm) :
    Yields (fun fuel => ParserComb.or' (p fuel :: ps fuel)) strm x strm' :=
  Converges.bind hp h

theorem Fails.or'_nil : Fails (fun _ => (ParserComb.or' [] : Parser α)) strm :=
  Converges.pure fun _ => rfl

theorem Fails.or'_cons {ps : Nat → List (Parser α)} (hp : Fails p strm)
    (h : Fails (fun fuel => ParserComb.or' (ps fuel)) strm) :
    Fails (fun fuel => ParserComb.or' (p fuel :: ps fuel)) strm :=
  Converges.bind hp h

theorem Yields.option (h : Yields p strm x strm') :
    Yields (fun fuel => ParserComb.option (p fuel)) strm (some x) strm' :=
  Converges.bind h (Converges.pure fun _ => rfl)

/-- An option yields nothing where its parser fails. -/
theorem Fails.option (h : Fails p strm) :
    Yields (fun fuel => ParserComb.option (p fuel)) strm none strm :=
  Converges.bind h (Converges.pure fun _ => rfl)

/-- The items that a repetition yields. -/
inductive Items (p : Nat → Parser α) : List Char → List α → List Char → Prop
  | nil {strm : List Char} : Fails p strm → Items p strm [] strm
  | cons {strm strm' strm'' : List Char} {x : α} {xs : List α} :
      Yields p strm x strm' → Items p strm' xs strm'' → Items p strm (x :: xs) strm''

/-- The loop collects the items in front of the accumulator. -/
theorem Items.parse {xs : List α} (h : Items p strm xs strm') (l : List α) :
    ∃ enough, ∀ fuel, enough ≤ fuel → ∀ n, enough ≤ n →
      zeroOrMore.parse (p fuel) n l strm = .ok (some (l.reverse ++ xs, strm')) := by
  induction h generalizing l with
  | nil hfails =>
    obtain ⟨enough, hfails⟩ := hfails
    dsimp only at hfails
    refine ⟨enough + 1, fun fuel hfuel n hn => ?_⟩
    obtain ⟨n, rfl⟩ := Nat.exists_eq_add_of_le' (Nat.le_of_add_left_le hn)
    rw [zeroOrMore.parse, hfails fuel (by omega), List.append_nil]
    rfl
  | @cons strm strm' strm'' x xs hhead _ ih =>
    obtain ⟨enough, hhead⟩ := hhead
    dsimp only at hhead
    obtain ⟨enough', hrest⟩ := ih (x :: l)
    refine ⟨max enough enough' + 1, fun fuel hfuel n hn => ?_⟩
    obtain ⟨n, rfl⟩ := Nat.exists_eq_add_of_le' (Nat.le_of_add_left_le hn)
    have hmax := Nat.le_max_left enough enough'
    have hmax' := Nat.le_max_right enough enough'
    rw [zeroOrMore.parse, hhead fuel (by omega), except_ok_bind]
    dsimp only
    rw [hrest fuel (by omega) n (by omega), List.reverse_cons, List.append_assoc]
    rfl

/-- With fuel for every item all of them are parsed. -/
theorem Items.zeroOrMore {xs : List α} (h : Items p strm xs strm') :
    Yields (fun fuel => ParserComb.zeroOrMore fuel (p fuel)) strm xs strm' := by
  obtain ⟨enough, hparse⟩ := h.parse []
  exact ⟨enough, fun fuel hfuel => hparse fuel hfuel fuel hfuel⟩

theorem Items.oneOrMore {xs : List α} (h : Items p strm xs strm') (hne : xs ≠ []) :
    Yields (fun fuel => ParserComb.oneOrMore fuel (p fuel)) strm xs strm' := by
  obtain ⟨y, ys, rfl⟩ := List.exists_cons_of_ne_nil hne
  exact Converges.bind h.zeroOrMore (Converges.pure fun _ => rfl)

end Rules

/-! ### What may be yielded -/

section Inversion

variable {p : Parser α} {q : Parser β} {strm strm' : List Char}

theorem wrap_ok {f : α → β} {y : β} (h : wrap p f strm = .ok (some (y, strm'))) :
    ∃ x, p strm = .ok (some (x, strm')) ∧ f x = y := by
  obtain ⟨result, hp, h⟩ := except_bind_ok.mp h
  cases result with
  | none => nomatch h
  | some result =>
    cases h
    exact ⟨_, hp, rfl⟩

/-- A sequence that has a result has one of both parsers. -/
theorem seqWith_ok {f : α → β → γ} {z : γ} (h : seqWith f p q strm = .ok (some (z, strm'))) :
    ∃ x strm₁ y, p strm = .ok (some (x, strm₁)) ∧ q strm₁ = .ok (some (y, strm')) ∧
      f x y = z := by
  obtain ⟨result, hp, h⟩ := except_bind_ok.mp h
  cases result with
  | none => nomatch h
  | some result =>
    obtain ⟨result', hq, h⟩ := except_bind_ok.mp h
    cases result' with
    | none => nomatch h
    | some result' =>
      cases h
      exact ⟨_, _, _, hp, hq, rfl⟩

theorem seq_ok {x : α × β} (h : seq p q strm = .ok (some (x, strm'))) :
    ∃ strm₁, p strm = .ok (some (x.1, strm₁)) ∧ q strm₁ = .ok (some (x.2, strm')) := by
  obtain ⟨y, strm₁, z, hp, hq, rfl⟩ := seqWith_ok h
  exact ⟨strm₁, hp, hq⟩

theorem or_ok {p' : Parser α} {x : α} (h : or p p' strm = .ok (some (x, strm'))) :
    p strm = .ok (some (x, strm')) ∨ p' strm = .ok (some (x, strm')) := by
  obtain ⟨result, hp, h⟩ := except_bind_ok.mp h
  cases result with
  | none => exact Or.inr h
  | some result =>
    cases h
    exact Or.inl hp

/-- The result of an alternative is that of one of its parsers. -/
theorem or'_ok {ps : List (Parser α)} {x : α} (h : or' ps strm = .ok (some (x, strm'))) :
    ∃ p ∈ ps, p strm = .ok (some (x, strm')) := by
  induction ps with
  | nil => nomatch h
  | cons p ps ih =>
    obtain ⟨result, hp, h⟩ := except_bind_ok.mp h
    cases result with
    | none =>
      obtain ⟨p', hp', h⟩ := ih h
      exact ⟨p', List.mem_cons_of_mem p hp', h⟩
    | some result =>
      cases h
      exact ⟨p, List.mem_cons_self, hp⟩

/-- The parser has run behind what is skipped. -/
theorem skipBefore_ok {pred : Char → Bool} {x : α}
    (h : skipBefore pred p strm = .ok (some (x, strm'))) :
    ∃ strm₁, p strm₁ = .ok (some (x, strm')) := by
  induction strm with
  | nil => nomatch h
  | cons c strm ih =>
    rw [skipBefore] at h
    split at h
    · exact ih h
    · exact ⟨c :: strm, h⟩

/-- What holds of every item that the parser does not stop behind. -/
theorem zeroOrMore_ok_or {P : α → Prop} {stops : List Char → Prop}
    (hstops : ∀ strm, stops strm → p strm = .ok none)
    (hp : ∀ x strm strm', p strm = .ok (some (x, strm')) → P x ∨ stops strm') {fuel : Nat}
    {xs : List α} (h : zeroOrMore fuel p strm = .ok (some (xs, strm'))) :
    (∀ x ∈ xs, P x) ∨ stops strm' := by
  have hparse : ∀ n l strm, (∀ x ∈ l, P x) ∨ stops strm →
      zeroOrMore.parse p n l strm = .ok (some (xs, strm')) →
      (∀ x ∈ xs, P x) ∨ stops strm' := by
    intro n
    induction n with
    | zero => intro l strm _ h; nomatch h
    | succ n ih =>
      intro l strm hl h
      obtain ⟨result, hitem, h⟩ := except_bind_ok.mp h
      cases result with
      | none =>
        cases h
        exact hl.imp_left fun hl x hx => hl x (List.mem_reverse.mp hx)
      | some result =>
        apply ih (result.1 :: l) result.2 _ h
        rcases hl with hl | hstop
        · apply (hp _ _ _ hitem).imp_left
          intro hresult x hx
          rcases List.mem_cons.mp hx with rfl | hx
          · exact hresult
          · exact hl x hx
        · rw [hstops strm hstop] at hitem
          nomatch hitem
  exact hparse fuel [] strm (Or.inl (by simp)) h

/-- What holds of every result of the parser holds of every item. -/
theorem zeroOrMore_ok {P : α → Prop}
    (hp : ∀ x strm strm', p strm = .ok (some (x, strm')) → P x) {fuel : Nat} {xs : List α}
    (h : zeroOrMore fuel p strm = .ok (some (xs, strm'))) : ∀ x ∈ xs, P x := by
  have hor := @zeroOrMore_ok_or _ _ _ _ P (fun _ => False) (fun _ => False.elim)
    (fun x strm strm' hitem => Or.inl (hp x strm strm' hitem)) fuel xs h
  exact hor.resolve_right id

theorem oneOrMore_ok {P : α → Prop}
    (hp : ∀ x strm strm', p strm = .ok (some (x, strm')) → P x) {fuel : Nat} {xs : List α}
    (h : oneOrMore fuel p strm = .ok (some (xs, strm'))) : xs ≠ [] ∧ ∀ x ∈ xs, P x := by
  obtain ⟨result, hzero, h⟩ := except_bind_ok.mp h
  match result with
  | none => nomatch h
  | some ([], strm₁) => nomatch h
  | some (y :: ys, strm₁) =>
    cases h
    exact ⟨List.cons_ne_nil y ys, zeroOrMore_ok hp hzero⟩

end Inversion

end ParserComb

end SmlSharp
