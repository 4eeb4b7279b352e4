/-
Trees with binders, and the renamings of their bound variables.
-/
import Mathlib.Data.List.Perm.Basic

namespace SmlSharp

/-- The parts of a binder's variables are in its scope. -/
inductive BindingTree (N L : Type) where
  | var (x : N)
  | node (label : L) (parts : List (BindingTree N L))
  | binder (vars : List (N × BindingTree N L)) (body : BindingTree N L)

namespace BindingTree

variable {N L : Type}

/-- The variables that binders bind together, those of inner binders first. -/
abbrev Pairing (N : Type) := List (N × N)

/-- The variables are bound together, or both are free and the same. -/
def Paired : Pairing N → N → N → Prop
  | [], a, b => a = b
  | (x, y) :: σ, a, b => (a = x ∧ b = y) ∨ (a ≠ x ∧ b ≠ y ∧ Paired σ a b)

def bind (σ : Pairing N) (xs ys : List (N × BindingTree N L)) : Pairing N :=
  (List.zip xs ys).foldl (fun σ (x, y) => (x.1, y.1) :: σ) σ

/-! ### Equality -/

section Equal

variable (R : Pairing N → N → N → Prop)
  (arrange : List (N × BindingTree N L) → List (N × BindingTree N L) → Prop)

mutual

/-- Equality with the variables compared by `R` and the variables of a binder in the
second tree arranged before they are bound. -/
def Equal : Pairing N → BindingTree N L → BindingTree N L → Prop
  | σ, .var a, .var b => R σ a b
  | σ, .node l ps, .node l' qs => l = l' ∧ EqualAll σ ps qs
  | σ, .binder xs s, .binder ys t =>
    ∃ ys', arrange ys ys' ∧ xs.length = ys'.length ∧ EqualVars (bind σ xs ys') xs ys' ∧
      Equal (bind σ xs ys') s t
  | _, _, _ => False

def EqualAll : Pairing N → List (BindingTree N L) → List (BindingTree N L) → Prop
  | _, [], [] => True
  | σ, p :: ps, q :: qs => Equal σ p q ∧ EqualAll σ ps qs
  | _, _, _ => False

def EqualVars : Pairing N → List (N × BindingTree N L) → List (N × BindingTree N L) → Prop
  | _, [], [] => True
  | σ, (_, p) :: xs, (_, q) :: ys => Equal σ p q ∧ EqualVars σ xs ys
  | _, _, _ => False

end

variable {R arrange} {σ : Pairing N} {l l' : L} {p q : BindingTree N L}
  {ps qs : List (BindingTree N L)}

@[simp] theorem equal_node :
    Equal R arrange σ (.node l ps) (.node l' qs) ↔ l = l' ∧ EqualAll R arrange σ ps qs :=
  Iff.rfl

@[simp] theorem equal_var {a b : N} : Equal R arrange σ (.var a) (.var b) ↔ R σ a b := Iff.rfl

@[simp] theorem not_equal_var_node {a : N} : ¬ Equal R arrange σ (.var a) (.node l qs) := id

@[simp] theorem not_equal_node_var {b : N} : ¬ Equal R arrange σ (.node l ps) (.var b) := id

@[simp] theorem not_equal_var_binder {a : N} {ys : List (N × BindingTree N L)} :
    ¬ Equal R arrange σ (.var a) (.binder ys q) := id

@[simp] theorem not_equal_node_binder {ys : List (N × BindingTree N L)} :
    ¬ Equal R arrange σ (.node l ps) (.binder ys q) := id

@[simp] theorem not_equal_binder_var {b : N} {xs : List (N × BindingTree N L)} :
    ¬ Equal R arrange σ (.binder xs p) (.var b) := id

@[simp] theorem not_equal_binder_node {xs : List (N × BindingTree N L)} :
    ¬ Equal R arrange σ (.binder xs p) (.node l qs) := id

@[simp] theorem equalVars_nil : EqualVars R arrange σ [] [] := trivial

/-- Where the variables are not arranged. -/
theorem equal_binder_eq {xs ys : List (N × BindingTree N L)} :
    Equal R Eq σ (.binder xs p) (.binder ys q) ↔
      xs.length = ys.length ∧ EqualVars R Eq (bind σ xs ys) xs ys ∧
        Equal R Eq (bind σ xs ys) p q := by
  constructor
  · rintro ⟨ys', rfl, h⟩
    exact h
  · intro h
    exact ⟨ys, rfl, h⟩

@[simp] theorem equalAll_nil : EqualAll R arrange σ [] [] := trivial

@[simp] theorem equalAll_cons :
    EqualAll R arrange σ (p :: ps) (q :: qs) ↔
      Equal R arrange σ p q ∧ EqualAll R arrange σ ps qs := Iff.rfl

@[simp] theorem not_equalAll_nil_cons : ¬ EqualAll R arrange σ [] (q :: qs) := id

@[simp] theorem not_equalAll_cons_nil : ¬ EqualAll R arrange σ (p :: ps) [] := id

end Equal

/-- Equality up to a renaming of the bound variables. -/
def EqualUpToRenaming (s t : BindingTree N L) : Prop := Equal Paired List.Perm [] s t

/-- The renaming keeps the order of a binder's variables. -/
def EqualInOrder (s t : BindingTree N L) : Prop := Equal Paired Eq [] s t

/-! ### Places -/

section Places

variable (P : Pairing N → N → N → Prop)

mutual

/-- What holds wherever both trees have a variable, as far as they agree above it. -/
def AtVariables : Pairing N → BindingTree N L → BindingTree N L → Prop
  | σ, .var a, .var b => P σ a b
  | σ, .node l ps, .node l' qs => l = l' → AtVariablesAll σ ps qs
  | σ, .binder xs s, .binder ys t =>
    AtVariablesVars (bind σ xs ys) xs ys ∧ AtVariables (bind σ xs ys) s t
  | _, _, _ => True

def AtVariablesAll : Pairing N → List (BindingTree N L) → List (BindingTree N L) → Prop
  | σ, p :: ps, q :: qs => AtVariables σ p q ∧ AtVariablesAll σ ps qs
  | _, _, _ => True

def AtVariablesVars :
    Pairing N → List (N × BindingTree N L) → List (N × BindingTree N L) → Prop
  | σ, (_, p) :: xs, (_, q) :: ys => AtVariables σ p q ∧ AtVariablesVars σ xs ys
  | _, _, _ => True

end

end Places

section Labels

variable (P : L → Prop)

mutual

def EveryLabel : BindingTree N L → Prop
  | .var _ => True
  | .node l ps => P l ∧ EveryLabelAll ps
  | .binder xs s => EveryLabelVars xs ∧ EveryLabel s

def EveryLabelAll : List (BindingTree N L) → Prop
  | [] => True
  | p :: ps => EveryLabel p ∧ EveryLabelAll ps

def EveryLabelVars : List (N × BindingTree N L) → Prop
  | [] => True
  | (_, p) :: xs => EveryLabel p ∧ EveryLabelVars xs

end

end Labels

/-! ### Comparing variables differently -/

section Mono

variable {P R S : Pairing N → N → N → Prop}
  {arrange : List (N × BindingTree N L) → List (N × BindingTree N L) → Prop}

mutual

/-- It is enough to go over to the other comparison where variables meet. -/
theorem Equal.mono (hrefl : ∀ ys, arrange ys ys)
    (hleaf : ∀ σ a b, P σ a b → R σ a b → S σ a b) {σ : Pairing N} {s t : BindingTree N L}
    (hplaces : AtVariables P σ s t) (h : Equal R Eq σ s t) : Equal S arrange σ s t := by
  match s, t with
  | .var a, .var b => exact hleaf σ a b hplaces h
  | .node l ps, .node l' qs => exact ⟨h.1, EqualAll.mono hrefl hleaf (hplaces h.1) h.2⟩
  | .binder xs s, .binder ys t =>
    obtain ⟨ys', rfl, hlength, hvars, hbody⟩ := h
    exact ⟨ys, hrefl ys, hlength, EqualVars.mono hrefl hleaf hplaces.1 hvars,
      Equal.mono hrefl hleaf hplaces.2 hbody⟩
  | .var _, .node _ _ => exact h.elim
  | .var _, .binder _ _ => exact h.elim
  | .node _ _, .var _ => exact h.elim
  | .node _ _, .binder _ _ => exact h.elim
  | .binder _ _, .var _ => exact h.elim
  | .binder _ _, .node _ _ => exact h.elim

theorem EqualAll.mono (hrefl : ∀ ys, arrange ys ys)
    (hleaf : ∀ σ a b, P σ a b → R σ a b → S σ a b) {σ : Pairing N}
    {ps qs : List (BindingTree N L)} (hplaces : AtVariablesAll P σ ps qs)
    (h : EqualAll R Eq σ ps qs) : EqualAll S arrange σ ps qs := by
  match ps, qs with
  | [], [] => trivial
  | p :: ps, q :: qs =>
    exact ⟨Equal.mono hrefl hleaf hplaces.1 h.1, EqualAll.mono hrefl hleaf hplaces.2 h.2⟩
  | [], _ :: _ => exact h.elim
  | _ :: _, [] => exact h.elim

theorem EqualVars.mono (hrefl : ∀ ys, arrange ys ys)
    (hleaf : ∀ σ a b, P σ a b → R σ a b → S σ a b) {σ : Pairing N}
    {xs ys : List (N × BindingTree N L)} (hplaces : AtVariablesVars P σ xs ys)
    (h : EqualVars R Eq σ xs ys) : EqualVars S arrange σ xs ys := by
  match xs, ys with
  | [], [] => trivial
  | (_, p) :: xs, (_, q) :: ys =>
    exact ⟨Equal.mono hrefl hleaf hplaces.1 h.1, EqualVars.mono hrefl hleaf hplaces.2 h.2⟩
  | [], _ :: _ => exact h.elim
  | _ :: _, [] => exact h.elim

end

mutual

theorem atVariables_of_forall (h : ∀ σ a b, P σ a b) (σ : Pairing N) (s t : BindingTree N L) :
    AtVariables P σ s t := by
  match s, t with
  | .var a, .var b => exact h σ a b
  | .node l ps, .node l' qs => exact fun _ => atVariablesAll_of_forall h σ ps qs
  | .binder xs s, .binder ys t =>
    exact ⟨atVariablesVars_of_forall h _ xs ys, atVariables_of_forall h _ s t⟩
  | .var _, .node _ _ => trivial
  | .var _, .binder _ _ => trivial
  | .node _ _, .var _ => trivial
  | .node _ _, .binder _ _ => trivial
  | .binder _ _, .var _ => trivial
  | .binder _ _, .node _ _ => trivial

theorem atVariablesAll_of_forall (h : ∀ σ a b, P σ a b) (σ : Pairing N)
    (ps qs : List (BindingTree N L)) : AtVariablesAll P σ ps qs := by
  match ps, qs with
  | [], _ => trivial
  | _ :: _, [] => trivial
  | p :: ps, q :: qs =>
    exact ⟨atVariables_of_forall h σ p q, atVariablesAll_of_forall h σ ps qs⟩

theorem atVariablesVars_of_forall (h : ∀ σ a b, P σ a b) (σ : Pairing N)
    (xs ys : List (N × BindingTree N L)) : AtVariablesVars P σ xs ys := by
  match xs, ys with
  | [], _ => trivial
  | _ :: _, [] => trivial
  | (_, p) :: xs, (_, q) :: ys =>
    exact ⟨atVariables_of_forall h σ p q, atVariablesVars_of_forall h σ xs ys⟩

end

end Mono

end BindingTree

end SmlSharp
