/-
Strongly connected components of a relation, listed so that no arrow leads from
a component to an earlier one.
-/
import Mathlib.Data.List.Nodup
import Mathlib.Logic.Relation

namespace SmlSharp

open Relation

universe u

variable {α : Type u}

/-- Two elements that reach one another. -/
def Mutual (R : α → α → Prop) (x y : α) : Prop :=
  ReflTransGen R x y ∧ ReflTransGen R y x

/-- Components of the part of the relation that they cover, which no arrow
leaves. -/
structure Finished (R : α → α → Prop) (components : List (List α)) : Prop where
  nodup : components.flatten.Nodup
  nonempty : [] ∉ components
  mem_iff : ∀ c ∈ components, ∀ x ∈ c, ∀ y, y ∈ c ↔ Mutual R x y
  closed : ∀ x ∈ components.flatten, ∀ y, R x y → y ∈ components.flatten
  forward : components.Pairwise fun c c' => ∀ x ∈ c', ∀ y ∈ c, ¬ R x y

/-- The strongly connected components of the nodes. -/
structure IsComponents (R : α → α → Prop) (nodes : List α)
    (components : List (List α)) : Prop where
  nodup : components.flatten.Nodup
  nonempty : [] ∉ components
  mem_flatten : ∀ x, x ∈ components.flatten ↔ x ∈ nodes
  mem_iff : ∀ c ∈ components, ∀ x ∈ c, ∀ y, y ∈ c ↔ Mutual R x y
  forward : components.Pairwise fun c c' => ∀ x ∈ c', ∀ y ∈ c, ¬ R x y

section Finished

variable {R : α → α → Prop} {components : List (List α)}

theorem finished_nil : Finished R [] := by
  constructor <;> simp

theorem Finished.reach (h : Finished R components) {x y : α}
    (hx : x ∈ components.flatten) (hreach : ReflTransGen R x y) :
    y ∈ components.flatten := by
  induction hreach with
  | refl => exact hx
  | tail _ hstep ih => exact h.closed _ ih _ hstep

/-- What leaves a set only into finished components stays in both together. -/
theorem Finished.reach_or (h : Finished R components) {S : α → Prop}
    (hstep : ∀ x, S x → ∀ y, R x y → S y ∨ y ∈ components.flatten) {x y : α}
    (hx : S x) (hreach : ReflTransGen R x y) : S y ∨ y ∈ components.flatten := by
  induction hreach with
  | refl => exact Or.inl hx
  | tail _ harrow ih =>
    rcases ih with hin | hfinished
    · exact hstep _ hin _ harrow
    · exact Or.inr (h.closed _ hfinished _ harrow)

/-- A strongly connected set that only leads to finished components is the next
component. -/
theorem Finished.cons (h : Finished R components) {c : List α} (hne : c ≠ [])
    (hnodup : c.Nodup) (hdisjoint : ∀ x ∈ c, x ∉ components.flatten)
    (hconnected : ∀ x ∈ c, ∀ y ∈ c, ReflTransGen R x y)
    (hstep : ∀ x ∈ c, ∀ y, R x y → y ∈ c ∨ y ∈ components.flatten) :
    Finished R (c :: components) := by
  constructor
  · rw [List.flatten_cons, List.nodup_append]
    refine ⟨hnodup, h.nodup, ?_⟩
    rintro x hx y hy rfl
    exact hdisjoint x hx hy
  · intro hmem
    rcases List.mem_cons.mp hmem with heq | hmem
    · exact hne heq.symm
    · exact h.nonempty hmem
  · intro c' hc' x hx y
    rcases List.mem_cons.mp hc' with rfl | hc'
    · constructor
      · intro hy
        exact ⟨hconnected x hx y hy, hconnected y hy x hx⟩
      · rintro ⟨hxy, hyx⟩
        rcases h.reach_or hstep hx hxy with hy | hy
        · exact hy
        · exact absurd (h.reach hy hyx) (hdisjoint x hx)
    · exact h.mem_iff c' hc' x hx y
  · intro x hx y harrow
    rw [List.flatten_cons, List.mem_append] at hx ⊢
    rcases hx with hx | hx
    · exact hstep x hx y harrow
    · exact Or.inr (h.closed x hx y harrow)
  · rw [List.pairwise_cons]
    refine ⟨?_, h.forward⟩
    intro c' hc' x hx y hy harrow
    have hfinished := h.closed x (List.mem_flatten.mpr ⟨c', hc', hx⟩) y harrow
    exact hdisjoint y hy hfinished

theorem Finished.isComponents (h : Finished R components) {nodes : List α}
    (hmem : ∀ x, x ∈ components.flatten ↔ x ∈ nodes) :
    IsComponents R nodes components :=
  ⟨h.nodup, h.nonempty, hmem, h.mem_iff, h.forward⟩

end Finished

/-! ### Opposite arrows -/

section Swap

variable {R : α → α → Prop} {nodes : List α} {components : List (List α)}

theorem mutual_swap {x y : α} : Mutual (Function.swap R) x y ↔ Mutual R x y :=
  (and_congr reflTransGen_swap reflTransGen_swap).trans and_comm

/-- The components in the opposite order, each of them turned around. -/
theorem IsComponents.reverse (h : IsComponents R nodes components) :
    IsComponents (Function.swap R) nodes (components.reverse.map List.reverse) := by
  constructor
  · rw [List.map_reverse, ← List.reverse_flatten, List.nodup_reverse]
    exact h.nodup
  · simpa using h.nonempty
  · intro x
    rw [List.map_reverse, ← List.reverse_flatten, List.mem_reverse]
    exact h.mem_flatten x
  · intro c' hc' x hx y
    obtain ⟨c, hc, rfl⟩ := List.mem_map.mp hc'
    rw [List.mem_reverse, h.mem_iff c (List.mem_reverse.mp hc) x (List.mem_reverse.mp hx) y]
    exact mutual_swap.symm
  · rw [List.pairwise_map, List.pairwise_reverse]
    apply h.forward.imp
    intro c c' hforward x hx y hy harrow
    exact hforward y (List.mem_reverse.mp hy) x (List.mem_reverse.mp hx) harrow

theorem IsComponents.of_mem_iff {nodes' : List α} (h : IsComponents R nodes components)
    (hmem : ∀ x, x ∈ nodes ↔ x ∈ nodes') : IsComponents R nodes' components :=
  ⟨h.nodup, h.nonempty, fun x => (h.mem_flatten x).trans (hmem x), h.mem_iff, h.forward⟩

end Swap

/-! ### Renaming -/

section Map

universe v

variable {β : Type v} {R : α → α → Prop} {S : β → β → Prop} {nodes : List α}
  {f : α → β}

/-- A renaming of the nodes under which their arrows correspond. -/
structure Renames (R : α → α → Prop) (S : β → β → Prop) (nodes : List α)
    (f : α → β) : Prop where
  inj : ∀ x ∈ nodes, ∀ y ∈ nodes, f x = f y → x = y
  arrow : ∀ x ∈ nodes, ∀ y ∈ nodes, (S (f x) (f y) ↔ R x y)
  closed : ∀ x ∈ nodes, ∀ z, S (f x) z → ∃ y ∈ nodes, z = f y
  mem : ∀ x ∈ nodes, ∀ y, R x y → y ∈ nodes

theorem Renames.reach_map (h : Renames R S nodes f) {x y : α} (hx : x ∈ nodes)
    (hreach : ReflTransGen R x y) : y ∈ nodes ∧ ReflTransGen S (f x) (f y) := by
  induction hreach with
  | refl => exact ⟨hx, ReflTransGen.refl⟩
  | tail _ harrow ih =>
    have hy := h.mem _ ih.1 _ harrow
    exact ⟨hy, ih.2.tail ((h.arrow _ ih.1 _ hy).mpr harrow)⟩

theorem Renames.reach_of_map (h : Renames R S nodes f) {x : α} {z : β}
    (hx : x ∈ nodes) (hreach : ReflTransGen S (f x) z) :
    ∃ y ∈ nodes, z = f y ∧ ReflTransGen R x y := by
  induction hreach with
  | refl => exact ⟨x, hx, rfl, ReflTransGen.refl⟩
  | tail _ harrow ih =>
    obtain ⟨y, hy, rfl, hxy⟩ := ih
    obtain ⟨w, hw, rfl⟩ := h.closed y hy _ harrow
    exact ⟨w, hw, rfl, hxy.tail ((h.arrow y hy w hw).mp harrow)⟩

theorem Renames.mutual_iff (h : Renames R S nodes f) {x y : α} (hx : x ∈ nodes)
    (hy : y ∈ nodes) : Mutual S (f x) (f y) ↔ Mutual R x y := by
  have hreach : ∀ {x y}, x ∈ nodes → y ∈ nodes →
      (ReflTransGen S (f x) (f y) ↔ ReflTransGen R x y) := by
    intro x y hx hy
    constructor
    · intro hxy
      obtain ⟨z, hz, heq, hxz⟩ := h.reach_of_map hx hxy
      rw [h.inj y hy z hz heq]
      exact hxz
    · intro hxy
      exact (h.reach_map hx hxy).2
  exact and_congr (hreach hx hy) (hreach hy hx)

/-- Renamed components are the components of the renamed relation. -/
theorem IsComponents.map {components : List (List α)}
    (h : IsComponents R nodes components) (hf : Renames R S nodes f) :
    IsComponents S (nodes.map f) (components.map (List.map f)) := by
  have hnode : ∀ {c x}, c ∈ components → x ∈ c → x ∈ nodes := by
    intro c x hc hx
    exact (h.mem_flatten x).mp (List.mem_flatten.mpr ⟨c, hc, hx⟩)
  have hflatten : (components.map (List.map f)).flatten = components.flatten.map f :=
    List.map_flatten.symm
  constructor
  · rw [hflatten]
    refine List.Nodup.map_on ?_ h.nodup
    intro x hx y hy
    exact hf.inj x ((h.mem_flatten x).mp hx) y ((h.mem_flatten y).mp hy)
  · intro hmem
    obtain ⟨c, hc, hnil⟩ := List.mem_map.mp hmem
    rw [List.map_eq_nil_iff.mp hnil] at hc
    exact h.nonempty hc
  · intro z
    rw [hflatten, List.mem_map, List.mem_map]
    simp only [h.mem_flatten]
  · intro c' hc' x' hx' z
    obtain ⟨c, hc, rfl⟩ := List.mem_map.mp hc'
    obtain ⟨x, hx, rfl⟩ := List.mem_map.mp hx'
    constructor
    · intro hz
      obtain ⟨y, hy, rfl⟩ := List.mem_map.mp hz
      rw [hf.mutual_iff (hnode hc hx) (hnode hc hy)]
      exact (h.mem_iff c hc x hx y).mp hy
    · intro hmutual
      obtain ⟨y, hy, rfl, -⟩ := hf.reach_of_map (hnode hc hx) hmutual.1
      rw [hf.mutual_iff (hnode hc hx) hy] at hmutual
      exact List.mem_map_of_mem ((h.mem_iff c hc x hx y).mpr hmutual)
  · rw [List.pairwise_map]
    apply h.forward.imp_of_mem
    intro c c' hc hc' hforward x' hx' y' hy' harrow
    obtain ⟨x, hx, rfl⟩ := List.mem_map.mp hx'
    obtain ⟨y, hy, rfl⟩ := List.mem_map.mp hy'
    rw [hf.arrow x (hnode hc' hx) y (hnode hc hy)] at harrow
    exact hforward x hx y hy harrow

end Map

end SmlSharp
