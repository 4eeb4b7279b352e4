/-
Cells that are written at most once: each has a fixed description and holds a value
from some point on.
-/

namespace SmlSharp

universe u v

structure Cell (ι : Type u) (ν : Type v) where
  info : ι
  value : Option ν

/-- The cells that were created so far, in this order. -/
abbrev Cells (ι : Type u) (ν : Type v) := List (Cell ι ν)

namespace Cells

variable {ι : Type u} {ν : Type v} {cells cells' cells'' : Cells ι ν}
  {n k : Nat} {label label' : ι} {x y : ν}

/-- A new cell without a value; its number is `cells.length`. -/
def create (cells : Cells ι ν) (info : ι) : Cells ι ν := cells ++ [⟨info, none⟩]

/-- A cell that has no value yet receives one. -/
def write (cells : Cells ι ν) (n : Nat) (x : ν) : Cells ι ν :=
  cells.modify n fun cell => { cell with value := cell.value.or (some x) }

def read (cells : Cells ι ν) (n : Nat) : Option ν := (cells[n]?).bind Cell.value

/-- The cell exists and has the description. -/
def Info (cells : Cells ι ν) (n : Nat) (info : ι) : Prop :=
  ∃ value, cells[n]? = some ⟨info, value⟩

/-- The cell holds the value. -/
def Holds (cells : Cells ι ν) (n : Nat) (x : ν) : Prop :=
  ∃ info, cells[n]? = some ⟨info, some x⟩

/-- The cells stay, with their descriptions and the values they hold. -/
def Extends (cells cells' : Cells ι ν) : Prop :=
  ∀ (n : Nat) (info : ι) (value : Option ν), cells[n]? = some ⟨info, value⟩ →
    ∃ value' : Option ν, cells'[n]? = some ⟨info, value'⟩ ∧
      ∀ x, value = some x → value' = some x

theorem Info.lt (h : Info cells n label) : n < cells.length := by
  obtain ⟨value, h⟩ := h
  exact (List.getElem?_eq_some_iff.mp h).1

theorem Info.unique (h : Info cells n label) (h' : Info cells n label') : label = label' := by
  obtain ⟨value, h⟩ := h
  obtain ⟨value', h'⟩ := h'
  rw [h] at h'
  cases h'
  rfl

theorem Holds.unique (h : Holds cells n x) (h' : Holds cells n y) : x = y := by
  obtain ⟨info, h⟩ := h
  obtain ⟨info', h'⟩ := h'
  rw [h] at h'
  cases h'
  rfl

theorem Holds.info (h : Holds cells n x) : ∃ label, Info cells n label := by
  obtain ⟨info, h⟩ := h
  exact ⟨info, some x, h⟩

theorem holds_of_read (h : read cells n = some x) : Holds cells n x := by
  rw [read, Option.bind_eq_some_iff] at h
  obtain ⟨⟨info, value⟩, hcell, rfl⟩ := h
  exact ⟨info, hcell⟩

theorem Extends.refl (cells : Cells ι ν) : Extends cells cells :=
  fun _ _ value h => ⟨value, h, fun _ hx => hx⟩

theorem Extends.trans (h : Extends cells cells') (h' : Extends cells' cells'') :
    Extends cells cells'' := by
  intro n info value hcell
  obtain ⟨value', hcell', hvalue⟩ := h n info value hcell
  obtain ⟨value'', hcell'', hvalue'⟩ := h' n info value' hcell'
  exact ⟨value'', hcell'', fun x hx => hvalue' x (hvalue x hx)⟩

theorem Info.mono (h : Info cells n label) (hext : Extends cells cells') :
    Info cells' n label := by
  obtain ⟨value, h⟩ := h
  obtain ⟨value', h', -⟩ := hext n label value h
  exact ⟨value', h'⟩

theorem Holds.mono (h : Holds cells n x) (hext : Extends cells cells') :
    Holds cells' n x := by
  obtain ⟨info, h⟩ := h
  obtain ⟨value', h', hvalue⟩ := hext n info (some x) h
  rw [hvalue x rfl] at h'
  exact ⟨info, h'⟩

theorem create_extends (cells : Cells ι ν) (info : ι) : Extends cells (cells.create info) := by
  intro n info' value h
  refine ⟨value, ?_, fun _ hx => hx⟩
  rw [create, List.getElem?_append_left (List.getElem?_eq_some_iff.mp h).1, h]

theorem info_create (cells : Cells ι ν) (info : ι) :
    Info (cells.create info) cells.length info :=
  ⟨none, by simp [create]⟩

theorem Info.of_create (h : Info (cells.create label) n label') :
    Info cells n label' ∨ (n = cells.length ∧ label' = label) := by
  obtain ⟨value, h⟩ := h
  rw [create, List.getElem?_append] at h
  split at h
  · exact .inl ⟨value, h⟩
  · rename_i hge
    rw [List.getElem?_singleton] at h
    split at h
    · cases h
      exact .inr ⟨by omega, rfl⟩
    · cases h

theorem Holds.of_create (h : Holds (cells.create label) n x) : Holds cells n x := by
  obtain ⟨info', h⟩ := h
  rw [create, List.getElem?_append] at h
  split at h
  · exact ⟨info', h⟩
  · rw [List.getElem?_singleton] at h
    split at h <;> cases h

theorem write_extends (cells : Cells ι ν) (n : Nat) (x : ν) :
    Extends cells (cells.write n x) := by
  intro k info value h
  rw [write, List.getElem?_modify, h]
  by_cases hnk : n = k
  · refine ⟨value.or (some x), by simp [hnk], ?_⟩
    rintro y rfl
    rfl
  · exact ⟨value, by simp [hnk], fun _ hx => hx⟩

theorem Info.of_write (h : Info (cells.write n x) k label) : Info cells k label := by
  obtain ⟨value, h⟩ := h
  rw [write, List.getElem?_modify, Option.map_eq_map, Option.map_eq_some_iff] at h
  obtain ⟨⟨info', value'⟩, hcell, heq⟩ := h
  split at heq <;> cases heq
  · exact ⟨value', hcell⟩
  · exact ⟨_, hcell⟩

/-- What a cell holds after a write was there before or has just been written. -/
theorem Holds.of_write (h : Holds (cells.write n x) k y) :
    Holds cells k y ∨ (k = n ∧ y = x) := by
  obtain ⟨label, h⟩ := h
  rw [write, List.getElem?_modify, Option.map_eq_map, Option.map_eq_some_iff] at h
  obtain ⟨⟨label', value'⟩, hcell, heq⟩ := h
  by_cases hnk : n = k
  · rw [if_pos hnk] at heq
    cases value' with
    | none =>
      cases heq
      exact .inr ⟨hnk.symm, rfl⟩
    | some z =>
      cases heq
      exact .inl ⟨label', hcell⟩
  · rw [if_neg hnk] at heq
    cases heq
    exact .inl ⟨_, hcell⟩

theorem holds_write (h : cells[n]? = some ⟨label, none⟩) : Holds (cells.write n x) n x :=
  ⟨label, by rw [write, List.getElem?_modify, h]; simp⟩

end Cells

end SmlSharp
