/-
Couples: rendezvous points at which a left call and a right call exchange their
values through a write-once variable.
-/
import Mathlib.Logic.Function.Basic

namespace SmlSharp.Couple

universe u v w x

/-- A call of `left` or `right` that got past the wait, and who made it. -/
structure Call (ν : Type u) (ι : Type v) where
  couple : Nat
  value : ν
  info : ι

/-- `EMPTY`, `LEFT (d, x)` and `RIGHT (d, y)`; `call` is the number of the call that
put it. -/
inductive Slot (X : Type u) (Y : Type v) where
  | empty
  | left (d call : Nat) (x : X)
  | right (d call : Nat) (y : Y)

def Slot.ivar {X : Type u} {Y : Type v} : Slot X Y → Option Nat
  | .empty => none
  | .left d _ _ | .right d _ _ => some d

/-- The two calls that were brought together, and the variable of both. -/
structure Agreement where
  var : Nat
  left : Nat
  right : Nat

def Slot.swap {X : Type u} {Y : Type v} : Slot X Y → Slot Y X
  | .empty => .empty
  | .left d call x => .right d call x
  | .right d call y => .left d call y

def Agreement.swap (g : Agreement) : Agreement := ⟨g.var, g.right, g.left⟩

/-- All couples of one type with the variables they create.  The calls and the
agreements are only recorded. -/
structure Store (X : Type u) (Y : Type v) (A : Type w) (B : Type x) where
  slot : Nat → Slot X Y
  var : Nat → Option (X × Y)
  nextVar : Nat
  lefts : List (Call X A)
  rights : List (Call Y B)
  agreed : List Agreement

namespace Store

variable {X : Type u} {Y : Type v} {A : Type w} {B : Type x}

def initial : Store X Y A B := ⟨fun _ => .empty, fun _ => none, 0, [], [], []⟩

/-- The critical section of `left (c, x)`: the couples after it, the variable it
returns and what it still has to write there.  A call that finds `LEFT` waits. -/
def left (s : Store X Y A B) (c : Nat) (x : X) (info : A) :
    Option (Store X Y A B × Nat × Option (X × Y)) :=
  match s.slot c with
  | .left .. => none
  | .empty =>
    some ({ s with
        slot := Function.update s.slot c (.left s.nextVar s.lefts.length x)
        nextVar := s.nextVar + 1
        lefts := s.lefts ++ [⟨c, x, info⟩] },
      s.nextVar, none)
  | .right d call y =>
    some ({ s with
        slot := Function.update s.slot c .empty
        lefts := s.lefts ++ [⟨c, x, info⟩]
        agreed := ⟨d, s.lefts.length, call⟩ :: s.agreed },
      d, some (x, y))

/-- The critical section of `right (c, y)`. -/
def right (s : Store X Y A B) (c : Nat) (y : Y) (info : B) :
    Option (Store X Y A B × Nat × Option (X × Y)) :=
  match s.slot c with
  | .right .. => none
  | .empty =>
    some ({ s with
        slot := Function.update s.slot c (.right s.nextVar s.rights.length y)
        nextVar := s.nextVar + 1
        rights := s.rights ++ [⟨c, y, info⟩] },
      s.nextVar, none)
  | .left d call x =>
    some ({ s with
        slot := Function.update s.slot c .empty
        rights := s.rights ++ [⟨c, y, info⟩]
        agreed := ⟨d, call, s.rights.length⟩ :: s.agreed },
      d, some (x, y))

/-- `Ivar.set (d, p)` -/
def set (s : Store X Y A B) (d : Nat) (p : X × Y) : Store X Y A B :=
  match s.var d with
  | none => { s with var := Function.update s.var d (some p) }
  | some _ => s

/-- The left call of a number has the variable `d`. -/
def LeftAt (s : Store X Y A B) (d call : Nat) : Prop :=
  (∃ c x, s.slot c = .left d call x) ∨ ∃ n, ⟨d, call, n⟩ ∈ s.agreed

def RightAt (s : Store X Y A B) (d call : Nat) : Prop :=
  (∃ c y, s.slot c = .right d call y) ∨ ∃ n, ⟨d, n, call⟩ ∈ s.agreed

/-- The two calls were brought together. -/
def Agreed (s : Store X Y A B) (m n : Nat) : Prop := ∃ d, ⟨d, m, n⟩ ∈ s.agreed

/-- The value belongs into the variable. -/
def Belongs (s : Store X Y A B) (d : Nat) (p : X × Y) : Prop :=
  ∃ m n l r, ⟨d, m, n⟩ ∈ s.agreed ∧ s.lefts[m]? = some l ∧ s.rights[n]? = some r ∧
    p = (l.value, r.value)

/-- What holds of couples that are used only through their operations. -/
structure Ok (s : Store X Y A B) : Prop where
  slot_left : ∀ {c d m x}, s.slot c = .left d m x →
    (∃ info, s.lefts[m]? = some ⟨c, x, info⟩) ∧ ∀ g ∈ s.agreed, g.left ≠ m
  slot_right : ∀ {c d n y}, s.slot c = .right d n y →
    (∃ info, s.rights[n]? = some ⟨c, y, info⟩) ∧ ∀ g ∈ s.agreed, g.right ≠ n
  slot_var : ∀ {c d}, (s.slot c).ivar = some d → d < s.nextVar ∧ ∀ g ∈ s.agreed, g.var ≠ d
  slot_unique : ∀ {c c' d}, (s.slot c).ivar = some d → (s.slot c').ivar = some d → c = c'
  agreed_calls : ∀ {g}, g ∈ s.agreed → g.var < s.nextVar ∧
    ∃ l r, s.lefts[g.left]? = some l ∧ s.rights[g.right]? = some r ∧ l.couple = r.couple
  agreed_unique : ∀ {g g'}, g ∈ s.agreed → g' ∈ s.agreed →
    g.var = g'.var ∨ g.left = g'.left ∨ g.right = g'.right → g = g'
  var_belongs : ∀ {d p}, s.var d = some p → s.Belongs d p

/-- The calls stay with their variables, and so do the agreements. -/
structure Extends (s s' : Store X Y A B) : Prop where
  lefts : ∀ {m : Nat} {call : Call X A}, s.lefts[m]? = some call → s'.lefts[m]? = some call
  rights : ∀ {n : Nat} {call : Call Y B},
    s.rights[n]? = some call → s'.rights[n]? = some call
  agreed : ∀ {g}, g ∈ s.agreed → g ∈ s'.agreed
  leftAt : ∀ {d m}, s.LeftAt d m → s'.LeftAt d m
  rightAt : ∀ {d n}, s.RightAt d n → s'.RightAt d n

variable {s s' s'' : Store X Y A B} {c d m n : Nat} {x : X} {y : Y} {p : X × Y}
  {info : A} {owed : Option (X × Y)}

theorem Extends.refl (s : Store X Y A B) : Extends s s where
  lefts := id
  rights := id
  agreed := id
  leftAt := id
  rightAt := id

theorem Extends.trans (h : Extends s s') (h' : Extends s' s'') : Extends s s'' where
  lefts hcall := h'.lefts (h.lefts hcall)
  rights hcall := h'.rights (h.rights hcall)
  agreed hg := h'.agreed (h.agreed hg)
  leftAt hat := h'.leftAt (h.leftAt hat)
  rightAt hat := h'.rightAt (h.rightAt hat)

theorem Agreed.mono (h : s.Agreed m n) (hext : Extends s s') : s'.Agreed m n := by
  obtain ⟨d, h⟩ := h
  exact ⟨d, hext.agreed h⟩

theorem Belongs.mono (h : s.Belongs d p) (hext : Extends s s') : s'.Belongs d p := by
  obtain ⟨m, n, l, r, hg, hl, hr, hp⟩ := h
  exact ⟨m, n, l, r, hext.agreed hg, hext.lefts hl, hext.rights hr, hp⟩

theorem getElem?_concat_of_some {α : Type u} {l : List α} {a b : α} {k : Nat}
    (h : l[k]? = some a) : (l ++ [b])[k]? = some a := by
  rw [List.getElem?_append_left (List.getElem?_eq_some_iff.mp h).1, h]

theorem lt_of_getElem?_eq_some {α : Type u} {l : List α} {a : α} {k : Nat}
    (h : l[k]? = some a) : k < l.length :=
  (List.getElem?_eq_some_iff.mp h).1

theorem ne_of_slot {c c' : Nat} {a b : Slot X Y} (h : s.slot c = a) (h' : s.slot c' = b)
    (hab : b ≠ a) : c' ≠ c := by
  rintro rfl
  exact hab (h'.symm.trans h)

theorem left_extends (h : s.left c x info = some (s', d, owed)) : Extends s s' := by
  unfold left at h
  split at h
  · cases h
  · rename_i hslot
    cases h
    refine ⟨getElem?_concat_of_some, id, id, ?_, ?_⟩
    · rintro d m (⟨c', x', hleft⟩ | hagreed)
      · have hne : c' ≠ c := ne_of_slot hslot hleft nofun
        exact .inl ⟨c', x', by simpa [hne] using hleft⟩
      · exact .inr hagreed
    · rintro d n (⟨c', y', hright⟩ | hagreed)
      · have hne : c' ≠ c := ne_of_slot hslot hright nofun
        exact .inl ⟨c', y', by simpa [hne] using hright⟩
      · exact .inr hagreed
  · rename_i hslot
    cases h
    refine ⟨getElem?_concat_of_some, id, List.mem_cons_of_mem _, ?_, ?_⟩
    · rintro d m (⟨c', x', hleft⟩ | ⟨n, hagreed⟩)
      · have hne : c' ≠ c := ne_of_slot hslot hleft nofun
        exact .inl ⟨c', x', by simpa [hne] using hleft⟩
      · exact .inr ⟨n, List.mem_cons_of_mem _ hagreed⟩
    · rintro d n (⟨c', y', hright⟩ | ⟨m, hagreed⟩)
      · by_cases hc : c' = c
        · subst hc
          rw [hslot] at hright
          cases hright
          exact .inr ⟨_, List.mem_cons_self⟩
        · exact .inl ⟨c', y', by simpa [hc] using hright⟩
      · exact .inr ⟨m, List.mem_cons_of_mem _ hagreed⟩

/-- A call of `left` is recorded, and nothing else is. -/
theorem left_calls (h : s.left c x info = some (s', d, owed)) :
    s'.lefts = s.lefts ++ [⟨c, x, info⟩] ∧ s'.rights = s.rights ∧ s'.var = s.var := by
  unfold left at h
  split at h <;> cases h <;> exact ⟨rfl, rfl, rfl⟩

theorem left_at (h : s.left c x info = some (s', d, owed)) :
    s'.LeftAt d s.lefts.length := by
  unfold left at h
  split at h <;> cases h
  · exact .inl ⟨c, x, by simp⟩
  · exact .inr ⟨_, List.mem_cons_self⟩

theorem Ok.left_belongs (hok : s.Ok) (h : s.left c x info = some (s', d, some p)) :
    s'.Belongs d p := by
  unfold left at h
  split at h <;> cases h
  rename_i hslot
  obtain ⟨⟨info', hcall⟩, -⟩ := hok.slot_right hslot
  exact ⟨s.lefts.length, _, ⟨c, x, info⟩, _, List.mem_cons_self, by simp, hcall, rfl⟩

theorem Ok.left (hok : s.Ok) (h : s.left c x info = some (s', d, owed)) : s'.Ok := by
  have hext := left_extends h
  have hlt : ∀ g ∈ s.agreed, g.left < s.lefts.length := fun g hg => by
    obtain ⟨-, l, r, hl, -⟩ := hok.agreed_calls hg
    exact lt_of_getElem?_eq_some hl
  unfold Store.left at h
  split at h
  · cases h
  · rename_i hslot
    cases h
    refine ⟨?_, ?_, ?_, ?_, ?_, hok.agreed_unique, ?_⟩
    · intro c' d' m' x' hleft
      by_cases hc : c' = c
      · subst hc
        simp only [Function.update_self, Slot.left.injEq] at hleft
        obtain ⟨rfl, rfl, rfl⟩ := hleft
        exact ⟨⟨info, by simp⟩, fun g hg => Nat.ne_of_lt (hlt g hg)⟩
      · simp only [Function.update_of_ne hc] at hleft
        obtain ⟨⟨info', hcall⟩, hnone⟩ := hok.slot_left hleft
        exact ⟨⟨info', hext.lefts hcall⟩, hnone⟩
    · intro c' d' n' y' hright
      by_cases hc : c' = c
      · subst hc
        simp at hright
      · simp only [Function.update_of_ne hc] at hright
        exact hok.slot_right hright
    · intro c' d' hvar
      by_cases hc : c' = c
      · subst hc
        simp only [Function.update_self, Slot.ivar, Option.some.injEq] at hvar
        subst hvar
        exact ⟨Nat.lt_succ_self _, fun g hg => Nat.ne_of_lt (hok.agreed_calls hg).1⟩
      · simp only [Function.update_of_ne hc] at hvar
        obtain ⟨hd, hnone⟩ := hok.slot_var hvar
        exact ⟨Nat.lt_succ_of_lt hd, hnone⟩
    · intro c₁ c₂ d' h₁ h₂
      by_cases hc₁ : c₁ = c <;> by_cases hc₂ : c₂ = c
      · rw [hc₁, hc₂]
      · simp only [hc₁, Function.update_self, Slot.ivar, Option.some.injEq] at h₁
        simp only [Function.update_of_ne hc₂] at h₂
        exact absurd h₁ (Nat.ne_of_gt (hok.slot_var h₂).1)
      · simp only [Function.update_of_ne hc₁] at h₁
        simp only [hc₂, Function.update_self, Slot.ivar, Option.some.injEq] at h₂
        exact absurd h₂ (Nat.ne_of_gt (hok.slot_var h₁).1)
      · simp only [Function.update_of_ne hc₁] at h₁
        simp only [Function.update_of_ne hc₂] at h₂
        exact hok.slot_unique h₁ h₂
    · intro g hg
      obtain ⟨hvar, l, r, hl, hr, hcouple⟩ := hok.agreed_calls hg
      exact ⟨Nat.lt_succ_of_lt hvar, l, r, hext.lefts hl, hr, hcouple⟩
    · intro d' p' hvar
      exact (hok.var_belongs hvar).mono hext
  · rename_i call y hslot
    cases h
    obtain ⟨⟨info', hright⟩, hnoright⟩ := hok.slot_right hslot
    have hivar : (s.slot c).ivar = some d := by rw [hslot]; rfl
    obtain ⟨hd, hnovar⟩ := hok.slot_var hivar
    refine ⟨?_, ?_, ?_, ?_, ?_, ?_, ?_⟩
    · intro c' d' m' x' hleft
      have hc : c' ≠ c := by rintro rfl; simp at hleft
      simp only [Function.update_of_ne hc] at hleft
      obtain ⟨⟨info₁, hcall⟩, hnone⟩ := hok.slot_left hleft
      refine ⟨⟨info₁, hext.lefts hcall⟩, ?_⟩
      intro g hg
      rcases List.mem_cons.mp hg with rfl | hg
      · exact Nat.ne_of_gt (lt_of_getElem?_eq_some hcall)
      · exact hnone g hg
    · intro c' d' n' y' hright'
      have hc : c' ≠ c := by rintro rfl; simp at hright'
      simp only [Function.update_of_ne hc] at hright'
      obtain ⟨⟨info₁, hcall⟩, hnone⟩ := hok.slot_right hright'
      refine ⟨⟨info₁, hcall⟩, ?_⟩
      intro g hg
      rcases List.mem_cons.mp hg with rfl | hg
      · rintro rfl
        rw [hright] at hcall
        cases hcall
        exact hc rfl
      · exact hnone g hg
    · intro c' d' hvar
      have hc : c' ≠ c := by rintro rfl; simp [Slot.ivar] at hvar
      simp only [Function.update_of_ne hc] at hvar
      obtain ⟨hd', hnone⟩ := hok.slot_var hvar
      refine ⟨hd', ?_⟩
      intro g hg
      rcases List.mem_cons.mp hg with rfl | hg
      · rintro rfl
        exact hc (hok.slot_unique hvar hivar)
      · exact hnone g hg
    · intro c₁ c₂ d' h₁ h₂
      have hc₁ : c₁ ≠ c := by rintro rfl; simp [Slot.ivar] at h₁
      have hc₂ : c₂ ≠ c := by rintro rfl; simp [Slot.ivar] at h₂
      simp only [Function.update_of_ne hc₁] at h₁
      simp only [Function.update_of_ne hc₂] at h₂
      exact hok.slot_unique h₁ h₂
    · intro g hg
      rcases List.mem_cons.mp hg with rfl | hg
      · exact ⟨hd, ⟨c, x, info⟩, ⟨c, y, info'⟩, by simp, hright, rfl⟩
      · obtain ⟨hvar, l, r, hl, hr, hcouple⟩ := hok.agreed_calls hg
        exact ⟨hvar, l, r, hext.lefts hl, hr, hcouple⟩
    · intro g g' hg hg' hsame
      rcases List.mem_cons.mp hg with rfl | hg <;> rcases List.mem_cons.mp hg' with rfl | hg'
      · rfl
      · rcases hsame with heq | heq | heq
        · exact absurd heq.symm (hnovar g' hg')
        · exact absurd heq.symm (Nat.ne_of_lt (hlt g' hg'))
        · exact absurd heq.symm (hnoright g' hg')
      · rcases hsame with heq | heq | heq
        · exact absurd heq (hnovar g hg)
        · exact absurd heq (Nat.ne_of_lt (hlt g hg))
        · exact absurd heq (hnoright g hg)
      · exact hok.agreed_unique hg hg' hsame
    · intro d' p' hvar
      exact (hok.var_belongs hvar).mono hext

theorem initial_ok : (initial : Store X Y A B).Ok where
  slot_left h := by cases h
  slot_right h := by cases h
  slot_var h := by cases h
  slot_unique h := by cases h
  agreed_calls h := by cases h
  agreed_unique h := by cases h
  var_belongs h := by cases h

theorem set_extends (s : Store X Y A B) (d : Nat) (p : X × Y) : Extends s (s.set d p) := by
  unfold Store.set
  split
  · exact ⟨id, id, id, id, id⟩
  · exact Extends.refl s

theorem set_calls (s : Store X Y A B) (d : Nat) (p : X × Y) :
    (s.set d p).lefts = s.lefts ∧ (s.set d p).rights = s.rights := by
  unfold Store.set
  split <;> exact ⟨rfl, rfl⟩

theorem Ok.set (hok : s.Ok) (hp : s.Belongs d p) : (s.set d p).Ok := by
  unfold Store.set
  split
  · refine ⟨hok.slot_left, hok.slot_right, hok.slot_var, hok.slot_unique, hok.agreed_calls,
      hok.agreed_unique, ?_⟩
    intro d' p' hvar
    by_cases hd : d' = d
    · subst hd
      simp only [Function.update_self, Option.some.injEq] at hvar
      subst hvar
      exact hp
    · simp only [Function.update_of_ne hd] at hvar
      exact hok.var_belongs hvar
  · exact hok

theorem Ok.agreed_left (hok : s.Ok) {n n' : Nat} (h : s.Agreed m n) (h' : s.Agreed m n') :
    n = n' := by
  obtain ⟨d, h⟩ := h
  obtain ⟨d', h'⟩ := h'
  exact congrArg Agreement.right (hok.agreed_unique h h' (.inr (.inl rfl)))

/-- What a left call reads from its variable: its own value, and that of the right
call it was brought together with. -/
theorem Ok.left_get (hok : s.Ok) (hat : s.LeftAt d m) (hvar : s.var d = some p) :
    ∃ n l r, s.Agreed m n ∧ s.lefts[m]? = some l ∧ s.rights[n]? = some r ∧
      p = (l.value, r.value) := by
  obtain ⟨m', n', l, r, hg, hl, hr, hp⟩ := hok.var_belongs hvar
  rcases hat with ⟨c, x, hslot⟩ | ⟨n, hagreed⟩
  · exact absurd rfl ((hok.slot_var (by rw [hslot]; rfl)).2 _ hg)
  · cases hok.agreed_unique hagreed hg (.inl rfl)
    exact ⟨_, l, r, ⟨d, hagreed⟩, hl, hr, hp⟩

section Swap

/-- The couples with the sides exchanged. -/
def swap (s : Store X Y A B) : Store Y X B A where
  slot := Slot.swap ∘ s.slot
  var := Option.map Prod.swap ∘ s.var
  nextVar := s.nextVar
  lefts := s.rights
  rights := s.lefts
  agreed := s.agreed.map Agreement.swap

theorem slot_swap_swap (s : Store X Y A B) : Slot.swap ∘ Slot.swap ∘ s.slot = s.slot := by
  funext c
  cases hc : s.slot c <;> simp [hc, Slot.swap]

theorem var_swap_swap (s : Store X Y A B) :
    Option.map Prod.swap ∘ Option.map Prod.swap ∘ s.var = s.var := by
  funext d
  cases hd : s.var d <;> simp [hd]

theorem agreed_swap_swap (s : Store X Y A B) :
    s.agreed.map (Agreement.swap ∘ Agreement.swap) = s.agreed :=
  List.map_id s.agreed

theorem swap_swap (s : Store X Y A B) : s.swap.swap = s := by
  simp only [swap, List.map_map, slot_swap_swap, var_swap_swap, agreed_swap_swap]

theorem right_eq_swap (s : Store X Y A B) (c : Nat) (y : Y) (info : B) :
    s.right c y info = (s.swap.left c y info).map fun r =>
      (r.1.swap, r.2.1, r.2.2.map Prod.swap) := by
  have hc : s.swap.slot c = Slot.swap (s.slot c) := rfl
  unfold Store.right Store.left
  rw [hc]
  cases s.slot c <;>
    simp [Slot.swap, swap, Function.comp_update, slot_swap_swap, var_swap_swap,
      agreed_swap_swap, Agreement.swap]

theorem left_of_right {info : B} (h : s.right c y info = some (s', d, owed)) :
    s.swap.left c y info = some (s'.swap, d, owed.map Prod.swap) := by
  rw [right_eq_swap, Option.map_eq_some_iff] at h
  obtain ⟨⟨t, d', owed'⟩, hleft, heq⟩ := h
  cases heq
  rw [hleft, swap_swap]
  cases owed' <;> rfl

theorem mem_agreed_swap {g : Agreement} : g ∈ s.swap.agreed ↔ g.swap ∈ s.agreed := by
  constructor
  · intro h
    obtain ⟨g', hg', rfl⟩ := List.mem_map.mp h
    exact hg'
  · intro h
    exact List.mem_map.mpr ⟨g.swap, h, rfl⟩

theorem agreed_swap : s.swap.Agreed m n ↔ s.Agreed n m := by
  simp only [Agreed, mem_agreed_swap, Agreement.swap]

theorem slot_swap_eq {slot : Slot Y X} : s.swap.slot c = slot ↔ s.slot c = slot.swap := by
  simp only [swap, Function.comp_apply]
  cases s.slot c <;> cases slot <;> simp [Slot.swap]

theorem leftAt_swap : s.swap.LeftAt d n ↔ s.RightAt d n := by
  simp only [LeftAt, RightAt, slot_swap_eq, mem_agreed_swap, Agreement.swap, Slot.swap]

theorem rightAt_swap : s.swap.RightAt d m ↔ s.LeftAt d m := by
  rw [← leftAt_swap, swap_swap]

theorem Belongs.swap (h : s.Belongs d p) : s.swap.Belongs d p.swap := by
  obtain ⟨m, n, l, r, hg, hl, hr, rfl⟩ := h
  exact ⟨n, m, r, l, mem_agreed_swap.mpr hg, hr, hl, rfl⟩

theorem ivar_swap (slot : Slot X Y) : slot.swap.ivar = slot.ivar := by
  cases slot <;> rfl

theorem Ok.swap (hok : s.Ok) : s.swap.Ok where
  slot_left hslot := by
    obtain ⟨hcall, hnone⟩ := hok.slot_right (slot_swap_eq.mp hslot)
    exact ⟨hcall, fun g hg => hnone g.swap (mem_agreed_swap.mp hg)⟩
  slot_right hslot := by
    obtain ⟨hcall, hnone⟩ := hok.slot_left (slot_swap_eq.mp hslot)
    exact ⟨hcall, fun g hg => hnone g.swap (mem_agreed_swap.mp hg)⟩
  slot_var hvar := by
    obtain ⟨hd, hnone⟩ := hok.slot_var ((ivar_swap _).symm.trans hvar)
    exact ⟨hd, fun g hg => hnone g.swap (mem_agreed_swap.mp hg)⟩
  slot_unique h h' := hok.slot_unique ((ivar_swap _).symm.trans h) ((ivar_swap _).symm.trans h')
  agreed_calls hg := by
    obtain ⟨hvar, l, r, hl, hr, hcouple⟩ := hok.agreed_calls (mem_agreed_swap.mp hg)
    exact ⟨hvar, r, l, hr, hl, hcouple.symm⟩
  agreed_unique hg hg' hsame := by
    have heq := hok.agreed_unique (mem_agreed_swap.mp hg) (mem_agreed_swap.mp hg')
      (hsame.imp_right Or.symm)
    exact congrArg Agreement.swap heq
  var_belongs hvar := by
    simp only [Store.swap, Function.comp_apply, Option.map_eq_some_iff] at hvar
    obtain ⟨p, hvar, rfl⟩ := hvar
    exact (hok.var_belongs hvar).swap

theorem Extends.of_swap (h : Extends s.swap s'.swap) : Extends s s' where
  lefts := h.rights
  rights := h.lefts
  agreed hg := by
    have hmem := h.agreed (g := Agreement.swap _) (mem_agreed_swap.mpr hg)
    exact mem_agreed_swap.mp hmem
  leftAt hat := rightAt_swap.mp (h.rightAt (rightAt_swap.mpr hat))
  rightAt hat := leftAt_swap.mp (h.leftAt (leftAt_swap.mpr hat))

variable {infoR : B}

theorem right_extends (h : s.right c y infoR = some (s', d, owed)) : Extends s s' :=
  Extends.of_swap (left_extends (left_of_right h))

theorem right_calls (h : s.right c y infoR = some (s', d, owed)) :
    s'.rights = s.rights ++ [⟨c, y, infoR⟩] ∧ s'.lefts = s.lefts := by
  obtain ⟨hrights, hlefts, -⟩ := left_calls (left_of_right h)
  exact ⟨hrights, hlefts⟩

theorem right_at (h : s.right c y infoR = some (s', d, owed)) :
    s'.RightAt d s.rights.length :=
  leftAt_swap.mp (left_at (left_of_right h))

theorem Ok.right (hok : s.Ok) (h : s.right c y infoR = some (s', d, owed)) : s'.Ok := by
  have hok' := (hok.swap.left (left_of_right h)).swap
  rwa [swap_swap] at hok'

theorem Ok.right_belongs (hok : s.Ok) (h : s.right c y infoR = some (s', d, some p)) :
    s'.Belongs d p := by
  have hbelongs := (hok.swap.left_belongs (left_of_right h)).swap
  rwa [swap_swap, Prod.swap_swap] at hbelongs

theorem Ok.right_get (hok : s.Ok) (hat : s.RightAt d n) (hvar : s.var d = some p) :
    ∃ m l r, s.Agreed m n ∧ s.lefts[m]? = some l ∧ s.rights[n]? = some r ∧
      p = (l.value, r.value) := by
  have hvar' : s.swap.var d = some p.swap := by
    simp [Store.swap, hvar]
  obtain ⟨m, l, r, hagreed, hl, hr, hp⟩ := hok.swap.left_get (leftAt_swap.mpr hat) hvar'
  exact ⟨m, r, l, agreed_swap.mp hagreed, hr, hl, by rw [← Prod.swap_swap p, hp]; rfl⟩

end Swap

end Store

end SmlSharp.Couple
