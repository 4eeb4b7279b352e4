/-
The classes of type names that a run over sharing lists builds.
-/
import SmlSharp.NameEvaluation.Redirect

namespace SmlSharp.NameEvaluation

def tfvsOf (list : List PathTfv) : List Tfv := list.map Prod.snd

def pathsOf (list : List PathTfv) : List Longsymbol := list.map Prod.fst

theorem pairsOf_tfv {list : List PathTfv} {t : Tfv} (ht : t ∈ tfvsOf list) :
    ∃ path, (path, t) ∈ list := by
  obtain ⟨⟨path, t⟩, hmem, rfl⟩ := List.mem_map.1 ht
  exact ⟨path, hmem⟩

/-- The path names the type whose realisations end at the type name. -/
def PathDenotes (heap : Heap) (specEnv : Env) (path : Longsymbol) (root : Tfv) : Prop :=
  ∃ tstr tfv, findTstr specEnv path = .ok (some tstr) ∧ tstr.tfun = .tfunVar tfv ∧
    Denotes heap tfv root

/-- The type is specified as an eqtype. -/
def SpecifiedEq (tfunkind : Tfunkind) : Prop :=
  ∃ id formals, tfunkind = .tfvSpec id true formals

def AdmitsEq (tfunkind : Tfunkind) : Prop :=
  ∃ v, tfunkind.typeVariable = some v ∧ v.admitsEq = true

theorem SpecifiedEq.admitsEq {tfunkind : Tfunkind} (h : SpecifiedEq tfunkind) :
    AdmitsEq tfunkind := by
  obtain ⟨id, formals, rfl⟩ := h
  exact ⟨_, rfl, rfl⟩

/-- Connected by a chain of the path lists and of earlier sharing. -/
def PathChain (start : Heap) (specEnv : Env) (lists : List (List PathTfv)) :
    Longsymbol → Longsymbol → Prop :=
  Relation.EqvGen fun p q =>
    (∃ list ∈ lists, p ∈ pathsOf list ∧ q ∈ pathsOf list) ∨
      ∃ t, PathDenotes start specEnv p t ∧ PathDenotes start specEnv q t

/-- Connected by a chain of the resolved lists. -/
def Chain (lists : List (List PathTfv)) : Tfv → Tfv → Prop :=
  Relation.EqvGen fun t u => ∃ list ∈ lists, t ∈ tfvsOf list ∧ u ∈ tfvsOf list

theorem Chain.append {lists : List (List PathTfv)} {t u : Tfv} (h : Chain lists t u)
    (more : List (List PathTfv)) : Chain (lists ++ more) t u :=
  h.mono fun _ _ ⟨list, hmem, ht, hu⟩ => ⟨list, List.mem_append_left _ hmem, ht, hu⟩

theorem Chain.of_mem {lists : List (List PathTfv)} {list : List PathTfv}
    (hlist : list ∈ lists) {t u : Tfv} (ht : t ∈ tfvsOf list) (hu : u ∈ tfvsOf list) :
    Chain lists t u :=
  .rel _ _ ⟨list, hlist, ht, hu⟩

theorem Chain.eq_or_mem {lists : List (List PathTfv)} {t u : Tfv} (h : Chain lists t u) :
    t = u ∨ (∃ list ∈ lists, t ∈ tfvsOf list) ∧ ∃ list ∈ lists, u ∈ tfvsOf list := by
  induction h with
  | rel t u h =>
    obtain ⟨list, hmem, ht, hu⟩ := h
    exact Or.inr ⟨⟨list, hmem, ht⟩, list, hmem, hu⟩
  | refl t => exact Or.inl rfl
  | symm t u _ ih =>
    rcases ih with rfl | ⟨ht, hu⟩
    · exact Or.inl rfl
    · exact Or.inr ⟨hu, ht⟩
  | trans t u w _ _ ih ih' =>
    rcases ih with rfl | ⟨ht, hu⟩
    · exact ih'
    · rcases ih' with rfl | ⟨_, hw⟩
      · exact Or.inr ⟨ht, hu⟩
      · exact Or.inr ⟨ht, hw⟩

theorem PathDenotes.unique {heap : Heap} {specEnv : Env} {path : Longsymbol} {r s : Tfv}
    (hr : PathDenotes heap specEnv path r) (hs : PathDenotes heap specEnv path s) : r = s := by
  obtain ⟨tstr, tfv, hfind, htfun, hr⟩ := hr
  obtain ⟨tstr', tfv', hfind', htfun', hs⟩ := hs
  rw [hfind] at hfind'
  cases hfind'
  rw [htfun] at htfun'
  cases htfun'
  exact hr.unique hs

/-- Every entry of the lists is a path with the type name it denoted at the
start. -/
def Resolved (start : Heap) (specEnv : Env) (lists : List (List PathTfv)) : Prop :=
  ∀ list ∈ lists, ∀ entry ∈ list, PathDenotes start specEnv entry.1 entry.2

theorem Resolved.mono {start : Heap} {specEnv : Env} {lists lists' : List (List PathTfv)}
    (h : Resolved start specEnv lists) (hsub : ∀ list ∈ lists', list ∈ lists) :
    Resolved start specEnv lists' :=
  fun list hlist => h list (hsub list hlist)

section Chains

variable {start : Heap} {specEnv : Env} {lists : List (List PathTfv)}

theorem Chain.pathChain (hresolved : Resolved start specEnv lists) {t u : Tfv}
    (h : Chain lists t u) {p q : Longsymbol} (hp : PathDenotes start specEnv p t)
    (hq : PathDenotes start specEnv q u) : PathChain start specEnv lists p q := by
  induction h generalizing p q with
  | rel t u h =>
    obtain ⟨list, hlist, ht, hu⟩ := h
    obtain ⟨p', hp'⟩ := pairsOf_tfv ht
    obtain ⟨q', hq'⟩ := pairsOf_tfv hu
    have hfirst : PathChain start specEnv lists p p' :=
      .rel _ _ (Or.inr ⟨t, hp, hresolved list hlist _ hp'⟩)
    have hmiddle : PathChain start specEnv lists p' q' :=
      .rel _ _ (Or.inl ⟨list, hlist, List.mem_map_of_mem hp', List.mem_map_of_mem hq'⟩)
    have hlast : PathChain start specEnv lists q' q :=
      .rel _ _ (Or.inr ⟨u, hresolved list hlist _ hq', hq⟩)
    exact hfirst.trans _ _ _ (hmiddle.trans _ _ _ hlast)
  | refl t => exact .rel _ _ (Or.inr ⟨t, hp, hq⟩)
  | symm t u _ ih => exact .symm _ _ (ih hq hp)
  | trans t u w htu huw ih ih' =>
    rcases Chain.eq_or_mem htu with rfl | ⟨_, list, hlist, hu⟩
    · exact ih' hp hq
    · obtain ⟨path, hpath⟩ := pairsOf_tfv hu
      have hdenotes := hresolved list hlist _ hpath
      exact (ih hp hdenotes).trans _ _ _ (ih' hdenotes hq)

theorem PathChain.chain (hresolved : Resolved start specEnv lists) {p q : Longsymbol}
    (h : PathChain start specEnv lists p q) :
    p = q ∨ ∃ t u, PathDenotes start specEnv p t ∧ PathDenotes start specEnv q u ∧
      Chain lists t u := by
  induction h with
  | rel p q h =>
    rcases h with ⟨list, hlist, hp, hq⟩ | ⟨t, hp, hq⟩
    · obtain ⟨⟨_, t⟩, ht, rfl⟩ := List.mem_map.1 hp
      obtain ⟨⟨_, u⟩, hu, rfl⟩ := List.mem_map.1 hq
      exact Or.inr ⟨t, u, hresolved list hlist _ ht, hresolved list hlist _ hu,
        Chain.of_mem hlist (List.mem_map_of_mem ht) (List.mem_map_of_mem hu)⟩
    · exact Or.inr ⟨t, t, hp, hq, .refl t⟩
  | refl p => exact Or.inl rfl
  | symm p q _ ih =>
    rcases ih with rfl | ⟨t, u, ht, hu, h⟩
    · exact Or.inl rfl
    · exact Or.inr ⟨u, t, hu, ht, h.symm⟩
  | trans p q w _ _ ih ih' =>
    rcases ih with rfl | ⟨t, u, ht, hu, h⟩
    · exact ih'
    · rcases ih' with rfl | ⟨u', x, hu', hx, h'⟩
      · exact Or.inr ⟨t, u, ht, hu, h⟩
      · have heq := hu.unique hu'
        subst heq
        exact Or.inr ⟨t, x, ht, hx, h.trans _ _ _ h'⟩

theorem pathChain_iff (hresolved : Resolved start specEnv lists) {p q : Longsymbol}
    {t u : Tfv} (hp : PathDenotes start specEnv p t) (hq : PathDenotes start specEnv q u) :
    PathChain start specEnv lists p q ↔ Chain lists t u := by
  constructor
  · intro h
    rcases h.chain hresolved with rfl | ⟨t', u', ht', hu', h⟩
    · rw [hp.unique hq]
      exact .refl u
    · rwa [hp.unique ht', hq.unique hu']
  · intro h
    exact h.pathChain hresolved hp hq

end Chains

end SmlSharp.NameEvaluation
