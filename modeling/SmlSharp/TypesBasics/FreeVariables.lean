/-
The free type variables of a type, those in the kinds of its variables included,
and what the traversal collects.
-/
import Mathlib.Data.List.Nodup
import Mathlib.Logic.Relation
import SmlSharp.TypesBasics.Eftv

namespace SmlSharp

namespace TypesBasics

/-! ### The parts of a type -/

inductive OverloadMatch.HasTy : OverloadMatch → Ty → Prop
  | exvar {info : String} {instTyList : List Ty} {ty : Ty} :
      ty ∈ instTyList → HasTy (.overloadExvar info (some instTyList)) ty
  | prim {info : String} {instTyList : List Ty} {ty : Ty} :
      ty ∈ instTyList → HasTy (.overloadPrim info (some instTyList)) ty
  | caseTy {ty : Ty} {rules : List (Nat × OverloadMatch)} :
      HasTy (.overloadCase ty rules) ty
  | caseRule {ty ty' : Ty} {rules : List (Nat × OverloadMatch)} {rule : Nat × OverloadMatch} :
      rule ∈ rules → HasTy rule.2 ty → HasTy (.overloadCase ty' rules) ty

def OprimSelector.overload : OprimSelector → OverloadMatch
  | .selector _ _ overload => overload

/-- The types that a kind mentions; the types of an overloaded constant's kind do
not count. -/
inductive TvarKind.HasTy : TvarKind → Ty → Prop
  | record {fields : List (String × Ty)} {field : String × Ty} :
      field ∈ fields → HasTy (.record fields) field.2
  | inst {instances : List Ty} {operators : List OprimSelector} {ty : Ty} :
      ty ∈ instances → HasTy (.oprimKind instances operators) ty
  | operator {instances : List Ty} {operators : List OprimSelector}
      {operator : OprimSelector} {ty : Ty} :
      operator ∈ operators → operator.overload.HasTy ty →
        HasTy (.oprimKind instances operators) ty

def Kind.HasTy (kind : Kind) (ty : Ty) : Prop := kind.tvarKind.HasTy ty

inductive Ty.HasPart : Ty → Ty → Prop
  | dummy {id : Nat} {kind : Kind} {part : Ty} :
      kind.HasTy part → HasPart (.dummyTy id kind) part
  | exist {id : Nat} {kind : Kind} {part : Ty} :
      kind.HasTy part → HasPart (.existTy id kind) part
  | arg {tyList : List Ty} {ty arg : Ty} : arg ∈ tyList → HasPart (.funmTy tyList ty) arg
  | result {tyList : List Ty} {ty : Ty} : HasPart (.funmTy tyList ty) ty
  | field {fields : List (String × Ty)} {field : String × Ty} :
      field ∈ fields → HasPart (.recordTy fields) field.2
  | constructArg {tyCon : TyCon} {args : List Ty} {arg : Ty} :
      arg ∈ args → HasPart (.constructTy tyCon args) arg
  | boundtvar {boundtvars : List (Nat × Kind)} {constraints : List Constraint}
      {body part : Ty} {boundtvar : Nat × Kind} :
      boundtvar ∈ boundtvars → boundtvar.2.HasTy part →
        HasPart (.polyTy boundtvars constraints body) part
  | body {boundtvars : List (Nat × Kind)} {constraints : List Constraint} {body : Ty} :
      HasPart (.polyTy boundtvars constraints body) body

def Kind.IsOconst (kind : Kind) : Prop := ∃ tyList, kind.tvarKind = .oconstKind tyList

/-! ### Free variables -/

section Free

variable (store : Store)

/-- The variable is in the type itself, with links followed. -/
inductive Occurs : Ty → Nat → Prop
  | var {r : Nat} {tvKind : TvKind} :
      store.get r = .tvar tvKind → ¬ tvKind.kind.IsOconst → Occurs (.tyvarTy r) r
  | link {r v : Nat} {ty : Ty} :
      store.get r = .substituted ty → Occurs ty v → Occurs (.tyvarTy r) v
  | part {ty part : Ty} {v : Nat} : ty.HasPart part → Occurs part v → Occurs ty v

/-- The kind of the first variable mentions the second one. -/
def InKind (v u : Nat) : Prop :=
  ∃ tvKind, store.get v = .tvar tvKind ∧ ∃ ty, tvKind.kind.HasTy ty ∧ Occurs store ty u

/-- The variable is in the type, in the kind of one of its variables, and so on. -/
def Free (ty : Ty) (v : Nat) : Prop :=
  ∃ u, Occurs store ty u ∧ Relation.ReflTransGen (InKind store) u v

inductive Constraint.Free : Constraint → Nat → Prop
  | res {res arg1 arg2 : Ty} {loc v : Nat} :
      TypesBasics.Free store res v → Free (.join res arg1 arg2 loc) v
  | arg1 {res arg1 arg2 : Ty} {loc v : Nat} :
      TypesBasics.Free store arg1 v → Free (.join res arg1 arg2 loc) v
  | arg2 {res arg1 arg2 : Ty} {loc v : Nat} :
      TypesBasics.Free store arg2 v → Free (.join res arg1 arg2 loc) v

/-- The free variables of a type under constraints: with one variable of a
constraint come all of them. -/
inductive FreeUnder (ty : Ty) (constraints : List Constraint) : Nat → Prop
  | ofTy {v : Nat} : Free store ty v → FreeUnder ty constraints v
  | ofConstraint {c : Constraint} {u v : Nat} :
      c ∈ constraints → c.Free store u → FreeUnder ty constraints u → c.Free store v →
        FreeUnder ty constraints v

end Free

variable {store : Store}

theorem Free.inKind {ty : Ty} {v u : Nat} (h : Free store ty v) (hkind : InKind store v u) :
    Free store ty u := by
  obtain ⟨w, hw, hreach⟩ := h
  exact ⟨w, hw, hreach.tail hkind⟩

theorem Occurs.tvar {ty : Ty} {v : Nat} (h : Occurs store ty v) :
    ∃ tvKind, store.get v = .tvar tvKind ∧ ¬ tvKind.kind.IsOconst := by
  induction h with
  | var hget hkind => exact ⟨_, hget, hkind⟩
  | link _ _ ih => exact ih
  | part _ _ ih => exact ih

theorem Free.tvar {ty : Ty} {v : Nat} (h : Free store ty v) :
    ∃ tvKind, store.get v = .tvar tvKind ∧ ¬ tvKind.kind.IsOconst := by
  obtain ⟨u, hu, hreach⟩ := h
  cases hreach with
  | refl => exact hu.tvar
  | tail _ hkind =>
    obtain ⟨tvKind, -, ty', -, hocc⟩ := hkind
    exact hocc.tvar

theorem FreeUnder.tvar {ty : Ty} {constraints : List Constraint} {v : Nat}
    (h : FreeUnder store ty constraints v) :
    ∃ tvKind, store.get v = .tvar tvKind ∧ ¬ tvKind.kind.IsOconst := by
  cases h with
  | ofTy hfree => exact hfree.tvar
  | ofConstraint _ _ _ hfree =>
    cases hfree with
    | res hfree => exact hfree.tvar
    | arg1 hfree => exact hfree.tvar
    | arg2 hfree => exact hfree.tvar

theorem occurs_tyvarTy_tvar {r : Nat} {tvKind : TvKind} (hget : store.get r = .tvar tvKind)
    (hkind : ¬ tvKind.kind.IsOconst) (v : Nat) :
    Occurs store (.tyvarTy r) v ↔ v = r := by
  constructor
  · intro h
    cases h with
    | var => rfl
    | link hget' => simp [hget] at hget'
    | part hpart => nomatch hpart
  · rintro rfl
    exact Occurs.var hget hkind

theorem occurs_tyvarTy_oconst {r : Nat} {tvKind : TvKind} (hget : store.get r = .tvar tvKind)
    (hkind : tvKind.kind.IsOconst) (v : Nat) : ¬ Occurs store (.tyvarTy r) v := by
  intro h
  cases h with
  | var hget' hkind' =>
    rw [hget] at hget'
    cases hget'
    exact hkind' hkind
  | link hget' => simp [hget] at hget'
  | part hpart => nomatch hpart

theorem occurs_tyvarTy_link {r : Nat} {ty : Ty} (hget : store.get r = .substituted ty)
    (v : Nat) : Occurs store (.tyvarTy r) v ↔ Occurs store ty v := by
  constructor
  · intro h
    cases h with
    | var hget' => simp [hget] at hget'
    | link hget' hocc =>
      rw [hget] at hget'
      cases hget'
      exact hocc
    | part hpart => nomatch hpart
  · exact Occurs.link hget

/-- What is not a variable has the variables of its parts. -/
theorem occurs_parts {ty : Ty} (hty : ∀ r, ty ≠ .tyvarTy r) (v : Nat) :
    Occurs store ty v ↔ ∃ part, ty.HasPart part ∧ Occurs store part v := by
  constructor
  · intro h
    cases h with
    | var => exact absurd rfl (hty _)
    | link => exact absurd rfl (hty _)
    | part hpart hocc => exact ⟨_, hpart, hocc⟩
  · rintro ⟨part, hpart, hocc⟩
    exact Occurs.part hpart hocc

/-! ### What a traversal adds -/

/-- The variables `direct` are collected, with those in the kinds of what is new,
and nothing else is. -/
structure Visits (store : Store) (direct : Nat → Prop) (env env' : Tvset) : Prop where
  grows : env ⊆ env'
  nodup : env.Nodup → env'.Nodup
  sound : ∀ v ∈ env',
    v ∈ env ∨ ∃ u, direct u ∧ Relation.ReflTransGen (InKind store) u v
  direct : ∀ v, direct v → v ∈ env'
  closed : ∀ v ∈ env', v ∉ env → ∀ u, InKind store v u → u ∈ env'

namespace Visits

variable {direct direct' : Nat → Prop} {env env' env'' : Tvset}

theorem refl (hdirect : ∀ v, direct v → v ∈ env) : Visits store direct env env where
  grows := List.Subset.refl env
  nodup hnodup := hnodup
  sound _ hv := Or.inl hv
  direct := hdirect
  closed _ hv hnot := absurd hv hnot

theorem congr (h : Visits store direct env env') (hiff : ∀ v, direct' v ↔ direct v) :
    Visits store direct' env env' := by
  have heq : direct' = direct := funext fun v => propext (hiff v)
  rw [heq]
  exact h

theorem trans (h : Visits store direct env env') (h' : Visits store direct' env' env'') :
    Visits store (fun v => direct v ∨ direct' v) env env'' where
  grows := List.Subset.trans h.grows h'.grows
  nodup hnodup := h'.nodup (h.nodup hnodup)
  sound v hv := by
    rcases h'.sound v hv with hv | ⟨u, hu, hreach⟩
    · rcases h.sound v hv with hv | ⟨u, hu, hreach⟩
      · exact Or.inl hv
      · exact Or.inr ⟨u, Or.inl hu, hreach⟩
    · exact Or.inr ⟨u, Or.inr hu, hreach⟩
  direct v hv := by
    rcases hv with hv | hv
    · exact h'.grows (h.direct v hv)
    · exact h'.direct v hv
  closed v hv hnot u hu := by
    by_cases hold : v ∈ env'
    · exact h'.grows (h.closed v hold hnot u hu)
    · exact h'.closed v hv hold u hu

/-- A new variable is added and its kind traversed. -/
theorem visit {r : Nat} {tvKind : TvKind} (hget : store.get r = .tvar tvKind)
    (hnew : r ∉ env)
    (h : Visits store (fun v => ∃ ty, tvKind.kind.HasTy ty ∧ Occurs store ty v)
      (env ++ [r]) env') : Visits store (· = r) env env' where
  grows v hv := h.grows (List.mem_append_left [r] hv)
  nodup hnodup := by
    apply h.nodup
    rw [List.nodup_append]
    exact ⟨hnodup, List.nodup_singleton r, fun a ha b hb => by
      rw [List.mem_singleton.mp hb]
      rintro rfl
      exact hnew ha⟩
  sound v hv := by
    rcases h.sound v hv with hv | ⟨u, hu, hreach⟩
    · rcases List.mem_append.mp hv with hv | hv
      · exact Or.inl hv
      · exact Or.inr ⟨r, rfl, by rw [List.mem_singleton.mp hv]⟩
    · exact Or.inr ⟨r, rfl, Relation.ReflTransGen.head ⟨tvKind, hget, hu⟩ hreach⟩
  direct v hv := by
    rw [hv]
    exact h.grows (List.mem_append_right env List.mem_cons_self)
  closed v hv hnot u hu := by
    by_cases heq : v = r
    · obtain ⟨tvKind', hget', hty⟩ := hu
      rw [heq, hget] at hget'
      cases hget'
      exact h.direct u hty
    · apply h.closed v hv _ u hu
      simpa [hnot] using heq

theorem foldlM {α : Type} {f : Tvset → α → Except Exn Tvset} {direct : α → Nat → Prop}
    {xs : List α}
    (hf : ∀ x ∈ xs, ∀ env env', f env x = .ok env' → Visits store (direct x) env env')
    {env env' : Tvset} (h : xs.foldlM f env = .ok env') :
    Visits store (fun v => ∃ x ∈ xs, direct x v) env env' := by
  induction xs generalizing env with
  | nil =>
    cases h
    exact refl fun v hv => by simp at hv
  | cons x xs ih =>
    rw [List.foldlM_cons, except_bind_ok] at h
    obtain ⟨env₁, hx, hxs⟩ := h
    have hrest := ih (fun y hy => hf y (List.mem_cons_of_mem x hy)) hxs
    refine ((hf x List.mem_cons_self env env₁ hx).trans hrest).congr fun v => ?_
    simp

end Visits

/-! ### The traversal -/

/-- The traversals with `n` units of fuel collect what they should. -/
structure Traverses (store : Store) (n : Nat) : Prop where
  ty : ∀ ty env env', traverseTy store n ty env = .ok env' →
    Visits store (Occurs store ty) env env'
  kind : ∀ kind env env', traverseKind store n kind env = .ok env' →
    Visits store (fun v => ∃ ty, kind.HasTy ty ∧ Occurs store ty v) env env'
  selector : ∀ selector env env', traverseOprimSelector store n selector env = .ok env' →
    Visits store (fun v => ∃ ty, selector.overload.HasTy ty ∧ Occurs store ty v) env env'
  overload : ∀ overload env env', traverseOverloadMatch store n overload env = .ok env' →
    Visits store (fun v => ∃ ty, overload.HasTy ty ∧ Occurs store ty v) env env'

namespace Traverses

variable {n : Nat} {env env' : Tvset}

theorem zero : Traverses store 0 where
  ty _ _ _ h := nomatch h
  kind _ _ _ h := nomatch h
  selector _ _ _ h := nomatch h
  overload _ _ _ h := nomatch h

theorem tyList (ih : Traverses store n) {tyList : List Ty}
    (h : tyList.foldlM (fun env ty => traverseTy store n ty env) env = .ok env') :
    Visits store (fun v => ∃ ty ∈ tyList, Occurs store ty v) env env' :=
  Visits.foldlM (fun ty _ env env' => ih.ty ty env env') h

theorem fields (ih : Traverses store n) {fields : List (String × Ty)}
    (h : fields.foldlM (fun env field => traverseTy store n field.2 env) env = .ok env') :
    Visits store (fun v => ∃ field ∈ fields, Occurs store field.2 v) env env' :=
  Visits.foldlM (fun field _ env env' => ih.ty field.2 env env') h

theorem succ_ty (ih : Traverses store n) (ty : Ty)
    (h : traverseTy store (n + 1) ty env = .ok env') :
    Visits store (Occurs store ty) env env' := by
  cases ty with
  | singletonTy sty => nomatch h
  | backendTy => nomatch h
  | errorTy =>
    cases h
    refine Visits.refl fun v hv => ?_
    rw [occurs_parts (by simp)] at hv
    obtain ⟨part, hpart, -⟩ := hv
    nomatch hpart
  | dummyTy id kind =>
    refine (ih.kind kind env env' h).congr fun v => ?_
    rw [occurs_parts (by simp)]
    constructor
    · rintro ⟨part, hpart, hocc⟩
      cases hpart with
      | dummy hpart => exact ⟨part, hpart, hocc⟩
    · rintro ⟨part, hpart, hocc⟩
      exact ⟨part, .dummy hpart, hocc⟩
  | existTy id kind =>
    refine (ih.kind kind env env' h).congr fun v => ?_
    rw [occurs_parts (by simp)]
    constructor
    · rintro ⟨part, hpart, hocc⟩
      cases hpart with
      | exist hpart => exact ⟨part, hpart, hocc⟩
    · rintro ⟨part, hpart, hocc⟩
      exact ⟨part, .exist hpart, hocc⟩
  | tyvarTy r =>
    unfold traverseTy at h
    dsimp only at h
    split at h
    · next ty hget =>
        exact (ih.ty ty env env' h).congr (occurs_tyvarTy_link hget)
    · next tvKind hget =>
        split at h
        · next tyList hkind =>
            cases h
            exact Visits.refl fun v hv =>
              absurd hv (occurs_tyvarTy_oconst hget ⟨tyList, hkind⟩ v)
        · next hkind =>
            have hvar := occurs_tyvarTy_tvar hget fun ⟨tyList, heq⟩ => hkind tyList heq
            split at h
            · next hmem =>
                cases h
                exact Visits.refl fun v hv => by rwa [(hvar v).mp hv]
            · next hnew =>
                exact (Visits.visit hget hnew (ih.kind _ _ _ h)).congr hvar
  | boundvarTy id =>
    cases h
    refine Visits.refl fun v hv => ?_
    rw [occurs_parts (by simp)] at hv
    obtain ⟨part, hpart, -⟩ := hv
    nomatch hpart
  | funmTy tyList ty =>
    obtain ⟨env₁, hargs, hty⟩ := except_bind_ok.mp h
    refine ((ih.tyList hargs).trans (ih.ty ty env₁ env' hty)).congr fun v => ?_
    rw [occurs_parts (by simp)]
    constructor
    · rintro ⟨part, hpart, hocc⟩
      cases hpart with
      | arg hmem => exact Or.inl ⟨part, hmem, hocc⟩
      | result => exact Or.inr hocc
    · rintro (⟨part, hmem, hocc⟩ | hocc)
      · exact ⟨part, .arg hmem, hocc⟩
      · exact ⟨ty, .result, hocc⟩
  | recordTy fields =>
    refine (ih.fields h).congr fun v => ?_
    rw [occurs_parts (by simp)]
    constructor
    · rintro ⟨part, hpart, hocc⟩
      cases hpart with
      | field hmem => exact ⟨_, hmem, hocc⟩
    · rintro ⟨field, hmem, hocc⟩
      exact ⟨field.2, .field hmem, hocc⟩
  | constructTy tyCon args =>
    refine (ih.tyList h).congr fun v => ?_
    rw [occurs_parts (by simp)]
    constructor
    · rintro ⟨part, hpart, hocc⟩
      cases hpart with
      | constructArg hmem => exact ⟨part, hmem, hocc⟩
    · rintro ⟨part, hmem, hocc⟩
      exact ⟨part, .constructArg hmem, hocc⟩
  | polyTy boundtvars constraints body =>
    obtain ⟨env₁, hkinds, hty⟩ := except_bind_ok.mp h
    have hvisits := Visits.foldlM (fun boundtvar _ env env' => ih.kind boundtvar.2 env env') hkinds
    refine (hvisits.trans (ih.ty body env₁ env' hty)).congr fun v => ?_
    rw [occurs_parts (by simp)]
    constructor
    · rintro ⟨part, hpart, hocc⟩
      cases hpart with
      | boundtvar hmem hpart => exact Or.inl ⟨_, hmem, part, hpart, hocc⟩
      | body => exact Or.inr hocc
    · rintro (⟨boundtvar, hmem, part, hpart, hocc⟩ | hocc)
      · exact ⟨part, .boundtvar hmem hpart, hocc⟩
      · exact ⟨body, .body, hocc⟩

theorem succ_kind (ih : Traverses store n) (kind : Kind)
    (h : traverseKind store (n + 1) kind env = .ok env') :
    Visits store (fun v => ∃ ty, kind.HasTy ty ∧ Occurs store ty v) env env' := by
  unfold traverseKind at h
  unfold Kind.HasTy
  split at h
  · next hkind =>
      cases h
      rw [hkind]
      exact Visits.refl fun v ⟨ty, hty, _⟩ => nomatch hty
  · next fields hkind =>
      rw [hkind]
      refine (ih.fields h).congr fun v => ?_
      constructor
      · rintro ⟨ty, hty, hocc⟩
        cases hty with
        | record hmem => exact ⟨_, hmem, hocc⟩
      · rintro ⟨field, hmem, hocc⟩
        exact ⟨field.2, .record hmem, hocc⟩
  · nomatch h
  · next instances operators hkind =>
      rw [hkind]
      obtain ⟨env₁, hinstances, hoperators⟩ := except_bind_ok.mp h
      have hvisits := Visits.foldlM (fun operator _ env env' => ih.selector operator env env')
        hoperators
      refine ((ih.tyList hinstances).trans hvisits).congr fun v => ?_
      constructor
      · rintro ⟨ty, hty, hocc⟩
        cases hty with
        | inst hmem => exact Or.inl ⟨ty, hmem, hocc⟩
        | operator hmem hty => exact Or.inr ⟨_, hmem, ty, hty, hocc⟩
      · rintro (⟨ty, hmem, hocc⟩ | ⟨operator, hmem, ty, hty, hocc⟩)
        · exact ⟨ty, .inst hmem, hocc⟩
        · exact ⟨ty, .operator hmem hty, hocc⟩

theorem succ_overload (ih : Traverses store n) (overload : OverloadMatch)
    (h : traverseOverloadMatch store (n + 1) overload env = .ok env') :
    Visits store (fun v => ∃ ty, overload.HasTy ty ∧ Occurs store ty v) env env' := by
  cases overload with
  | overloadExvar info instTyList =>
    cases instTyList with
    | none =>
      cases h
      exact Visits.refl fun v ⟨ty, hty, _⟩ => nomatch hty
    | some instTyList =>
      refine (ih.tyList h).congr fun v => ?_
      constructor
      · rintro ⟨ty, hty, hocc⟩
        cases hty with
        | exvar hmem => exact ⟨ty, hmem, hocc⟩
      · rintro ⟨ty, hmem, hocc⟩
        exact ⟨ty, .exvar hmem, hocc⟩
  | overloadPrim info instTyList =>
    cases instTyList with
    | none =>
      cases h
      exact Visits.refl fun v ⟨ty, hty, _⟩ => nomatch hty
    | some instTyList =>
      refine (ih.tyList h).congr fun v => ?_
      constructor
      · rintro ⟨ty, hty, hocc⟩
        cases hty with
        | prim hmem => exact ⟨ty, hmem, hocc⟩
      · rintro ⟨ty, hmem, hocc⟩
        exact ⟨ty, .prim hmem, hocc⟩
  | overloadCase ty rules =>
    obtain ⟨env₁, hty, hrules⟩ := except_bind_ok.mp h
    have hvisits := Visits.foldlM (fun rule _ env env' => ih.overload rule.2 env env') hrules
    refine ((ih.ty ty env env₁ hty).trans hvisits).congr fun v => ?_
    constructor
    · rintro ⟨part, hpart, hocc⟩
      cases hpart with
      | caseTy => exact Or.inl hocc
      | caseRule hmem hpart => exact Or.inr ⟨_, hmem, part, hpart, hocc⟩
    · rintro (hocc | ⟨rule, hmem, part, hpart, hocc⟩)
      · exact ⟨ty, .caseTy, hocc⟩
      · exact ⟨part, .caseRule hmem hpart, hocc⟩

end Traverses

theorem traverses (store : Store) (n : Nat) : Traverses store n := by
  induction n with
  | zero => exact Traverses.zero
  | succ n ih =>
    exact ⟨fun ty env env' => ih.succ_ty ty, fun kind env env' => ih.succ_kind kind,
      fun selector env env' h => by
        cases selector
        exact ih.overload _ env env' h,
      fun overload env env' => ih.succ_overload overload⟩

/-! ### The sets collected -/

section Sets

variable {fuel : Nat} {ty : Ty} {constraints : List Constraint} {env env' : Tvset}

/-- With its direct variables a closed set has all free ones. -/
theorem mem_of_free (hdirect : ∀ v, Occurs store ty v → v ∈ env)
    (hclosed : ∀ v ∈ env, ∀ u, InKind store v u → u ∈ env) {v : Nat}
    (h : Free store ty v) : v ∈ env := by
  obtain ⟨u, hu, hreach⟩ := h
  induction hreach with
  | refl => exact hdirect u hu
  | tail _ hkind ih => exact hclosed _ ih _ hkind

theorem eftvTy_ok (h : eftvTy store fuel ty = .ok env) :
    env.Nodup ∧ ∀ v, v ∈ env ↔ Free store ty v := by
  have hvisits := (traverses store fuel).ty ty [] env h
  refine ⟨hvisits.nodup List.nodup_nil, fun v => ⟨fun hv => ?_, fun hv => ?_⟩⟩
  · exact (hvisits.sound v hv).resolve_left (List.not_mem_nil)
  · exact mem_of_free hvisits.direct
      (fun v hv u hu => hvisits.closed v hv List.not_mem_nil u hu) hv

/-- The set is on the way to the free variables under the constraints. -/
structure Collects (store : Store) (ty : Ty) (constraints : List Constraint)
    (env : Tvset) : Prop where
  nodup : env.Nodup
  sound : ∀ v ∈ env, FreeUnder store ty constraints v
  free : ∀ v, Free store ty v → v ∈ env
  closed : ∀ v ∈ env, ∀ u, InKind store v u → u ∈ env

theorem Collects.start (h : eftvTy store fuel ty = .ok env) :
    Collects store ty constraints env := by
  have hmem := (eftvTy_ok h).2
  exact ⟨(eftvTy_ok h).1, fun v hv => .ofTy ((hmem v).mp hv), fun v hv => (hmem v).mpr hv,
    fun v hv u hu => (hmem u).mpr (((hmem v).mp hv).inKind hu)⟩

theorem Collects.visits {direct : Nat → Prop} (h : Collects store ty constraints env)
    (hvisits : Visits store direct env env')
    (hdirect : ∀ u v, direct u → Relation.ReflTransGen (InKind store) u v →
      FreeUnder store ty constraints v) : Collects store ty constraints env' where
  nodup := hvisits.nodup h.nodup
  sound v hv := by
    rcases hvisits.sound v hv with hv | ⟨u, hu, hreach⟩
    · exact h.sound v hv
    · exact hdirect u v hu hreach
  free v hv := hvisits.grows (h.free v hv)
  closed v hv u hu := by
    by_cases hold : v ∈ env
    · exact hvisits.grows (h.closed v hold u hu)
    · exact hvisits.closed v hv hold u hu

/-- A turn keeps the set on its way, and serves the constraint. -/
structure Serves (store : Store) (ty : Ty) (constraints : List Constraint)
    (c : Constraint) (env env' : Tvset) : Prop where
  collects : Collects store ty constraints env'
  grows : env ⊆ env'
  serves : ∀ u ∈ env, c.Free store u → ∀ v, c.Free store v → v ∈ env'

theorem meets_iff {set set' : Tvset} : meets set set' = true ↔ ∃ u ∈ set, u ∈ set' := by
  simp [meets]

theorem traverseConstraint_ok {c : Constraint} (hc : c ∈ constraints)
    (hcollects : Collects store ty constraints env)
    (h : traverseConstraint store fuel env c = .ok env') :
    Serves store ty constraints c env env' := by
  cases c with
  | join res arg1 arg2 loc =>
    obtain ⟨newTyset1, harg1, h⟩ := except_bind_ok.mp h
    obtain ⟨newTyset2, harg2, h⟩ := except_bind_ok.mp h
    obtain ⟨newTyset3, hres, h⟩ := except_bind_ok.mp h
    have hmem1 := (eftvTy_ok harg1).2
    have hmem2 := (eftvTy_ok harg2).2
    have hmem3 := (eftvTy_ok hres).2
    split at h
    · next hmeets =>
        have hmet : ∃ u ∈ env, Constraint.Free store (.join res arg1 arg2 loc) u := by
          simp only [Bool.or_eq_true, meets_iff] at hmeets
          rcases hmeets with (⟨u, hu, hfree⟩ | ⟨u, hu, hfree⟩) | ⟨u, hu, hfree⟩
          · exact ⟨u, hu, .arg1 ((hmem1 u).mp hfree)⟩
          · exact ⟨u, hu, .arg2 ((hmem2 u).mp hfree)⟩
          · exact ⟨u, hu, .res ((hmem3 u).mp hfree)⟩
        obtain ⟨w, hw, hwfree⟩ := hmet
        have hunder : ∀ v, Constraint.Free store (.join res arg1 arg2 loc) v →
            FreeUnder store ty constraints v :=
          fun v hv => .ofConstraint hc hwfree (hcollects.sound w hw) hv
        obtain ⟨env₁, h₁, h⟩ := except_bind_ok.mp h
        obtain ⟨env₂, h₂, h₃⟩ := except_bind_ok.mp h
        have hvisits₁ := (traverses store fuel).ty _ _ _ h₁
        have hvisits₂ := (traverses store fuel).ty _ _ _ h₂
        have hvisits₃ := (traverses store fuel).ty _ _ _ h₃
        have hcollects' := ((hcollects.visits hvisits₁ fun u v hu hreach =>
          hunder v (.res ⟨u, hu, hreach⟩)).visits hvisits₂ fun u v hu hreach =>
          hunder v (.arg2 ⟨u, hu, hreach⟩)).visits hvisits₃ fun u v hu hreach =>
          hunder v (.arg1 ⟨u, hu, hreach⟩)
        refine ⟨hcollects', ?_, fun u _ _ v hv => ?_⟩
        · exact List.Subset.trans hvisits₁.grows (List.Subset.trans hvisits₂.grows hvisits₃.grows)
        · cases hv with
          | res hv =>
            exact mem_of_free (fun v hv => hvisits₃.grows (hvisits₂.grows (hvisits₁.direct v hv)))
              hcollects'.closed hv
          | arg1 hv => exact mem_of_free hvisits₃.direct hcollects'.closed hv
          | arg2 hv =>
            exact mem_of_free (fun v hv => hvisits₃.grows (hvisits₂.direct v hv))
              hcollects'.closed hv
    · next hmeets =>
        cases h
        refine ⟨hcollects, List.Subset.refl env, fun u hu hfree => ?_⟩
        simp only [Bool.or_eq_true, meets_iff, not_or] at hmeets
        obtain ⟨⟨hnot1, hnot2⟩, hnot3⟩ := hmeets
        cases hfree with
        | res hfree => exact absurd ⟨u, hu, (hmem3 u).mpr hfree⟩ hnot3
        | arg1 hfree => exact absurd ⟨u, hu, (hmem1 u).mpr hfree⟩ hnot1
        | arg2 hfree => exact absurd ⟨u, hu, (hmem2 u).mpr hfree⟩ hnot2

theorem foldlM_traverseConstraint_ok {tail : List Constraint}
    (htail : ∀ c ∈ tail, c ∈ constraints) (hcollects : Collects store ty constraints env)
    (h : tail.foldlM (traverseConstraint store fuel) env = .ok env') :
    Collects store ty constraints env' ∧ env ⊆ env' ∧
      ∀ c ∈ tail, ∀ u ∈ env, c.Free store u → ∀ v, c.Free store v → v ∈ env' := by
  induction tail generalizing env with
  | nil =>
    cases h
    exact ⟨hcollects, List.Subset.refl _, fun c hc => by simp at hc⟩
  | cons c tail ih =>
    rw [List.foldlM_cons, except_bind_ok] at h
    obtain ⟨env₁, hhead, h⟩ := h
    have hserves := traverseConstraint_ok (htail c List.mem_cons_self) hcollects hhead
    obtain ⟨hcollects', hgrows, hrest⟩ :=
      ih (fun c' hc' => htail c' (List.mem_cons_of_mem c hc')) hserves.collects h
    refine ⟨hcollects', List.Subset.trans hserves.grows hgrows, fun c' hc' u hu hfree v hv => ?_⟩
    rcases List.mem_cons.mp hc' with rfl | hc'
    · exact hgrows (hserves.serves u hu hfree v hv)
    · exact hrest c' hc' u (hserves.grows hu) hfree v hv

/-- The loop ends with the free variables under the constraints. -/
theorem traverseConstraints_ok {n : Nat} (hcollects : Collects store ty constraints env)
    (h : traverseConstraints store fuel constraints n env = .ok env') :
    env'.Nodup ∧ ∀ v, v ∈ env' ↔ FreeUnder store ty constraints v := by
  induction n generalizing env with
  | zero => nomatch h
  | succ n ih =>
    obtain ⟨newTyset, hturn, h⟩ := except_bind_ok.mp h
    obtain ⟨hcollects', -, hserved⟩ :=
      foldlM_traverseConstraint_ok (fun c hc => hc) hcollects hturn
    split at h
    · next hstable =>
        cases h
        simp only [List.all_eq_true, decide_eq_true_eq] at hstable
        refine ⟨hcollects'.nodup, fun v => ⟨hcollects'.sound v, fun hv => ?_⟩⟩
        induction hv with
        | ofTy hfree => exact hcollects'.free _ hfree
        | ofConstraint hc hu _ hv ih => exact hserved _ hc _ (hstable _ ih) hu _ hv
    · exact ih hcollects' h

theorem eftv_ok (h : eftv store fuel ty constraints = .ok env) :
    env.Nodup ∧ ∀ v, v ∈ env ↔ FreeUnder store ty constraints v := by
  obtain ⟨env₁, hty, h⟩ := except_bind_ok.mp h
  exact traverseConstraints_ok (Collects.start hty) h

end Sets

end TypesBasics

end SmlSharp
