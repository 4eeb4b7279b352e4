/-
The traversals end: on a store without endless chains of links they visit each
type variable once.
-/
import Mathlib.Data.Finset.Card
import SmlSharp.Lib.Fuel
import SmlSharp.TypesBasics.FreeVariables

namespace SmlSharp

namespace TypesBasics

section Clean

variable (store : Store)

/-- From a type a traversal goes on to its parts, through links and to the kinds of
variables. -/
inductive Leads : Ty → Ty → Prop
  | part {ty part : Ty} : ty.HasPart part → Leads ty part
  | link {r : Nat} {ty : Ty} : store.get r = .substituted ty → Leads (.tyvarTy r) ty
  | kind {r : Nat} {tvKind : TvKind} {ty : Ty} :
      store.get r = .tvar tvKind → tvKind.kind.HasTy ty → Leads (.tyvarTy r) ty

/-- `EFTV` is not defined for the types of the back end, nor for the kinds of
overloaded constants outside the variables. -/
def Ty.Traversable : Ty → Prop
  | .singletonTy _ => False
  | .backendTy => False
  | .dummyTy _ kind => ¬ kind.IsOconst
  | .existTy _ kind => ¬ kind.IsOconst
  | .polyTy boundtvars _ _ => ∀ boundtvar ∈ boundtvars, ¬ boundtvar.2.IsOconst
  | _ => True

def Clean (ty : Ty) : Prop :=
  ∀ part, Relation.ReflTransGen (Leads store) ty part → part.Traversable

def Constraint.Clean : Constraint → Prop
  | .join res arg1 arg2 _ =>
    TypesBasics.Clean store res ∧ TypesBasics.Clean store arg1 ∧ TypesBasics.Clean store arg2

/-- The cells that have not been visited. -/
def unvisited (env : Tvset) : Finset Nat := Finset.range store.length \ env.toFinset

end Clean

variable {store : Store}

theorem Clean.leads {ty part : Ty} (h : Clean store ty) (hleads : Leads store ty part) :
    Clean store part :=
  fun part' hreach => h part' (Relation.ReflTransGen.head hleads hreach)

theorem Clean.traversable {ty : Ty} (h : Clean store ty) : ty.Traversable :=
  h ty Relation.ReflTransGen.refl

theorem unvisited_card_le {env env' : Tvset} (h : env ⊆ env') :
    (unvisited store env').card ≤ (unvisited store env).card := by
  apply Finset.card_le_card
  intro r hr
  simp only [unvisited, Finset.mem_sdiff, List.mem_toFinset] at hr ⊢
  exact ⟨hr.1, fun hmem => hr.2 (h hmem)⟩

theorem unvisited_card_lt {env env' : Tvset} (h : env ⊆ env') {r : Nat}
    (hr : r < store.length) (hnew : r ∉ env) (hmem : r ∈ env') :
    (unvisited store env').card < (unvisited store env).card := by
  apply Finset.card_lt_card
  rw [Finset.ssubset_iff_of_subset]
  · exact ⟨r, by simp [unvisited, hr, hnew], by simp [unvisited, hmem]⟩
  · intro r hr
    simp only [unvisited, Finset.mem_sdiff, List.mem_toFinset] at hr ⊢
    exact ⟨hr.1, fun hmem => hr.2 (h hmem)⟩

/-! ### Convergence -/

/-- The traversal has a result, in which what was visited stays. -/
def Settles (f : Nat → Tvset → Except Exn Tvset) (env : Tvset) : Prop :=
  ∃ env', Converges (fun fuel => f fuel env) env' ∧ env ⊆ env'

namespace Settles

variable {env : Tvset}

theorem refl {f : Nat → Tvset → Except Exn Tvset} (h : ∀ fuel, f (fuel + 1) env = .ok env) :
    Settles f env :=
  ⟨env, Converges.call (Converges.pure fun _ => rfl) h, List.Subset.refl env⟩

theorem call {f g : Nat → Tvset → Except Exn Tvset} (hg : Settles g env)
    (h : ∀ fuel, f (fuel + 1) env = g fuel env) : Settles f env := by
  obtain ⟨env', hconv, hgrows⟩ := hg
  exact ⟨env', hconv.call h, hgrows⟩

theorem bind {f g : Nat → Tvset → Except Exn Tvset} (hf : Settles f env)
    (hg : ∀ env', env ⊆ env' → Settles g env') :
    Settles (fun fuel env => f fuel env >>= g fuel) env := by
  obtain ⟨env₁, hconv, hgrows⟩ := hf
  obtain ⟨env₂, hconv', hgrows'⟩ := hg env₁ hgrows
  exact ⟨env₂, hconv.bind hconv', List.Subset.trans hgrows hgrows'⟩

theorem foldlM {α : Type} {f : Nat → Tvset → α → Except Exn Tvset} {xs : List α}
    (hf : ∀ x ∈ xs, ∀ env', env ⊆ env' → Settles (fun fuel env => f fuel env x) env') :
    Settles (fun fuel env => xs.foldlM (f fuel) env) env := by
  induction xs generalizing env with
  | nil => exact ⟨env, Converges.pure fun _ => rfl, List.Subset.refl env⟩
  | cons x xs ih =>
    have hhead := hf x List.mem_cons_self env (List.Subset.refl env)
    have hbind := hhead.bind (g := fun fuel env => xs.foldlM (f fuel) env)
      fun env' hgrows => ih fun y hy env'' hgrows' =>
        hf y (List.mem_cons_of_mem x hy) env'' (List.Subset.trans hgrows hgrows')
    simpa only [List.foldlM_cons] using hbind

end Settles

/-- The traversals of what has a depth of at most `n`, while at most `k` cells are
unvisited. -/
structure Terminates (store : Store) (k n : Nat) : Prop where
  ty : ∀ ty env, Ty.within store True n ty → Clean store ty → (unvisited store env).card ≤ k →
    Settles (fun fuel => traverseTy store fuel ty) env
  kind : ∀ kind env, Kind.within store True n kind → ¬ kind.IsOconst →
    (∀ ty, kind.HasTy ty → Clean store ty) → (unvisited store env).card ≤ k →
    Settles (fun fuel => traverseKind store fuel kind) env
  selector : ∀ selector env, OprimSelector.within store True n selector →
    (∀ ty, selector.overload.HasTy ty → Clean store ty) → (unvisited store env).card ≤ k →
    Settles (fun fuel => traverseOprimSelector store fuel selector) env
  overload : ∀ overload env, OverloadMatch.within store True n overload →
    (∀ ty, overload.HasTy ty → Clean store ty) → (unvisited store env).card ≤ k →
    Settles (fun fuel => traverseOverloadMatch store fuel overload) env

namespace Terminates

variable {k n : Nat} {env : Tvset}

theorem zero (k : Nat) : Terminates store k 0 where
  ty _ _ h := h.elim
  kind _ _ h := h.elim
  selector _ _ h := h.elim
  overload _ _ h := h.elim

theorem tyList (ih : Terminates store k n) {tyList : List Ty}
    (hwithin : ∀ ty ∈ tyList, Ty.within store True n ty) (hclean : ∀ ty ∈ tyList, Clean store ty)
    (hk : (unvisited store env).card ≤ k) :
    Settles (fun fuel env => tyList.foldlM (fun env ty => traverseTy store fuel ty env) env)
      env :=
  Settles.foldlM fun ty hty _ hgrows =>
    ih.ty ty _ (hwithin ty hty) (hclean ty hty) (Nat.le_trans (unvisited_card_le hgrows) hk)

theorem fields (ih : Terminates store k n) {fields : List (String × Ty)}
    (hwithin : ∀ field ∈ fields, Ty.within store True n field.2)
    (hclean : ∀ field ∈ fields, Clean store field.2) (hk : (unvisited store env).card ≤ k) :
    Settles
      (fun fuel env => fields.foldlM (fun env field => traverseTy store fuel field.2 env) env)
      env :=
  Settles.foldlM fun field hfield _ hgrows =>
    ih.ty field.2 _ (hwithin field hfield) (hclean field hfield)
      (Nat.le_trans (unvisited_card_le hgrows) hk)

/-- A new variable leaves fewer unvisited cells for its kind, whatever the depth of
that is. -/
theorem succ_tvar (hacyclic : store.Acyclic)
    (hless : ∀ k' < k, ∀ n, Terminates store k' n) {r : Nat} {tvKind : TvKind}
    (hget : store.get r = .tvar tvKind) (hclean : Clean store (.tyvarTy r))
    (hk : (unvisited store env).card ≤ k) :
    Settles (fun fuel => traverseTy store fuel (.tyvarTy r)) env := by
  by_cases hkind : tvKind.kind.IsOconst
  · obtain ⟨tyList, hkind⟩ := hkind
    exact Settles.refl fun fuel => by simp [traverseTy, hget, hkind]
  have hstep : ∀ fuel, traverseTy store (fuel + 1) (.tyvarTy r) env =
      if r ∈ env then .ok env else traverseKind store fuel tvKind.kind (env ++ [r]) := by
    intro fuel
    rw [traverseTy]
    simp only [hget]
    split
    · next tyList heq => exact absurd ⟨tyList, heq⟩ hkind
    · rfl
  by_cases hmem : r ∈ env
  · exact Settles.refl fun fuel => by rw [hstep, if_pos hmem]
  have hgrows : env ⊆ env ++ [r] := List.subset_append_left env [r]
  have hlt := unvisited_card_lt hgrows (lt_length_of_tvar hget) hmem (by simp)
  obtain ⟨n, hwithin⟩ := hacyclic (.dummyTy 0 tvKind.kind)
  cases n with
  | zero => exact hwithin.elim
  | succ n =>
    obtain ⟨env', hconv, hgrows'⟩ := (hless _ (Nat.lt_of_lt_of_le hlt hk) n).kind
      tvKind.kind (env ++ [r]) hwithin hkind
      (fun ty hty => hclean.leads (.kind hget hty)) (Nat.le_refl _)
    exact ⟨env', hconv.call fun fuel => (hstep fuel).trans (if_neg hmem),
      List.Subset.trans hgrows hgrows'⟩

theorem succ_ty (hacyclic : store.Acyclic) (hless : ∀ k' < k, ∀ n, Terminates store k' n)
    (ih : Terminates store k n) (ty : Ty) (hwithin : Ty.within store True (n + 1) ty)
    (hclean : Clean store ty) (hk : (unvisited store env).card ≤ k) :
    Settles (fun fuel => traverseTy store fuel ty) env := by
  cases ty with
  | singletonTy sty => exact hclean.traversable.elim
  | backendTy => exact hclean.traversable.elim
  | errorTy => exact Settles.refl fun _ => rfl
  | dummyTy id kind =>
    exact (ih.kind kind env hwithin hclean.traversable
      (fun ty hty => hclean.leads (.part (.dummy hty))) hk).call fun _ => rfl
  | existTy id kind =>
    exact (ih.kind kind env hwithin hclean.traversable
      (fun ty hty => hclean.leads (.part (.exist hty))) hk).call fun _ => rfl
  | tyvarTy r =>
    cases hget : store.get r with
    | substituted ty =>
      have hwithin' : Ty.within store True n ty := by
        simpa only [Ty.within, hget] using hwithin
      exact (ih.ty ty env hwithin' (hclean.leads (.link hget)) hk).call fun fuel => by
        rw [traverseTy]
        simp only [hget]
    | tvar tvKind => exact succ_tvar hacyclic hless hget hclean hk
  | boundvarTy id => exact Settles.refl fun _ => rfl
  | funmTy tyList ty =>
    have hargs := ih.tyList hwithin.1
      (fun arg harg => hclean.leads (.part (.arg harg))) hk
    exact (hargs.bind fun env' hgrows => ih.ty ty env' hwithin.2
      (hclean.leads (.part .result)) (Nat.le_trans (unvisited_card_le hgrows) hk)).call
      fun _ => rfl
  | recordTy fields =>
    exact (ih.fields hwithin
      (fun field hfield => hclean.leads (.part (.field hfield))) hk).call fun _ => rfl
  | constructTy tyCon args =>
    exact (ih.tyList hwithin.2
      (fun arg harg => hclean.leads (.part (.constructArg harg))) hk).call fun _ => rfl
  | polyTy boundtvars constraints body =>
    have hkinds : Settles (fun fuel env => boundtvars.foldlM
        (fun env boundtvar => traverseKind store fuel boundtvar.2 env) env) env :=
      Settles.foldlM fun boundtvar hmem env' hgrows =>
        ih.kind boundtvar.2 env' (hwithin.1 boundtvar hmem) (hclean.traversable boundtvar hmem)
          (fun ty hty => hclean.leads (.part (.boundtvar hmem hty)))
          (Nat.le_trans (unvisited_card_le hgrows) hk)
    exact (hkinds.bind fun env' hgrows => ih.ty body env' hwithin.2.2
      (hclean.leads (.part .body)) (Nat.le_trans (unvisited_card_le hgrows) hk)).call
      fun _ => rfl

theorem succ_kind (ih : Terminates store k n) (kind : Kind)
    (hwithin : Kind.within store True (n + 1) kind) (hkind : ¬ kind.IsOconst)
    (hclean : ∀ ty, kind.HasTy ty → Clean store ty) (hk : (unvisited store env).card ≤ k) :
    Settles (fun fuel => traverseKind store fuel kind) env := by
  obtain ⟨tvarKind, properties, dynamicKind⟩ := kind
  cases n with
  | zero => exact hwithin.elim
  | succ n =>
    have hle : WithinLe store True store n (n + 1) :=
      withinLe (fun _ _ hget => hget) (Nat.le_succ n)
    cases tvarKind with
    | oconstKind tyList => exact absurd ⟨tyList, rfl⟩ hkind
    | univ => exact Settles.refl fun _ => rfl
    | record fields =>
      exact (ih.fields (fun field hfield => hle.ty _ (hwithin field hfield))
        (fun field hfield => hclean field.2 (.record hfield)) hk).call fun _ => rfl
    | oprimKind instances operators =>
      have hinstances := ih.tyList (fun ty hty => hle.ty ty (hwithin.1 ty hty))
        (fun ty hty => hclean ty (.inst hty)) hk
      exact (hinstances.bind fun env' hgrows => Settles.foldlM fun operator hmem env'' hgrows' =>
        ih.selector operator env'' (hle.selector operator (hwithin.2 operator hmem))
          (fun ty hty => hclean ty (.operator hmem hty))
          (Nat.le_trans (unvisited_card_le (List.Subset.trans hgrows hgrows')) hk)).call
        fun _ => rfl

theorem succ_overload (ih : Terminates store k n) (overload : OverloadMatch)
    (hwithin : OverloadMatch.within store True (n + 1) overload)
    (hclean : ∀ ty, overload.HasTy ty → Clean store ty)
    (hk : (unvisited store env).card ≤ k) :
    Settles (fun fuel => traverseOverloadMatch store fuel overload) env := by
  cases overload with
  | overloadExvar info instTyList =>
    cases instTyList with
    | none => exact Settles.refl fun _ => rfl
    | some instTyList =>
      exact (ih.tyList (hwithin instTyList rfl)
        (fun ty hty => hclean ty (.exvar hty)) hk).call fun _ => rfl
  | overloadPrim info instTyList =>
    cases instTyList with
    | none => exact Settles.refl fun _ => rfl
    | some instTyList =>
      exact (ih.tyList (hwithin instTyList rfl)
        (fun ty hty => hclean ty (.prim hty)) hk).call fun _ => rfl
  | overloadCase ty rules =>
    have hty := ih.ty ty env hwithin.1 (hclean ty .caseTy) hk
    exact (hty.bind fun env' hgrows => Settles.foldlM fun rule hrule env'' hgrows' =>
      ih.overload rule.2 env'' (hwithin.2 rule hrule)
        (fun ty hty => hclean ty (.caseRule hrule hty))
        (Nat.le_trans (unvisited_card_le (List.Subset.trans hgrows hgrows')) hk)).call
      fun _ => rfl

end Terminates

theorem terminates (hacyclic : store.Acyclic) (k n : Nat) : Terminates store k n := by
  induction k using Nat.strongRecOn generalizing n with
  | ind k hless =>
    induction n with
    | zero => exact Terminates.zero k
    | succ n ih =>
      refine ⟨fun ty env => ih.succ_ty hacyclic hless ty, fun kind env => ih.succ_kind kind,
        fun selector env hwithin hclean hk => ?_, fun overload env => ih.succ_overload overload⟩
      cases selector with
      | selector oprimId longsymbol overload =>
        exact (ih.overload overload env hwithin hclean hk).call fun _ => rfl

theorem traverseTy_settles (hacyclic : store.Acyclic) {ty : Ty} (hclean : Clean store ty)
    (env : Tvset) : Settles (fun fuel => traverseTy store fuel ty) env := by
  obtain ⟨n, hwithin⟩ := hacyclic ty
  exact (terminates hacyclic _ n).ty ty env hwithin hclean (Nat.le_refl _)

theorem eftvTy_converges (hacyclic : store.Acyclic) {ty : Ty} (hclean : Clean store ty) :
    ∃ env, Converges (fun fuel => eftvTy store fuel ty) env := by
  obtain ⟨env, hconv, -⟩ := traverseTy_settles hacyclic hclean []
  exact ⟨env, hconv⟩

theorem traverseConstraint_settles (hacyclic : store.Acyclic) {c : Constraint}
    (hclean : c.Clean store) (env : Tvset) :
    Settles (fun fuel env => traverseConstraint store fuel env c) env := by
  cases c with
  | join res arg1 arg2 loc =>
    obtain ⟨hcres, hcarg1, hcarg2⟩ := hclean
    obtain ⟨newTyset1, h₁⟩ := eftvTy_converges hacyclic hcarg1
    obtain ⟨newTyset2, h₂⟩ := eftvTy_converges hacyclic hcarg2
    obtain ⟨newTyset3, h₃⟩ := eftvTy_converges hacyclic hcres
    have hrest : ∃ env', env ⊆ env' ∧ Converges (fun fuel =>
        if meets env newTyset1 || meets env newTyset2 || meets env newTyset3 then do
          let env ← traverseTy store fuel res env
          let env ← traverseTy store fuel arg2 env
          traverseTy store fuel arg1 env
        else return env) env' := by
      split
      · obtain ⟨env', hconv, hgrows⟩ := (traverseTy_settles hacyclic hcres env).bind
          (g := fun fuel env => do
            let env ← traverseTy store fuel arg2 env
            traverseTy store fuel arg1 env)
          fun env' _ => (traverseTy_settles hacyclic hcarg2 env').bind
            fun env'' _ => traverseTy_settles hacyclic hcarg1 env''
        exact ⟨env', hgrows, hconv⟩
      · exact ⟨env, List.Subset.refl env, Converges.pure fun _ => rfl⟩
    obtain ⟨env', hgrows, hconv⟩ := hrest
    exact ⟨env', h₁.bind (h₂.bind (h₃.bind hconv)), hgrows⟩

/-- Every turn but the last one visits a cell. -/
theorem traverseConstraints_converges (hacyclic : store.Acyclic) {ty : Ty}
    {constraints : List Constraint} (hclean : ∀ c ∈ constraints, c.Clean store) (env : Tvset)
    (hcollects : Collects store ty constraints env) :
    ∃ env' enough, ∀ fuel, enough ≤ fuel → ∀ n, enough ≤ n →
      traverseConstraints store fuel constraints n env = .ok env' := by
  generalize hk : (unvisited store env).card = k
  induction k using Nat.strongRecOn generalizing env with
  | ind k ih =>
    have hsettles : Settles
        (fun fuel env => constraints.foldlM (traverseConstraint store fuel) env) env :=
      Settles.foldlM fun c hc env' _ => traverseConstraint_settles hacyclic (hclean c hc) env'
    obtain ⟨newTyset, ⟨enough, hturn⟩, hgrows⟩ := hsettles
    dsimp only at hturn
    have hcollects' := (foldlM_traverseConstraint_ok (fun c hc => hc) hcollects
      (hturn enough (Nat.le_refl enough))).1
    by_cases hstable : newTyset.all (· ∈ env) = true
    · refine ⟨newTyset, enough + 1, fun fuel hfuel n hn => ?_⟩
      obtain ⟨n, rfl⟩ := Nat.exists_eq_add_of_le' (Nat.le_of_add_left_le hn)
      rw [traverseConstraints, hturn fuel (Nat.le_of_succ_le hfuel), except_ok_bind,
        if_pos hstable]
      rfl
    · have hlt : (unvisited store newTyset).card < k := by
        simp only [List.all_eq_true, decide_eq_true_eq, not_forall] at hstable
        obtain ⟨v, hv, hnew⟩ := hstable
        obtain ⟨tvKind, hget, -⟩ := (hcollects'.sound v hv).tvar
        rw [← hk]
        exact unvisited_card_lt hgrows (lt_length_of_tvar hget) hnew hv
      obtain ⟨env', enough', hloop⟩ := ih _ hlt newTyset hcollects' rfl
      refine ⟨env', max enough enough' + 1, fun fuel hfuel n hn => ?_⟩
      obtain ⟨n, rfl⟩ := Nat.exists_eq_add_of_le' (Nat.le_of_add_left_le hn)
      have hmax := Nat.le_max_left enough enough'
      have hmax' := Nat.le_max_right enough enough'
      rw [traverseConstraints, hturn fuel (by omega), except_ok_bind, if_neg hstable]
      exact hloop fuel (by omega) n (by omega)

theorem eftv_converges (hacyclic : store.Acyclic) {ty : Ty} {constraints : List Constraint}
    (hty : Clean store ty) (hclean : ∀ c ∈ constraints, c.Clean store) :
    ∃ env, Converges (fun fuel => eftv store fuel ty constraints) env := by
  obtain ⟨env, henv⟩ := eftvTy_converges hacyclic hty
  have ⟨enough, hstart⟩ := henv
  obtain ⟨env', enough', hloop⟩ := traverseConstraints_converges hacyclic hclean env
    (Collects.start (hstart enough (Nat.le_refl enough)))
  exact ⟨env', henv.bind ⟨enough', fun fuel hfuel => hloop fuel hfuel fuel hfuel⟩⟩

/-! ### Stores without endless chains -/

/-- A part has a smaller syntax tree. -/
structure Sized (store : Store) (m n : Nat) : Prop where
  ty : ∀ ty : Ty, sizeOf ty ≤ n → Ty.within store True (m + n) ty
  kind : ∀ kind : Kind, sizeOf kind ≤ n → Kind.within store True (m + n) kind
  tvarKind : ∀ tvarKind : TvarKind, sizeOf tvarKind ≤ n →
    TvarKind.within store True (m + n) tvarKind
  selector : ∀ selector : OprimSelector,
    sizeOf selector ≤ n → OprimSelector.within store True (m + n) selector
  overload : ∀ overload : OverloadMatch,
    sizeOf overload ≤ n → OverloadMatch.within store True (m + n) overload
  singletonTy : ∀ sty : SingletonTy, sizeOf sty ≤ n → SingletonTy.within store True (m + n) sty
  tyCon : ∀ tyCon : TyCon, sizeOf tyCon ≤ n → TyCon.within store True (m + n) tyCon
  dtyKind : ∀ dtyKind : DtyKind, sizeOf dtyKind ≤ n → DtyKind.within store True (m + n) dtyKind
  opaqueRep : ∀ rep : OpaqueRep, sizeOf rep ≤ n → OpaqueRep.within store True (m + n) rep
  constraint : ∀ c : Constraint, sizeOf c ≤ n → Constraint.within store True (m + n) c

theorem Sized.zero (store : Store) (m : Nat) : Sized store m 0 := by
  constructor <;> intro x hx <;> cases x <;> simp at hx

theorem sizeOf_le_of_mem {α : Type} [SizeOf α] {x : α} {xs : List α} {n : Nat} (h : x ∈ xs)
    (hn : sizeOf xs ≤ n) : sizeOf x ≤ n :=
  Nat.le_of_lt (Nat.lt_of_lt_of_le (List.sizeOf_lt_of_mem h) hn)

theorem sizeOf_snd_le_of_mem {α β : Type} [SizeOf α] [SizeOf β] {x : α × β} {xs : List (α × β)}
    {n : Nat} (h : x ∈ xs) (hn : sizeOf xs ≤ n) : sizeOf x.2 ≤ n := by
  have hle := sizeOf_le_of_mem h hn
  rw [Prod.mk.sizeOf_spec] at hle
  omega

theorem Sized.succ {store : Store} {m n : Nat}
    (hlinks : ∀ r ty, store.get r = .substituted ty → Ty.within store True m ty)
    (ih : Sized store m n) : Sized store m (n + 1) where
  ty ty hle := by
    cases ty with
    | singletonTy sty =>
      apply ih.singletonTy sty
      simp only [Ty.singletonTy.sizeOf_spec] at hle
      omega
    | backendTy => trivial
    | errorTy => trivial
    | dummyTy id kind =>
      apply ih.kind kind
      simp only [Ty.dummyTy.sizeOf_spec] at hle
      omega
    | existTy id kind =>
      apply ih.kind kind
      simp only [Ty.existTy.sizeOf_spec] at hle
      omega
    | tyvarTy r =>
      rw [← Nat.add_assoc, Ty.within]
      split
      · next ty hget => exact Ty.within_mono (Nat.le_add_right m n) (hlinks r ty hget)
      · trivial
    | boundvarTy id => trivial
    | funmTy tyList ty =>
      simp only [Ty.funmTy.sizeOf_spec] at hle
      exact ⟨fun arg harg => ih.ty arg (sizeOf_le_of_mem harg (by omega)),
        ih.ty ty (by omega)⟩
    | recordTy fields =>
      simp only [Ty.recordTy.sizeOf_spec] at hle
      exact fun field hfield => ih.ty field.2 (sizeOf_snd_le_of_mem hfield (by omega))
    | constructTy tyCon args =>
      simp only [Ty.constructTy.sizeOf_spec] at hle
      exact ⟨ih.tyCon tyCon (by omega),
        fun arg harg => ih.ty arg (sizeOf_le_of_mem harg (by omega))⟩
    | polyTy boundtvars constraints body =>
      simp only [Ty.polyTy.sizeOf_spec] at hle
      exact ⟨fun boundtvar hmem => ih.kind boundtvar.2 (sizeOf_snd_le_of_mem hmem (by omega)),
        fun c hc => ih.constraint c (sizeOf_le_of_mem hc (by omega)), ih.ty body (by omega)⟩
  kind kind hle := by
    obtain ⟨tvarKind, properties, dynamicKind⟩ := kind
    apply ih.tvarKind tvarKind
    simp only [Kind.kind.sizeOf_spec] at hle
    omega
  tvarKind tvarKind hle := by
    cases tvarKind with
    | oconstKind tyList =>
      simp only [TvarKind.oconstKind.sizeOf_spec] at hle
      exact fun ty hty => ih.ty ty (sizeOf_le_of_mem hty (by omega))
    | oprimKind instances operators =>
      simp only [TvarKind.oprimKind.sizeOf_spec] at hle
      exact ⟨fun ty hty => ih.ty ty (sizeOf_le_of_mem hty (by omega)),
        fun operator hmem => ih.selector operator (sizeOf_le_of_mem hmem (by omega))⟩
    | univ => trivial
    | record fields =>
      simp only [TvarKind.record.sizeOf_spec] at hle
      exact fun field hfield => ih.ty field.2 (sizeOf_snd_le_of_mem hfield (by omega))
  selector selector hle := by
    cases selector with
    | selector oprimId longsymbol overload =>
      apply ih.overload overload
      simp only [OprimSelector.selector.sizeOf_spec] at hle
      omega
  overload overload hle := by
    cases overload with
    | overloadExvar info tys =>
      rintro tyList rfl ty hty
      simp only [OverloadMatch.overloadExvar.sizeOf_spec, Option.some.sizeOf_spec] at hle
      exact ih.ty ty (sizeOf_le_of_mem hty (by omega))
    | overloadPrim info tys =>
      rintro tyList rfl ty hty
      simp only [OverloadMatch.overloadPrim.sizeOf_spec, Option.some.sizeOf_spec] at hle
      exact ih.ty ty (sizeOf_le_of_mem hty (by omega))
    | overloadCase ty rules =>
      simp only [OverloadMatch.overloadCase.sizeOf_spec] at hle
      exact ⟨ih.ty ty (by omega),
        fun rule hrule => ih.overload rule.2 (sizeOf_snd_le_of_mem hrule (by omega))⟩
  singletonTy sty hle := by
    cases sty with
    | instcodeTy selector =>
      apply ih.selector selector
      simp only [SingletonTy.instcodeTy.sizeOf_spec] at hle
      omega
    | indexTy label ty =>
      apply ih.ty ty
      simp only [SingletonTy.indexTy.sizeOf_spec] at hle
      omega
    | tagTy ty =>
      apply ih.ty ty
      simp only [SingletonTy.tagTy.sizeOf_spec] at hle
      omega
    | sizeTy ty =>
      apply ih.ty ty
      simp only [SingletonTy.sizeTy.sizeOf_spec] at hle
      omega
    | reifyTy ty =>
      apply ih.ty ty
      simp only [SingletonTy.reifyTy.sizeOf_spec] at hle
      omega
  tyCon tyCon hle := by
    cases tyCon with
    | tyCon id longsymbol admitsEq arity extraArgs dtyKind =>
      simp only [TyCon.tyCon.sizeOf_spec] at hle
      exact ⟨fun ty hty => ih.ty ty (sizeOf_le_of_mem hty (by omega)),
        ih.dtyKind dtyKind (by omega)⟩
  dtyKind dtyKind hle := by
    cases dtyKind with
    | dty property => trivial
    | opaqueDty rep key =>
      apply ih.opaqueRep rep
      simp only [DtyKind.opaqueDty.sizeOf_spec] at hle
      omega
    | interfaceDty rep =>
      apply ih.opaqueRep rep
      simp only [DtyKind.interfaceDty.sizeOf_spec] at hle
      omega
  opaqueRep rep hle := by
    cases rep with
    | tycon tyCon =>
      apply ih.tyCon tyCon
      simp only [OpaqueRep.tycon.sizeOf_spec] at hle
      omega
    | tfundef admitsEq arity polyTy =>
      apply ih.ty polyTy
      simp only [OpaqueRep.tfundef.sizeOf_spec] at hle
      omega
  constraint c hle := by
    cases c with
    | join res arg1 arg2 loc =>
      simp only [Constraint.join.sizeOf_spec] at hle
      exact ⟨ih.ty res (by omega), ih.ty arg1 (by omega), ih.ty arg2 (by omega)⟩

/-- A bound on the depth behind the links is enough. -/
theorem Store.acyclic_of_links {store : Store} {m : Nat}
    (hlinks : ∀ r ty, store.get r = .substituted ty → Ty.within store True m ty) :
    store.Acyclic := by
  have hsized : ∀ n, Sized store m n := by
    intro n
    induction n with
    | zero => exact Sized.zero store m
    | succ n ih => exact ih.succ hlinks
  exact fun ty => ⟨m + sizeOf ty, (hsized (sizeOf ty)).ty ty (Nat.le_refl _)⟩

theorem Store.acyclic_of_unlinked {store : Store}
    (h : ∀ r ty, store.get r = .substituted ty → ty = .errorTy) : store.Acyclic := by
  apply Store.acyclic_of_links (m := 1)
  intro r ty hget
  rw [h r ty hget]
  trivial

/-- A variable of any kind leads nowhere. -/
theorem clean_of_univ {store : Store} {r : Nat} {tvKind : TvKind}
    (hget : store.get r = .tvar tvKind) (hkind : tvKind.kind.tvarKind = .univ) :
    Clean store (.tyvarTy r) := by
  intro part hreach
  cases hreach.cases_head with
  | inl heq =>
    rw [← heq]
    trivial
  | inr hstep =>
    obtain ⟨ty, hleads, -⟩ := hstep
    cases hleads with
    | part hpart => nomatch hpart
    | link hget' => simp [hget] at hget'
    | kind hget' hty =>
      rw [hget] at hget'
      cases hget'
      rw [Kind.HasTy, hkind] at hty
      nomatch hty

end TypesBasics

end SmlSharp
