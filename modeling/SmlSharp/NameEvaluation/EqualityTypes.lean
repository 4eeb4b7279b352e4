/-
The greatest assignment of equality flags to a group of datatypes, and when
`setEq` finds it.
-/
import SmlSharp.NameEvaluation.SetEq
import SmlSharp.Lib.KeyedList
import Mathlib.Order.Bounds.Basic

namespace SmlSharp.NameEvaluation

def TvarKind.properties : TvarKind → KindPropertyList
  | .univ properties => properties
  | .recKind properties _ => properties

/-- How the flag of a name is found if its cell is a `tfvSpec`: like that of all
other names, or in the cell. -/
inductive Reading where
  | ofGroup
  | ofCell
deriving DecidableEq

/-- Where the flag of a name is: with the datatypes of the group, or in the
cell of the name. -/
inductive Flag where
  | group (id : TypId)
  | stored (admitsEq : Bool)

def flagOf (ids : List TypId) (id : TypId) (admitsEq : Bool) : Flag :=
  if id ∈ ids then .group id else .stored admitsEq

def nameFlag (reading : Reading) (ids : List TypId) : Tfunkind → Option Flag
  | .tfvSpec id admitsEq _ =>
    match reading with
    | .ofGroup => some (flagOf ids id admitsEq)
    | .ofCell => some (.stored admitsEq)
  | .tfvDty id admitsEq _ _ _ => some (flagOf ids id admitsEq)
  | .tfunDty id admitsEq _ _ _ _ => some (flagOf ids id admitsEq)
  | .realized _ _ => none
  | .instantiated _ _ => none
  | .funDty _ => none

section

variable (heap : AcyclicHeap) (base : EqBase) (datadeclList : List Datadecl)

def groupIds : List TypId := datadeclList.map Datadecl.id

/-- The type function admits equality if the datatypes of `eq` do. -/
inductive TfunAdmits (reading : Reading) (eq : Set TypId) : Tfun → Prop
  | tfunDef (formals : Formals) (realizerTy : Ty) :
      TfunAdmits reading eq (.tfunDef true formals realizerTy)
  | refers {tfv : Tfv} {tfun : Tfun} (hcell : (heap.heap tfv).refersTo = some tfun)
      (h : TfunAdmits reading eq tfun) : TfunAdmits reading eq (.tfunVar tfv)
  | stored {tfv : Tfv}
      (hcell : nameFlag reading (groupIds datadeclList) (heap.heap tfv) = some (.stored true)) :
      TfunAdmits reading eq (.tfunVar tfv)
  | group {tfv : Tfv} {id : TypId}
      (hcell : nameFlag reading (groupIds datadeclList) (heap.heap tfv) = some (.group id))
      (h : id ∈ eq) : TfunAdmits reading eq (.tfunVar tfv)

mutual

/-- The type admits equality if the type functions of `tfunEq` and the type
variables of the list do.  A polytype admits equality if its bound variables
are equality type variables and its body admits equality. -/
def Admits (tfunEq : Tfun → Prop) (tvarList : List Tvar) : Ty → Prop
  | .tyWild => False
  | .tyError => False
  | .tyVar tvar => eqtvar base tvarList tvar = true
  | .tyFreeTyvar id => base.isEqFree id = true
  | .tyRecord _ fields => AdmitsFields tfunEq tvarList fields
  | .tyConstruct tfun args =>
    isRefOrArray heap base tfun = true ∨ tfunEq tfun ∧ AdmitsList tfunEq tvarList args
  | .tyFunM _ _ => False
  | .tyPoly kindedTvarList ty =>
    (∀ kindedTvar ∈ kindedTvarList, kindedTvar.2.properties.eq = true) ∧
      Admits tfunEq (kindedTvarList.map Prod.fst ++ tvarList) ty
  | .inferredTy => False

def AdmitsFields (tfunEq : Tfun → Prop) (tvarList : List Tvar) : List (String × Ty) → Prop
  | [] => True
  | (_, ty) :: fields => Admits tfunEq tvarList ty ∧ AdmitsFields tfunEq tvarList fields

def AdmitsList (tfunEq : Tfun → Prop) (tvarList : List Tvar) : List Ty → Prop
  | [] => True
  | ty :: tys => Admits tfunEq tvarList ty ∧ AdmitsList tfunEq tvarList tys

end

/-- The assignments of flags under which each flagged datatype has only
constructor arguments that admit equality; `eq` are the flagged datatypes. -/
def assignments (reading : Reading) : Set (Set TypId) :=
  {eq | (∀ id ∈ eq, id ∈ groupIds datadeclList) ∧
    ∀ datadecl ∈ datadeclList, datadecl.id ∈ eq →
      ∀ con ty, (con, some ty) ∈ datadecl.conSpec →
        Admits heap base (TfunAdmits heap datadeclList reading eq) datadecl.args ty}

/-- What equality is denied to. -/
inductive Subject where
  | ty (tvarList : List Tvar) (ty : Ty)
  | tfun (tfun : Tfun)
  | datatype (id : TypId)

/-- The reasons for which a type, a type function or a datatype of the group
does not admit equality. -/
inductive Lacks (reading : Reading) : Subject → Prop
  | tyWild {tvarList : List Tvar} : Lacks reading (.ty tvarList .tyWild)
  | tyError {tvarList : List Tvar} : Lacks reading (.ty tvarList .tyError)
  | inferredTy {tvarList : List Tvar} : Lacks reading (.ty tvarList .inferredTy)
  | tyFunM {tvarList : List Tvar} {tyList : List Ty} {ty : Ty} :
      Lacks reading (.ty tvarList (.tyFunM tyList ty))
  | tyVar {tvarList : List Tvar} {tvar : Tvar} (h : ¬ eqtvar base tvarList tvar = true) :
      Lacks reading (.ty tvarList (.tyVar tvar))
  | tyFreeTyvar {tvarList : List Tvar} {id : TvarId} (h : ¬ base.isEqFree id = true) :
      Lacks reading (.ty tvarList (.tyFreeTyvar id))
  | field {tvarList : List Tvar} {ifFlex : Bool} {fields : List (String × Ty)} {label : String}
      {ty : Ty} (hmem : (label, ty) ∈ fields) (h : Lacks reading (.ty tvarList ty)) :
      Lacks reading (.ty tvarList (.tyRecord ifFlex fields))
  | name {tvarList : List Tvar} {tfun : Tfun} {args : List Ty}
      (href : ¬ isRefOrArray heap base tfun = true) (h : Lacks reading (.tfun tfun)) :
      Lacks reading (.ty tvarList (.tyConstruct tfun args))
  | arg {tvarList : List Tvar} {tfun : Tfun} {args : List Ty} {ty : Ty}
      (href : ¬ isRefOrArray heap base tfun = true) (hmem : ty ∈ args)
      (h : Lacks reading (.ty tvarList ty)) :
      Lacks reading (.ty tvarList (.tyConstruct tfun args))
  | bound {tvarList : List Tvar} {kindedTvarList : List (Tvar × TvarKind)} {ty : Ty}
      {kindedTvar : Tvar × TvarKind} (hmem : kindedTvar ∈ kindedTvarList)
      (h : ¬ kindedTvar.2.properties.eq = true) :
      Lacks reading (.ty tvarList (.tyPoly kindedTvarList ty))
  | body {tvarList : List Tvar} {kindedTvarList : List (Tvar × TvarKind)} {ty : Ty}
      (h : Lacks reading (.ty (kindedTvarList.map Prod.fst ++ tvarList) ty)) :
      Lacks reading (.ty tvarList (.tyPoly kindedTvarList ty))
  | tfunDef (formals : Formals) (realizerTy : Ty) :
      Lacks reading (.tfun (.tfunDef false formals realizerTy))
  | refers {tfv : Tfv} {tfun : Tfun} (hcell : (heap.heap tfv).refersTo = some tfun)
      (h : Lacks reading (.tfun tfun)) : Lacks reading (.tfun (.tfunVar tfv))
  | stored {tfv : Tfv}
      (hcell : nameFlag reading (groupIds datadeclList) (heap.heap tfv) = some (.stored false)) :
      Lacks reading (.tfun (.tfunVar tfv))
  | group {tfv : Tfv} {id : TypId}
      (hcell : nameFlag reading (groupIds datadeclList) (heap.heap tfv) = some (.group id))
      (h : Lacks reading (.datatype id)) : Lacks reading (.tfun (.tfunVar tfv))
  | datatype {datadecl : Datadecl} {con : String} {ty : Ty} (hdecl : datadecl ∈ datadeclList)
      (hcon : (con, some ty) ∈ datadecl.conSpec)
      (h : Lacks reading (.ty datadecl.args ty)) : Lacks reading (.datatype datadecl.id)

end

variable {tvarList : List Tvar} {passed : Bool} {datadecl : Datadecl} {id : TypId}
  {refs : EqRef → Bool} {tfv : Tfv} {reading : Reading} {admitsEq : Bool} {eq : Set TypId}

section Tests

variable {heap : AcyclicHeap} {base : EqBase} {tfuneq tfuneq' : Tfun → Bool}

theorem admitsFields_iff {tfunEq : Tfun → Prop}
    {fields : List (String × Ty)} :
    AdmitsFields heap base tfunEq tvarList fields ↔
      ∀ label ty, (label, ty) ∈ fields → Admits heap base tfunEq tvarList ty := by
  induction fields with
  | nil => simp [AdmitsFields]
  | cons field fields ih =>
    obtain ⟨label, ty⟩ := field
    rw [AdmitsFields, ih]
    constructor
    · rintro ⟨hty, hfields⟩ label' ty' hmem
      rcases List.mem_cons.1 hmem with heq | hmem
      · cases heq
        exact hty
      · exact hfields label' ty' hmem
    · intro hall
      exact ⟨hall label ty List.mem_cons_self,
        fun label' ty' hmem => hall label' ty' (List.mem_cons_of_mem _ hmem)⟩

theorem admitsList_iff {tfunEq : Tfun → Prop} {tys : List Ty} :
    AdmitsList heap base tfunEq tvarList tys ↔
      ∀ ty ∈ tys, Admits heap base tfunEq tvarList ty := by
  induction tys with
  | nil => simp [AdmitsList]
  | cons ty tys ih => rw [AdmitsList, ih, List.forall_mem_cons]

/-- A conjunction of tests, of which the second runs if the first is passed. -/
theorem andalso_sound {x y : Except Failure Bool} {P Q : Prop}
    (hx : ∀ passed, x = .ok passed → (passed = true ↔ P))
    (hy : ∀ passed, y = .ok passed → (passed = true ↔ Q))
    (h : (do if ← x then y else .ok false) = .ok passed) : passed = true ↔ P ∧ Q := by
  obtain ⟨first, hfirst, h⟩ := except_bind_ok.1 h
  cases first with
  | true =>
    rw [if_pos rfl] at h
    have hP : P := (hx true hfirst).1 rfl
    rw [hy passed h, and_iff_right hP]
  | false =>
    rw [if_neg Bool.false_ne_true] at h
    cases h
    have hP : ¬ P := fun hP => Bool.false_ne_true ((hx false hfirst).2 hP)
    simp [hP]

mutual

theorem eqTy_sound (tvarList : List Tvar) :
    ∀ (ty : Ty) (passed : Bool), eqTy heap base tfuneq tvarList ty = .ok passed →
      (passed = true ↔ Admits heap base (fun tfun => tfuneq tfun = true) tvarList ty)
  | .tyWild, passed, h => by
      cases h
      simp [Admits]
  | .tyError, passed, h => by
      cases h
      simp [Admits]
  | .tyVar tvar, passed, h => by
      cases h
      rw [Admits]
  | .tyFreeTyvar id, passed, h => by
      cases h
      rw [Admits]
  | .tyRecord _ fields, passed, h => by
      rw [eqTy] at h
      rw [Admits]
      exact eqFields_sound tvarList fields passed h
  | .tyConstruct tfun args, passed, h => by
      rw [eqTy] at h
      rw [Admits]
      by_cases href : isRefOrArray heap base tfun = true
      · rw [if_pos href] at h
        cases h
        simp [href]
      · rw [if_neg href] at h
        by_cases htfun : tfuneq tfun = true
        · rw [if_pos htfun] at h
          rw [eqList_sound tvarList args passed h]
          simp [href, htfun]
        · rw [if_neg htfun] at h
          cases h
          simp [href, htfun]
  | .tyFunM _ _, passed, h => by
      cases h
      simp [Admits]
  | .tyPoly _ _, passed, h => by cases h
  | .inferredTy, passed, h => by cases h

theorem eqFields_sound (tvarList : List Tvar) :
    ∀ (fields : List (String × Ty)) (passed : Bool),
      eqFields heap base tfuneq tvarList fields = .ok passed →
      (passed = true ↔
        AdmitsFields heap base (fun tfun => tfuneq tfun = true) tvarList fields)
  | [], passed, h => by
      cases h
      simp [AdmitsFields]
  | (_, ty) :: fields, passed, h => by
      rw [eqFields] at h
      rw [AdmitsFields]
      exact andalso_sound (eqTy_sound tvarList ty) (eqFields_sound tvarList fields) h

theorem eqList_sound (tvarList : List Tvar) :
    ∀ (tys : List Ty) (passed : Bool), eqList heap base tfuneq tvarList tys = .ok passed →
      (passed = true ↔ AdmitsList heap base (fun tfun => tfuneq tfun = true) tvarList tys)
  | [], passed, h => by
      cases h
      simp [AdmitsList]
  | ty :: rest, passed, h => by
      rw [eqList] at h
      rw [AdmitsList]
      exact andalso_sound (eqTy_sound tvarList ty) (eqList_sound tvarList rest) h

end

theorem admitEqList_sound {conSpec : ConSpec}
    (h : admitEqList heap base tfuneq tvarList (conSpec.map Prod.snd) = .ok passed) :
    passed = true ↔ ∀ con ty, (con, some ty) ∈ conSpec →
      Admits heap base (fun tfun => tfuneq tfun = true) tvarList ty := by
  induction conSpec generalizing passed with
  | nil =>
    cases h
    simp
  | cons entry conSpec ih =>
    obtain ⟨con, _ | ty⟩ := entry
    · rw [List.map_cons, admitEqList] at h
      rw [ih h]
      simp
    · rw [List.map_cons, admitEqList] at h
      rw [andalso_sound (eqTy_sound tvarList ty) (fun passed h => ih h) h]
      constructor
      · rintro ⟨hty, hrest⟩ con' ty' hmem
        rcases List.mem_cons.1 hmem with heq | hmem
        · cases heq
          exact hty
        · exact hrest con' ty' hmem
      · intro hall
        exact ⟨hall con ty List.mem_cons_self,
          fun con' ty' hmem => hall con' ty' (List.mem_cons_of_mem _ hmem)⟩

/-- The first computation returns when the second does, and is passed only if
the second is. -/
def Below (x y : Except Failure Bool) : Prop :=
  ∀ passed', y = .ok passed' → ∃ passed, passed ≤ passed' ∧ x = .ok passed

theorem Below.refl (x : Except Failure Bool) : Below x x :=
  fun passed h => ⟨passed, le_refl _, h⟩

theorem below_false (y : Except Failure Bool) : Below (.ok false) y :=
  fun passed' _ => ⟨false, Bool.false_le passed', rfl⟩

theorem Below.andalso {x x' y y' : Except Failure Bool} (hx : Below x x') (hy : Below y y') :
    Below (do if ← x then y else .ok false) (do if ← x' then y' else .ok false) := by
  intro passed' h
  obtain ⟨first', hfirst', h⟩ := except_bind_ok.1 h
  obtain ⟨first, hle, hfirst⟩ := hx first' hfirst'
  rw [hfirst]
  cases first with
  | false => exact below_false _ passed' rfl
  | true =>
    rw [Bool.eq_true_of_true_le hle, if_pos rfl] at h
    exact hy passed' h

mutual

theorem eqTy_below (hle : tfuneq ≤ tfuneq') (tvarList : List Tvar) :
    ∀ ty : Ty, Below (eqTy heap base tfuneq tvarList ty) (eqTy heap base tfuneq' tvarList ty)
  | .tyWild => Below.refl _
  | .tyError => Below.refl _
  | .tyVar _ => Below.refl _
  | .tyFreeTyvar _ => Below.refl _
  | .tyRecord _ fields => by
      rw [eqTy, eqTy]
      exact eqFields_below hle tvarList fields
  | .tyConstruct tfun args => by
      rw [eqTy, eqTy]
      by_cases href : isRefOrArray heap base tfun = true
      · rw [if_pos href, if_pos href]
        exact Below.refl _
      · rw [if_neg href, if_neg href]
        by_cases htfun : tfuneq tfun = true
        · rw [if_pos htfun, if_pos (hle tfun htfun)]
          exact eqList_below hle tvarList args
        · rw [if_neg htfun]
          exact below_false _
  | .tyFunM _ _ => Below.refl _
  | .tyPoly _ _ => Below.refl _
  | .inferredTy => Below.refl _

theorem eqFields_below (hle : tfuneq ≤ tfuneq') (tvarList : List Tvar) :
    ∀ fields : List (String × Ty), Below (eqFields heap base tfuneq tvarList fields)
      (eqFields heap base tfuneq' tvarList fields)
  | [] => Below.refl _
  | (_, ty) :: fields => by
      rw [eqFields, eqFields]
      exact (eqTy_below hle tvarList ty).andalso (eqFields_below hle tvarList fields)

theorem eqList_below (hle : tfuneq ≤ tfuneq') (tvarList : List Tvar) :
    ∀ tys : List Ty, Below (eqList heap base tfuneq tvarList tys)
      (eqList heap base tfuneq' tvarList tys)
  | [] => Below.refl _
  | ty :: rest => by
      rw [eqList, eqList]
      exact (eqTy_below hle tvarList ty).andalso (eqList_below hle tvarList rest)

end

theorem admitEqList_below (hle : tfuneq ≤ tfuneq') (tvarList : List Tvar) :
    ∀ tys : List (Option Ty), Below (admitEqList heap base tfuneq tvarList tys)
      (admitEqList heap base tfuneq' tvarList tys)
  | [] => Below.refl _
  | none :: rest => admitEqList_below hle tvarList rest
  | some ty :: rest =>
    (eqTy_below hle tvarList ty).andalso (admitEqList_below hle tvarList rest)

end Tests

section References

variable {heap : AcyclicHeap} {base : EqBase} {datadeclList : List Datadecl}

theorem lookup_eqEnv (hids : (groupIds datadeclList).Nodup)
    (hmem : datadecl ∈ datadeclList) :
    (eqEnv datadeclList).lookup datadecl.id = some datadecl.admitsEqRef := by
  induction datadeclList with
  | nil => cases hmem
  | cons datadecl' datadeclList ih =>
    rw [groupIds, List.map_cons, List.nodup_cons] at hids
    rw [eqEnv, List.map_cons, List.lookup_cons]
    rcases List.mem_cons.1 hmem with rfl | hmem
    · simp
    · have hne : datadecl.id ≠ datadecl'.id := fun heq =>
        hids.1 (heq ▸ List.mem_map_of_mem hmem)
      simp only [beq_eq_false_iff_ne.2 hne]
      exact ih hids.2 hmem

theorem lookup_eqEnv_none (hid : id ∉ groupIds datadeclList) :
    (eqEnv datadeclList).lookup id = none := by
  rw [List.lookup_eq_none_iff]
  intro entry hmem
  obtain ⟨datadecl, hdecl, rfl⟩ := List.mem_map.1 hmem
  rw [bne_iff_ne]
  rintro rfl
  exact hid (List.mem_map_of_mem hdecl)

/-- The datatypes whose references hold true. -/
def flagged (datadeclList : List Datadecl) (refs : EqRef → Bool) : Set TypId :=
  {id | ∃ datadecl ∈ datadeclList, datadecl.id = id ∧ refs datadecl.admitsEqRef = true}

theorem mem_flagged (hids : (groupIds datadeclList).Nodup) (hmem : datadecl ∈ datadeclList) :
    datadecl.id ∈ flagged datadeclList refs ↔ refs datadecl.admitsEqRef = true := by
  constructor
  · rintro ⟨datadecl', hmem', hid, hflag⟩
    rwa [List.inj_on_of_nodup_map hids hmem' hmem hid] at hflag
  · intro hflag
    exact ⟨datadecl, hmem, rfl, hflag⟩

theorem groupAdmitsEq_refers {tfun : Tfun}
    (hcell : (heap.heap tfv).refersTo = some tfun) :
    groupAdmitsEq heap datadeclList refs (.tfunVar tfv) =
      groupAdmitsEq heap datadeclList refs tfun := by
  rw [groupAdmitsEq]
  split <;> simp_all [Tfunkind.refersTo]

theorem nameFlag_eq_none_iff {ids : List TypId} {tfunkind : Tfunkind} :
    nameFlag reading ids tfunkind = none ↔ ∃ tfun, tfunkind.refersTo = some tfun := by
  cases tfunkind <;> cases reading <;> simp [nameFlag, Tfunkind.refersTo]

/-- The flag of a datatype of the group that a name looks up. -/
theorem lookup_group (hids : (groupIds datadeclList).Nodup)
    {id' : TypId}
    (hflag : flagOf (groupIds datadeclList) id' admitsEq = .group id) :
    (match (eqEnv datadeclList).lookup id' with
      | some eqref => refs eqref
      | none => admitsEq) = true ↔ id ∈ flagged datadeclList refs := by
  rw [flagOf] at hflag
  split at hflag
  · next hmem =>
    cases hflag
    obtain ⟨datadecl, hdecl, rfl⟩ := List.mem_map.1 hmem
    rw [lookup_eqEnv hids hdecl, mem_flagged hids hdecl]
  · cases hflag

theorem lookup_stored {admitsEq' : Bool}
    (hflag : flagOf (groupIds datadeclList) id admitsEq' = .stored admitsEq) :
    (match (eqEnv datadeclList).lookup id with
      | some eqref => refs eqref
      | none => admitsEq') = admitsEq := by
  rw [flagOf] at hflag
  split at hflag
  · cases hflag
  · next hmem =>
    cases hflag
    rw [lookup_eqEnv_none hmem]

theorem groupAdmitsEq_stored (hcell : nameFlag .ofCell (groupIds datadeclList) (heap.heap tfv) =
      some (.stored admitsEq)) :
    groupAdmitsEq heap datadeclList refs (.tfunVar tfv) = admitsEq := by
  rw [groupAdmitsEq]
  split <;> rename_i heq <;> rw [heq] at hcell <;>
    simp only [nameFlag, Option.some.injEq, Flag.stored.injEq, reduceCtorEq] at hcell
  · exact hcell
  · exact lookup_stored hcell
  · exact lookup_stored hcell

theorem groupAdmitsEq_group (hids : (groupIds datadeclList).Nodup)
    (hcell : nameFlag .ofCell (groupIds datadeclList) (heap.heap tfv) = some (.group id)) :
    groupAdmitsEq heap datadeclList refs (.tfunVar tfv) = true ↔
      id ∈ flagged datadeclList refs := by
  rw [groupAdmitsEq]
  split <;> rename_i heq <;> rw [heq] at hcell <;>
    simp only [nameFlag, Option.some.injEq, reduceCtorEq] at hcell
  · exact lookup_group hids hcell
  · exact lookup_group hids hcell

theorem groupAdmitsEq_iff (hids : (groupIds datadeclList).Nodup)
    (tfun : Tfun) :
    groupAdmitsEq heap datadeclList refs tfun = true ↔
      TfunAdmits heap datadeclList .ofCell (flagged datadeclList refs) tfun := by
  induction tfun using heap.wellFounded.induction with
  | _ tfun ih =>
    cases tfun with
    | tfunDef admitsEq formals realizerTy =>
      rw [groupAdmitsEq]
      constructor
      · rintro rfl
        exact .tfunDef formals realizerTy
      · intro h
        cases h
        rfl
    | tfunVar tfv =>
      constructor
      · intro h
        cases hcell : (heap.heap tfv).refersTo with
        | some tfun =>
          rw [groupAdmitsEq_refers hcell] at h
          exact .refers hcell ((ih tfun ⟨tfv, rfl, hcell⟩).1 h)
        | none =>
          cases hflag : nameFlag .ofCell (groupIds datadeclList) (heap.heap tfv) with
          | some flag =>
            cases flag with
            | stored admitsEq =>
              rw [groupAdmitsEq_stored hflag] at h
              subst h
              exact .stored hflag
            | group id => exact .group hflag ((groupAdmitsEq_group hids hflag).1 h)
          | none =>
            obtain ⟨tfun, hrefers⟩ := nameFlag_eq_none_iff.1 hflag
            rw [hcell] at hrefers
            cases hrefers
      · intro h
        cases h with
        | refers hcell h =>
          rw [groupAdmitsEq_refers hcell]
          exact (ih _ ⟨tfv, rfl, hcell⟩).2 h
        | stored hflag => exact groupAdmitsEq_stored hflag
        | group hflag hid => exact (groupAdmitsEq_group hids hflag).2 hid

theorem tfunAdmits_mono {eq' : Set TypId} (hle : eq ⊆ eq') {tfun : Tfun}
    (h : TfunAdmits heap datadeclList reading eq tfun) :
    TfunAdmits heap datadeclList reading eq' tfun := by
  induction h with
  | tfunDef formals realizerTy => exact .tfunDef formals realizerTy
  | refers hcell _ ih => exact .refers hcell ih
  | stored hcell => exact .stored hcell
  | group hcell hid => exact .group hcell (hle hid)

theorem flagged_mono {refs' : EqRef → Bool} (hle : refs ≤ refs') :
    flagged datadeclList refs ⊆ flagged datadeclList refs' := by
  rintro id ⟨datadecl, hmem, hid, hflag⟩
  exact ⟨datadecl, hmem, hid, hle _ hflag⟩

theorem groupAdmitsEq_mono (hids : (groupIds datadeclList).Nodup) {refs' : EqRef → Bool}
    (hle : refs ≤ refs') :
    groupAdmitsEq heap datadeclList refs ≤ groupAdmitsEq heap datadeclList refs' := by
  intro tfun h
  rw [groupAdmitsEq_iff hids] at h ⊢
  exact tfunAdmits_mono (flagged_mono hle) h

theorem datadeclTest_antitone (hids : (groupIds datadeclList).Nodup) :
    Antitone (datadeclTest heap base datadeclList) :=
  fun _ _ hle datadecl => admitEqList_below (groupAdmitsEq_mono hids hle) datadecl.args _

theorem datadeclTest_sound (hids : (groupIds datadeclList).Nodup)
    (h : datadeclTest heap base datadeclList refs datadecl = .ok passed) :
    passed = true ↔ ∀ con ty, (con, some ty) ∈ datadecl.conSpec →
      Admits heap base (TfunAdmits heap datadeclList .ofCell (flagged datadeclList refs))
        datadecl.args ty := by
  have hfun : (fun tfun => groupAdmitsEq heap datadeclList refs tfun = true) =
      TfunAdmits heap datadeclList .ofCell (flagged datadeclList refs) :=
    funext fun tfun => propext (groupAdmitsEq_iff hids tfun)
  rw [← hfun]
  exact admitEqList_sound h

open Classical in
/-- References that hold true for the datatypes of a set. -/
noncomputable def refsOf (datadeclList : List Datadecl) (eq : Set TypId) (eqref : EqRef) : Bool :=
  decide (∃ datadecl ∈ datadeclList, datadecl.admitsEqRef = eqref ∧ datadecl.id ∈ eq)

theorem refsOf_iff (hrefs : (datadeclList.map Datadecl.admitsEqRef).Nodup)
    (hmem : datadecl ∈ datadeclList) :
    refsOf datadeclList eq datadecl.admitsEqRef = true ↔ datadecl.id ∈ eq := by
  simp only [refsOf, decide_eq_true_iff]
  constructor
  · rintro ⟨datadecl', hmem', href, hid⟩
    rwa [List.inj_on_of_nodup_map hrefs hmem' hmem href] at hid
  · intro hid
    exact ⟨datadecl, hmem, rfl, hid⟩

theorem flagged_refsOf (hids : (groupIds datadeclList).Nodup)
    (hrefs : (datadeclList.map Datadecl.admitsEqRef).Nodup)
    (heq : ∀ id ∈ eq, id ∈ groupIds datadeclList) :
    flagged datadeclList (refsOf datadeclList eq) = eq := by
  ext id
  constructor
  · rintro ⟨datadecl, hmem, rfl, hflag⟩
    exact (refsOf_iff hrefs hmem).1 hflag
  · intro hid
    obtain ⟨datadecl, hmem, rfl⟩ := List.mem_map.1 (heq id hid)
    exact (mem_flagged hids hmem).2 ((refsOf_iff hrefs hmem).2 hid)

/-- If each test of the first round returns, the rounds end with the greatest
assignment for the flags that the cells hold. -/
theorem setEq_ofCell (hids : (groupIds datadeclList).Nodup)
    (hrefs : (datadeclList.map Datadecl.admitsEqRef).Nodup)
    (hstart : ∀ datadecl ∈ datadeclList, refs datadecl.admitsEqRef = true)
    (htests : TestsInOrder Datadecl.admitsEqRef (datadeclTest heap base datadeclList) refs
      datadeclList) :
    ∃ fuel refs', setEq heap base fuel refs datadeclList = .ok refs' ∧
      IsGreatest (assignments heap base datadeclList .ofCell) (flagged datadeclList refs') := by
  obtain ⟨fuel, refs', hsweeps, _, htests, hstands, hgreatest⟩ :=
    htests.sweeps .diverges (datadeclTest_antitone hids)
  refine ⟨fuel, refs', hsweeps, ⟨?_, ?_⟩, ?_⟩
  · rintro id ⟨datadecl, hmem, rfl, _⟩
    exact List.mem_map_of_mem hmem
  · intro datadecl hmem hid
    have hflag := (mem_flagged hids hmem).1 hid
    obtain ⟨passed, htest⟩ := htests datadecl hmem hflag
    have hpassed : passed = true := by
      cases passed with
      | true => rfl
      | false => exact absurd htest (hstands datadecl hmem hflag)
    exact (datadeclTest_sound hids htest).1 hpassed
  · rintro eq ⟨hsub, hadmits⟩
    have hle : refsOf datadeclList eq ≤ refs := by
      intro eqref h
      simp only [refsOf, decide_eq_true_iff] at h
      obtain ⟨datadecl, hmem, rfl, _⟩ := h
      exact hstart datadecl hmem
    have hstands' : Stands Datadecl.admitsEqRef (datadeclTest heap base datadeclList)
        (refsOf datadeclList eq) datadeclList := by
      intro datadecl hmem hflag htest
      refine Bool.false_ne_true ((datadeclTest_sound hids htest).2 ?_)
      rw [flagged_refsOf hids hrefs hsub]
      exact hadmits datadecl hmem ((refsOf_iff hrefs hmem).1 hflag)
    have hmono : flagged datadeclList (refsOf datadeclList eq) ⊆ flagged datadeclList refs' :=
      flagged_mono (hgreatest _ hle hstands')
    rwa [flagged_refsOf hids hrefs hsub] at hmono

end References

theorem mem_of_nameFlag {ids : List TypId} {tfunkind : Tfunkind}
    (h : nameFlag reading ids tfunkind = some (.group id)) : id ∈ ids := by
  have hflag : ∀ (id' : TypId) (admitsEq : Bool),
      flagOf ids id' admitsEq = .group id → id ∈ ids := by
    intro id' admitsEq h
    rw [flagOf] at h
    split at h
    · next hmem =>
      cases h
      exact hmem
    · cases h
  cases tfunkind with
  | tfvSpec id' admitsEq _ =>
    cases reading with
    | ofGroup => exact hflag id' admitsEq (Option.some.inj h)
    | ofCell => cases h
  | tfvDty id' admitsEq _ _ _ => exact hflag id' admitsEq (Option.some.inj h)
  | tfunDty id' admitsEq _ _ _ _ => exact hflag id' admitsEq (Option.some.inj h)
  | realized _ _ => cases h
  | instantiated _ _ => cases h
  | funDty _ => cases h

section Reasons

variable {heap : AcyclicHeap} {base : EqBase} {datadeclList : List Datadecl}
  {reading : Reading}

/-- The subject admits equality if the datatypes of `eq` do. -/
def SubjectAdmits (heap : AcyclicHeap) (base : EqBase) (datadeclList : List Datadecl)
    (reading : Reading) (eq : Set TypId) : Subject → Prop
  | .ty tvarList ty => Admits heap base (TfunAdmits heap datadeclList reading eq) tvarList ty
  | .tfun tfun => TfunAdmits heap datadeclList reading eq tfun
  | .datatype id => id ∈ eq

/-- What lacks equality has it under no assignment. -/
theorem Lacks.not_admits (heq : eq ∈ assignments heap base datadeclList reading)
    {subject : Subject} (h : Lacks heap base datadeclList reading subject) :
    ¬ SubjectAdmits heap base datadeclList reading eq subject := by
  induction h with
  | tyWild => simp [SubjectAdmits, Admits]
  | tyError => simp [SubjectAdmits, Admits]
  | inferredTy => simp [SubjectAdmits, Admits]
  | tyFunM => simp [SubjectAdmits, Admits]
  | tyVar h => simpa [SubjectAdmits, Admits] using h
  | tyFreeTyvar h => simpa [SubjectAdmits, Admits] using h
  | field hmem _ ih =>
    rw [SubjectAdmits, Admits, admitsFields_iff]
    exact fun hall => ih (hall _ _ hmem)
  | name href _ ih =>
    rw [SubjectAdmits, Admits]
    rintro (href' | ⟨htfun, _⟩)
    · exact href href'
    · exact ih htfun
  | arg href hmem _ ih =>
    rw [SubjectAdmits, Admits, admitsList_iff]
    rintro (href' | ⟨_, hall⟩)
    · exact href href'
    · exact ih (hall _ hmem)
  | bound hmem h =>
    rw [SubjectAdmits, Admits]
    exact fun hadmits => h (hadmits.1 _ hmem)
  | body _ ih =>
    rw [SubjectAdmits, Admits]
    exact fun hadmits => ih hadmits.2
  | tfunDef formals realizerTy =>
    intro h
    cases h
  | refers hcell _ ih =>
    intro h
    cases h with
    | refers hcell' h =>
      rw [hcell, Option.some.injEq] at hcell'
      exact ih (hcell' ▸ h)
    | stored hflag => rw [nameFlag_eq_none_iff.2 ⟨_, hcell⟩] at hflag; cases hflag
    | group hflag _ => rw [nameFlag_eq_none_iff.2 ⟨_, hcell⟩] at hflag; cases hflag
  | stored hcell =>
    intro h
    cases h with
    | refers hcell' _ => rw [nameFlag_eq_none_iff.2 ⟨_, hcell'⟩] at hcell; cases hcell
    | stored hflag => rw [hcell] at hflag; cases hflag
    | group hflag _ => rw [hcell] at hflag; cases hflag
  | group hcell _ ih =>
    intro h
    cases h with
    | refers hcell' _ => rw [nameFlag_eq_none_iff.2 ⟨_, hcell'⟩] at hcell; cases hcell
    | stored hflag => rw [hcell] at hflag; cases hflag
    | group hflag hid =>
      rw [hcell] at hflag
      cases hflag
      exact ih hid
  | datatype hdecl hcon _ ih => exact fun hid => ih (heq.2 _ hdecl hid _ _ hcon)

/-- The datatypes of the group that have no reason to lack equality. -/
def eqDatatypes (heap : AcyclicHeap) (base : EqBase) (datadeclList : List Datadecl)
    (reading : Reading) : Set TypId :=
  {id | id ∈ groupIds datadeclList ∧ ¬ Lacks heap base datadeclList reading (.datatype id)}

theorem tfunAdmits_or_lacks (tfun : Tfun) :
    TfunAdmits heap datadeclList reading (eqDatatypes heap base datadeclList reading) tfun ∨
      Lacks heap base datadeclList reading (.tfun tfun) := by
  induction tfun using heap.wellFounded.induction with
  | _ tfun ih =>
    cases tfun with
    | tfunDef admitsEq formals realizerTy =>
      cases admitsEq with
      | true => exact Or.inl (.tfunDef formals realizerTy)
      | false => exact Or.inr (.tfunDef formals realizerTy)
    | tfunVar tfv =>
      cases hflag : nameFlag reading (groupIds datadeclList) (heap.heap tfv) with
      | none =>
        obtain ⟨tfun, hcell⟩ := nameFlag_eq_none_iff.1 hflag
        rcases ih tfun ⟨tfv, rfl, hcell⟩ with hadmits | hlacks
        · exact Or.inl (.refers hcell hadmits)
        · exact Or.inr (.refers hcell hlacks)
      | some flag =>
        cases flag with
        | stored admitsEq =>
          cases admitsEq with
          | true => exact Or.inl (.stored hflag)
          | false => exact Or.inr (.stored hflag)
        | group id =>
          by_cases hlacks : Lacks heap base datadeclList reading (.datatype id)
          · exact Or.inr (.group hflag hlacks)
          · exact Or.inl (.group hflag ⟨mem_of_nameFlag hflag, hlacks⟩)

mutual

theorem admits_or_lacks (tvarList : List Tvar) : ∀ ty : Ty,
    Admits heap base (TfunAdmits heap datadeclList reading
        (eqDatatypes heap base datadeclList reading)) tvarList ty ∨
      Lacks heap base datadeclList reading (.ty tvarList ty)
  | .tyWild => Or.inr .tyWild
  | .tyError => Or.inr .tyError
  | .tyVar tvar => by
      rw [Admits]
      by_cases h : eqtvar base tvarList tvar = true
      · exact Or.inl h
      · exact Or.inr (.tyVar h)
  | .tyFreeTyvar id => by
      rw [Admits]
      by_cases h : base.isEqFree id = true
      · exact Or.inl h
      · exact Or.inr (.tyFreeTyvar h)
  | .tyRecord _ fields => by
      rw [Admits]
      rcases admitsFields_or_lacks tvarList fields with h | ⟨label, ty, hmem, h⟩
      · exact Or.inl h
      · exact Or.inr (.field hmem h)
  | .tyConstruct tfun args => by
      rw [Admits]
      by_cases href : isRefOrArray heap base tfun = true
      · exact Or.inl (Or.inl href)
      · rcases tfunAdmits_or_lacks tfun with htfun | htfun
        · rcases admitsList_or_lacks tvarList args with hargs | ⟨ty, hmem, h⟩
          · exact Or.inl (Or.inr ⟨htfun, hargs⟩)
          · exact Or.inr (.arg href hmem h)
        · exact Or.inr (.name href htfun)
  | .tyFunM _ _ => Or.inr .tyFunM
  | .tyPoly kindedTvarList ty => by
      rw [Admits]
      by_cases hkinds : ∀ kindedTvar ∈ kindedTvarList, kindedTvar.2.properties.eq = true
      · rcases admits_or_lacks (kindedTvarList.map Prod.fst ++ tvarList) ty with h | h
        · exact Or.inl ⟨hkinds, h⟩
        · exact Or.inr (.body h)
      · push Not at hkinds
        obtain ⟨kindedTvar, hmem, h⟩ := hkinds
        exact Or.inr (.bound hmem h)
  | .inferredTy => Or.inr .inferredTy

theorem admitsFields_or_lacks (tvarList : List Tvar) : ∀ fields : List (String × Ty),
    AdmitsFields heap base (TfunAdmits heap datadeclList reading
        (eqDatatypes heap base datadeclList reading)) tvarList fields ∨
      ∃ label ty, (label, ty) ∈ fields ∧ Lacks heap base datadeclList reading (.ty tvarList ty)
  | [] => Or.inl trivial
  | (label, ty) :: fields => by
      rw [AdmitsFields]
      rcases admits_or_lacks tvarList ty with hty | hty
      · rcases admitsFields_or_lacks tvarList fields with h | ⟨label', ty', hmem, h⟩
        · exact Or.inl ⟨hty, h⟩
        · exact Or.inr ⟨label', ty', List.mem_cons_of_mem _ hmem, h⟩
      · exact Or.inr ⟨label, ty, List.mem_cons_self, hty⟩

theorem admitsList_or_lacks (tvarList : List Tvar) : ∀ tys : List Ty,
    AdmitsList heap base (TfunAdmits heap datadeclList reading
        (eqDatatypes heap base datadeclList reading)) tvarList tys ∨
      ∃ ty ∈ tys, Lacks heap base datadeclList reading (.ty tvarList ty)
  | [] => Or.inl trivial
  | ty :: tys => by
      rw [AdmitsList]
      rcases admits_or_lacks tvarList ty with hty | hty
      · rcases admitsList_or_lacks tvarList tys with h | ⟨ty', hmem, h⟩
        · exact Or.inl ⟨hty, h⟩
        · exact Or.inr ⟨ty', List.mem_cons_of_mem _ hmem, h⟩
      · exact Or.inr ⟨ty, List.mem_cons_self, hty⟩

end

theorem eqDatatypes_isGreatest :
    IsGreatest (assignments heap base datadeclList reading)
      (eqDatatypes heap base datadeclList reading) := by
  refine ⟨⟨fun id hid => hid.1, ?_⟩, ?_⟩
  · intro datadecl hdecl hid con ty hcon
    rcases admits_or_lacks datadecl.args ty with h | h
    · exact h
    · exact absurd (Lacks.datatype hdecl hcon h) hid.2
  · intro eq heq id hid
    exact ⟨heq.1 id hid, fun hlacks => hlacks.not_admits heq hid⟩

end Reasons

/-- `setEq` ends without an internal error and leaves the greatest assignment
of flags to the datatypes of the group. -/
def MaximisesEq (heap : AcyclicHeap) (base : EqBase) (refs : EqRef → Bool)
    (datadeclList : List Datadecl) : Prop :=
  ∃ fuel refs', setEq heap base fuel refs datadeclList = .ok refs' ∧
    IsGreatest (assignments heap base datadeclList .ofGroup) (flagged datadeclList refs')

/-- `setEq` leaves the greatest assignment exactly if its first round meets no
polytype, and each datatype that lacks equality also lacks it when names in
`tfvSpec` cells have the flags of their cells. -/
theorem setEq_maximises_iff (heap : AcyclicHeap) (base : EqBase) (refs : EqRef → Bool)
    (datadeclList : List Datadecl) (hids : (groupIds datadeclList).Nodup)
    (hrefs : (datadeclList.map Datadecl.admitsEqRef).Nodup)
    (hstart : ∀ datadecl ∈ datadeclList, refs datadecl.admitsEqRef = true) :
    MaximisesEq heap base refs datadeclList ↔
      TestsInOrder Datadecl.admitsEqRef (datadeclTest heap base datadeclList) refs
          datadeclList ∧
        ∀ id ∈ groupIds datadeclList,
          Lacks heap base datadeclList .ofGroup (.datatype id) ↔
            Lacks heap base datadeclList .ofCell (.datatype id) := by
  constructor
  · rintro ⟨fuel, refs', hok, hgroup⟩
    have htests := testsInOrder_of_sweeps hok
    refine ⟨htests, ?_⟩
    obtain ⟨fuel', refs'', hok', hcell⟩ := setEq_ofCell hids hrefs hstart htests
    rw [← sweeps_unique hok hok'] at hcell
    have hsame : eqDatatypes heap base datadeclList .ofGroup =
        eqDatatypes heap base datadeclList .ofCell :=
      (eqDatatypes_isGreatest.unique hgroup).trans (hcell.unique eqDatatypes_isGreatest)
    intro id hid
    have hiff : id ∈ eqDatatypes heap base datadeclList .ofGroup ↔
        id ∈ eqDatatypes heap base datadeclList .ofCell := by rw [hsame]
    exact not_iff_not.1 ((and_congr_right_iff.1 hiff) hid)
  · rintro ⟨htests, hlacks⟩
    obtain ⟨fuel, refs', hok, hcell⟩ := setEq_ofCell hids hrefs hstart htests
    refine ⟨fuel, refs', hok, ?_⟩
    have hsame : eqDatatypes heap base datadeclList .ofGroup =
        eqDatatypes heap base datadeclList .ofCell := by
      ext id
      exact and_congr_right fun hid => not_congr (hlacks id hid)
    rw [hcell.unique eqDatatypes_isGreatest, ← hsame]
    exact eqDatatypes_isGreatest

/-- The cells of `datatype t = A of int -> int and u = B of t` while its
constructors are evaluated: cell 0 is that of `t`, cell 1 that of `u`. -/
def specHeap : AcyclicHeap where
  heap tfv := .tfvSpec tfv true []
  wellFounded := ⟨fun tfun => ⟨tfun, fun _ ⟨_, _, hcell⟩ => nomatch hcell⟩⟩

def specBase : EqBase where
  isEq _ := false
  isEqFree _ := false
  arrayTyCon := 10
  refTyCon := 11

def intTy : Ty := .tyConstruct (.tfunVar 2) []

def funDecl : Datadecl := ⟨0, 0, [], [("A", some (.tyFunM [intTy] intTy))]⟩

def useDecl : Datadecl := ⟨1, 1, [], [("B", some (.tyConstruct (.tfunVar 0) []))]⟩

/-- The cells of the datatypes of a signature. -/
def signatureHeap : AcyclicHeap where
  heap tfv := .tfvDty tfv true [] [] []
  wellFounded := ⟨fun tfun => ⟨tfun, fun _ ⟨_, _, hcell⟩ => nomatch hcell⟩⟩

def treeDecl : Datadecl :=
  ⟨0, 0, [], [("Leaf", none), ("Node", some (.tyConstruct (.tfunVar 1) []))]⟩

def forestDecl : Datadecl := ⟨1, 1, [], [("Nil", none),
  ("Cons", some (.tyConstruct (.tfunVar 0) [])), ("Lazy", some (.tyFunM [intTy] intTy))]⟩

def countDecl : Datadecl := ⟨3, 3, [], [("Count", some intTy)]⟩

def forestGroup : List Datadecl := [treeDecl, forestDecl, countDecl]

theorem forest_lacks (reading : Reading) :
    Lacks signatureHeap specBase forestGroup reading (.datatype 1) :=
  .datatype (show forestDecl ∈ forestGroup by simp [forestGroup])
    (show ("Lazy", some (.tyFunM [intTy] intTy)) ∈ forestDecl.conSpec by simp [forestDecl]) .tyFunM

theorem tree_lacks (reading : Reading) :
    Lacks signatureHeap specBase forestGroup reading (.datatype 0) := by
  have hname : ¬ isRefOrArray signatureHeap specBase (.tfunVar 1) = true := by
    simp [isRefOrArray, eqTfunId, signatureHeap, specBase]
  exact .datatype (show treeDecl ∈ forestGroup by simp [forestGroup])
    (show ("Node", some (.tyConstruct (.tfunVar 1) [])) ∈ treeDecl.conSpec by simp [treeDecl])
    (.name hname (.group rfl (forest_lacks reading)))

theorem not_count_lacks (reading : Reading) :
    ¬ Lacks signatureHeap specBase forestGroup reading (.datatype 3) := by
  have hstands : {3} ∈ assignments signatureHeap specBase forestGroup reading := by
    refine ⟨fun id hid => by cases hid; decide, fun datadecl hdecl hid con ty hcon => ?_⟩
    simp only [forestGroup, List.mem_cons, List.not_mem_nil, or_false] at hdecl
    rcases hdecl with rfl | rfl | rfl
    · cases hid
    · cases hid
    · cases List.mem_singleton.1 hcon
      rw [intTy, Admits]
      exact Or.inr ⟨.stored rfl, trivial⟩
  exact fun hlacks => hlacks.not_admits hstands rfl

/-- `tree` and `forest` refer to each other.  The first round takes the flag of
`forest`, the second that of `tree`, which passed its test in the first; `count`
keeps its flag. -/
theorem setEq_maximises_iff_forest :
    MaximisesEq signatureHeap specBase (fun _ => true) forestGroup := by
  refine (setEq_maximises_iff signatureHeap specBase (fun _ => true) _ (by decide) (by decide)
    (fun _ _ => rfl)).2 ⟨?_, fun id hid => ?_⟩
  · simp [TestsInOrder, datadeclTest, forestGroup, treeDecl, forestDecl, countDecl, intTy,
      admitEqList, eqTy, eqList, isRefOrArray, eqTfunId, groupAdmitsEq, eqEnv, specBase,
      signatureHeap, List.lookup_cons, bind, Except.bind]
  · simp only [groupIds, forestGroup, List.map_cons, List.map_nil, List.mem_cons,
      List.not_mem_nil, or_false] at hid
    rcases hid with rfl | rfl | rfl
    · exact iff_of_true (tree_lacks _) (tree_lacks _)
    · exact iff_of_true (forest_lacks _) (forest_lacks _)
    · exact iff_of_false (not_count_lacks _) (not_count_lacks _)

/-- `u` keeps its flag, although the datatype `t` of its constructor loses its. -/
theorem setEq_keeps_flag :
    (groupIds [funDecl, useDecl]).Nodup ∧
      ([funDecl, useDecl].map Datadecl.admitsEqRef).Nodup ∧
      ¬ MaximisesEq specHeap specBase (fun _ => true) [funDecl, useDecl] := by
  refine ⟨by decide, by decide, ?_⟩
  rintro ⟨fuel, refs', hok, ⟨_, hgroup⟩, _⟩
  obtain ⟨fuel', refs'', hok', _, hcell⟩ := setEq_ofCell (by decide) (by decide)
    (fun _ _ => rfl) (testsInOrder_of_sweeps hok)
  rw [← sweeps_unique hok hok'] at hcell
  have huse : useDecl.id ∈ flagged [funDecl, useDecl] refs' := by
    refine hcell (show {useDecl.id} ∈ _ from ⟨?_, ?_⟩) rfl
    · rintro id rfl
      decide
    · intro datadecl hdecl hid con ty hcon
      rcases List.mem_pair.1 hdecl with rfl | rfl
      · cases hid
      · cases List.mem_singleton.1 hcon
        rw [Admits]
        exact Or.inr ⟨.stored rfl, trivial⟩
  have hnoref : isRefOrArray specHeap specBase (.tfunVar 0) = false := by
    simp [isRefOrArray, eqTfunId, specHeap, specBase]
  have hadmits := hgroup useDecl (by simp) huse "B" _ List.mem_cons_self
  rw [Admits, hnoref] at hadmits
  rcases hadmits with href | ⟨htfun, _⟩
  · cases href
  · cases htfun with
    | refers hcell _ => cases hcell
    | stored hflag => cases hflag
    | group hflag hid =>
      cases hflag
      have hfun := hgroup funDecl (by simp) hid "A" _ List.mem_cons_self
      rw [Admits] at hfun
      exact hfun

end SmlSharp.NameEvaluation
