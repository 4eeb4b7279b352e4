/-
Which of the forms that the compilation removes are left in its output.
-/
import SmlSharp.FFICompilation.Nodes

namespace SmlSharp.FFICompilation

open RecordLabel (Label)

/-! ### Constructors -/

theorem labelMapFromList_ok {α : Type} (fields : List (Label × α)) :
    ∃ entries, labelMapFromList fields = .ok entries ∧ ∀ entry ∈ entries, entry ∈ fields := by
  obtain ⟨map, hmap, hmem⟩ := BinaryMap.insertAll_total RecordLabel.compare fields
  refine ⟨map.listItemsi, ?_, hmem⟩
  rw [labelMapFromList, hmap]

theorem mem_of_labelMapFromList {α : Type} {fields entries : List (Label × α)}
    (h : labelMapFromList fields = .ok entries) {entry : Label × α} (hmem : entry ∈ entries) :
    entry ∈ fields := by
  obtain ⟨entries', hok, hall⟩ := labelMapFromList_ok fields
  rw [h] at hok
  cases hok
  exact hall entry hmem

theorem mem_tupleListFrom {α : Type} {n : Nat} {values : List α} {entry : Label × α}
    (hmem : entry ∈ tupleListFrom n values) : entry.2 ∈ values := by
  induction values generalizing n with
  | nil => cases hmem
  | cons value values ih =>
    rcases List.mem_cons.1 hmem with rfl | hmem
    · exact List.mem_cons_self
    · exact List.mem_cons_of_mem _ (ih hmem)

theorem eliminated_tpVar (var : VarInfo) : Eliminated (.tpVar var) :=
  eliminated_iff.2 ⟨rfl, by simp [children]⟩

theorem eliminated_tpLet {decls : List Tpdecl} {body : Exp} :
    Eliminated (TypedCalcCon.tpLet decls body).1 ↔
      (∀ exp ∈ declsExps decls, Eliminated exp) ∧ Eliminated body.1 := by
  rw [TypedCalcCon.tpLet.eq_def]
  split
  · simp [declsExps]
  · next decls2 body _ _ =>
    rw [eliminated_iff, @eliminated_iff (.tpLet decls2 body)]
    simp only [children, isSurface, declsExps, List.flatMap_append, List.mem_append, true_and,
      List.mem_singleton]
    grind
  · rw [eliminated_iff]
    simp only [children, isSurface, List.mem_append, true_and, List.mem_singleton]
    grind

theorem eliminated_tpFnM {argVarList : List VarInfo} {bodyExp : Exp} :
    Eliminated (TypedCalcCon.tpFnM argVarList bodyExp).1 ↔ Eliminated bodyExp.1 := by
  rw [TypedCalcCon.tpFnM, eliminated_iff]
  simp [children, isSurface]

variable {attributes : Attributes} {funExp exp : Exp} {ty : Ty} {exps : List Exp} {next' : Nat}
  {result : Ty × Stub} {instTyList : List Ty} {exVarInfo : ExVarInfo} {exp' : Tpexp}

theorem eliminated_tpCallbackFn {argVarList : List VarInfo}
    {bodyExp : Exp} {isVoid : Bool} :
    Eliminated (TypedCalcCon.tpCallbackFn attributes argVarList bodyExp isVoid).1 ↔
      Eliminated bodyExp.1 := by
  rw [TypedCalcCon.tpCallbackFn, eliminated_iff]
  simp [children, isSurface]

theorem eliminated_bindArgs {vars : List VarInfo} {exps : List Tpexp} {decls : List Tpdecl}
    (h : TypedCalcCon.bindArgs vars exps = .ok decls) : declsExps decls = exps := by
  induction vars generalizing exps decls with
  | nil =>
    cases exps with
    | nil =>
      cases h
      rfl
    | cons exp exps => cases h
  | cons var vars ih =>
    cases exps with
    | nil => cases h
    | cons exp exps =>
      obtain ⟨decls1, hdecls, h⟩ := except_bind_ok.1 h
      cases h
      rw [declsExps, List.flatMap_cons, ← declsExps, ih hdecls]
      rfl

theorem eliminated_tpAppM {app : Exp} {argExpList : List Exp}
    (hfun : Eliminated funExp.1) (hargs : ∀ arg ∈ argExpList, Eliminated arg.1)
    (h : TypedCalcCon.tpAppM funExp argExpList = .ok app) : Eliminated app.1 := by
  have hargs' : ∀ arg ∈ argExpList.map Prod.fst, Eliminated arg := by
    intro arg hmem
    obtain ⟨exp, hexp, rfl⟩ := List.mem_map.1 hmem
    exact hargs exp hexp
  obtain ⟨exp, hexp, h⟩ := except_bind_ok.1 h
  have happ : app.1 = exp := by
    split at h
    · cases h
      rfl
    · cases h
  rw [happ]
  rw [TypedCalcCon.appExp.eq_def] at hexp
  split at hexp
  · next argVarList _ bodyExp hfunExp =>
    obtain ⟨decls, hdecls, hexp⟩ := except_bind_ok.1 hexp
    cases hexp
    rw [hfunExp] at hfun
    refine eliminated_iff.2 ⟨rfl, ?_⟩
    intro child hchild
    rcases List.mem_append.1 hchild with hchild | hchild
    · rw [eliminated_bindArgs hdecls] at hchild
      exact hargs' child hchild
    · exact (eliminated_iff.1 hfun).2 child hchild
  · cases hexp
    refine eliminated_iff.2 ⟨rfl, ?_⟩
    intro child hchild
    rcases List.mem_cons.1 hchild with rfl | hchild
    · exact hfun
    · exact hargs' child hchild

theorem eliminated_tpForeignApply {app : Exp} {argExpList : List Exp}
    (hargs : ∀ arg ∈ argExpList, Eliminated arg.1)
    (h : TypedCalcCon.tpForeignApply funExp argExpList = .ok app) :
    Eliminated app.1 ↔ Eliminated funExp.1 := by
  rw [TypedCalcCon.tpForeignApply.eq_def] at h
  split at h
  · split at h
    · cases h
      rw [eliminated_iff]
      constructor
      · rintro ⟨_, hchildren⟩
        exact hchildren _ List.mem_cons_self
      · intro hfun
        refine ⟨rfl, ?_⟩
        intro child hchild
        rcases List.mem_cons.1 hchild with rfl | hchild
        · exact hfun
        · obtain ⟨arg, harg, rfl⟩ := List.mem_map.1 hchild
          exact hargs arg harg
    · cases h
  · cases h

theorem eliminated_tpSelect {selected : Exp} {label : Label} (hexp : Eliminated exp.1)
    (h : TypedCalcCon.tpSelect exp label = .ok selected) : Eliminated selected.1 := by
  obtain ⟨ty, _, h⟩ := except_bind_ok.1 h
  cases h
  exact eliminated_iff.2 ⟨rfl, by simpa [children] using hexp⟩

theorem eliminated_bitCast {cast : Exp} (h : bitCast exp ty = .ok cast) :
    Eliminated cast.1 ↔ Eliminated exp.1 := by
  cases h
  rw [eliminated_iff]
  simp [children, isSurface]

/-! ### Stubs -/

/-- The conversion keeps the forms out of an expression. -/
def Pure (stub : Stub) : Prop :=
  ∀ exp exp', Eliminated exp.1 → stub exp = .ok exp' → Eliminated exp'.1

/-- The converted expression has one of the forms only if the expression has. -/
def Exact (stub : Stub) : Prop :=
  ∀ exp exp', stub exp = .ok exp' → (Eliminated exp'.1 ↔ Eliminated exp.1)

theorem Exact.pure {stub : Stub} (h : Exact stub) : Pure stub :=
  fun exp exp' hexp hok => (h exp exp' hok).2 hexp

theorem exact_ok : Exact .ok := by
  intro exp exp' h
  cases h
  rfl

theorem zipApp_eliminated {stubs : List Stub} {exps' : List Exp}
    (hstubs : ∀ stub ∈ stubs, Pure stub) (hexps : ∀ exp ∈ exps, Eliminated exp.1)
    (h : zipApp stubs exps = .ok exps') : ∀ exp ∈ exps', Eliminated exp.1 := by
  induction stubs generalizing exps exps' with
  | nil =>
    cases exps with
    | nil =>
      cases h
      simp
    | cons exp exps => cases h
  | cons stub stubs ih =>
    cases exps with
    | nil => cases h
    | cons exp exps =>
      obtain ⟨exp', hexp, h⟩ := except_bind_ok.1 h
      obtain ⟨exps1, hexps1, h⟩ := except_bind_ok.1 h
      cases h
      rw [List.forall_mem_cons] at hstubs hexps ⊢
      exact ⟨hstubs.1 exp exp' hexps.1 hexp, ih hstubs.2 hexps.2 hexps1⟩

theorem implodeRecord_eliminated {fields : List (Label × Exp)}
    (hfields : ∀ field ∈ fields, Eliminated field.2.1) (h : implodeRecord fields = .ok exp) :
    Eliminated exp.1 := by
  obtain ⟨entries, hentries, h⟩ := except_bind_ok.1 h
  cases h
  refine eliminated_iff.2 ⟨rfl, ?_⟩
  intro child hchild
  simp only [children, TypedCalcCon.tpRecord, bodies, List.map_map, List.mem_map,
    Function.comp_apply] at hchild
  obtain ⟨entry, hentry, rfl⟩ := hchild
  exact hfields entry (mem_of_labelMapFromList hentries hentry)

theorem composeArg_eliminated
    (hexps : ∀ exp ∈ exps, Eliminated exp.1) (h : composeArg exps = .ok exp) :
    Eliminated exp.1 := by
  rw [composeArg.eq_def] at h
  split at h
  · cases h
    exact eliminated_iff.2 ⟨rfl, by simp [children, unitExp]⟩
  · cases h
    exact hexps _ List.mem_cons_self
  · exact implodeRecord_eliminated (fun field hfield => hexps _ (mem_tupleListFrom hfield)) h

theorem mapM_tpSelect_eliminated {labels : List Label} (hexp : Eliminated exp.1)
    (h : (labels.mapM fun label => TypedCalcCon.tpSelect exp label) = .ok exps) :
    ∀ exp ∈ exps, Eliminated exp.1 := by
  induction labels generalizing exps with
  | nil =>
    cases h
    simp
  | cons label labels ih =>
    rw [List.mapM_cons] at h
    obtain ⟨selected, hselected, h⟩ := except_bind_ok.1 h
    obtain ⟨exps1, hexps1, h⟩ := except_bind_ok.1 h
    cases h
    rw [List.forall_mem_cons]
    exact ⟨eliminated_tpSelect hexp hselected, ih hexps1⟩

theorem explodeRecord_eliminated (hexp : Eliminated exp.1)
    (h : explodeRecord exp = .ok exps) : ∀ exp ∈ exps, Eliminated exp.1 := by
  rw [explodeRecord.eq_def] at h
  split at h
  · next fields recordTy tys =>
    split at h
    · cases h
      intro exp hmem
      exact (eliminated_iff.1 hexp).2 exp.1 (List.of_mem_zip hmem).1
    · cases h
  · exact mapM_tpSelect_eliminated hexp h
  · cases h

theorem decomposeArg_eliminated {tys : List Ty} {result : VarInfo × List Exp} {next : Nat}
    (h : decomposeArg tys next = .ok (result, next')) :
    ∀ exp ∈ result.2, Eliminated exp.1 := by
  rw [decomposeArg.eq_def] at h
  split at h
  · obtain ⟨var, next1, _, h⟩ := stateT_bind_ok.1 h
    cases h
    simp
  · obtain ⟨var, next1, _, h⟩ := stateT_bind_ok.1 h
    cases h
    simp only [List.mem_singleton, forall_eq]
    exact eliminated_tpVar var
  · obtain ⟨fields, next1, _, h⟩ := stateT_bind_ok.1 h
    obtain ⟨var, next2, _, h⟩ := stateT_bind_ok.1 h
    obtain ⟨exps, next3, hexps, h⟩ := stateT_bind_ok.1 h
    cases h
    obtain ⟨value, hexplode, heq⟩ := stateT_lift_ok.1 hexps
    cases heq
    exact explodeRecord_eliminated (eliminated_tpVar var) hexplode

def AllPure (stubs : List (Ty × Stub)) : Prop := ∀ stub ∈ stubs.map Prod.snd, Pure stub

theorem allPure_nil : AllPure [] := by simp [AllPure]

theorem AllPure.cons {stub : Ty × Stub} {stubs : List (Ty × Stub)} (hstub : Pure stub.2)
    (hstubs : AllPure stubs) : AllPure (stub :: stubs) :=
  List.forall_mem_cons.2 ⟨hstub, hstubs⟩

theorem callbackStub_pure {args : List (Ty × Stub)}
    {stubRets : Gen (List (Ty × Stub))} {next : Nat} (hargs : AllPure args)
    (hrets : ∀ next rets next', stubRets next = .ok (rets, next') → AllPure rets)
    (h : callbackStub attributes args stubRets next = .ok (result, next')) :
    Pure result.2 := by
  obtain ⟨ffiArgVars, next1, argExps, argExp, rets, next2, retVar, retExps, ffiRetExps, ffiRetExp,
    _, hargExps, hargExp, hrets', hdecompose, hffiRetExps, hffiRetExp, rfl⟩ := callbackStub_ok h
  have hvars : ∀ exp ∈ ffiArgVars.map TypedCalcCon.tpVar, Eliminated exp.1 := by
    intro exp hmem
    obtain ⟨var, _, rfl⟩ := List.mem_map.1 hmem
    exact eliminated_tpVar var
  have harg : Eliminated argExp.1 :=
    composeArg_eliminated (zipApp_eliminated hargs hvars hargExps) hargExp
  have hret : Eliminated ffiRetExp.1 :=
    composeArg_eliminated (zipApp_eliminated (hrets _ _ _ hrets')
      (decomposeArg_eliminated hdecompose) hffiRetExps) hffiRetExp
  intro funExp exp' hfun hexp
  obtain ⟨app, happ, hexp⟩ := except_bind_ok.1 hexp
  cases hexp
  have happ' := eliminated_tpAppM hfun (List.forall_mem_singleton.2 harg) happ
  rw [eliminated_tpCallbackFn, eliminated_tpLet]
  exact ⟨by simpa [declsExps, declExps, TypedCalcCon.tpVal] using happ', hret⟩

theorem functionStub_exact {args1 : List (Ty × Stub)}
    {args2 : Option (List (Ty × Stub))} {stubRets : Gen (List (Ty × Stub))} {next : Nat}
    (hargs1 : AllPure args1)
    (hargs2 : AllPure (args2.getD []))
    (hrets : ∀ next rets next', stubRets next = .ok (rets, next') → AllPure rets)
    (h : functionStub attributes args1 args2 stubRets next = .ok (result, next')) :
    Exact result.2 := by
  obtain ⟨argVar, argExps, next1, ffiArgExps, rets, next2, ffiRetTy, ffiRetVar, ffiRetExps, retExps,
    retExp, hdecompose, hffiArgExps, hrets', _, hdecompose', hretExps, hretExp, rfl⟩ :=
    functionStub_ok h
  have hstubs : ∀ stub ∈ args1.map Prod.snd ++ (args2.getD []).map Prod.snd, Pure stub :=
    List.forall_mem_append.2 ⟨hargs1, hargs2⟩
  have hargExps : ∀ exp ∈ ffiArgExps, Eliminated exp.1 :=
    zipApp_eliminated hstubs (decomposeArg_eliminated hdecompose) hffiArgExps
  have hret : Eliminated retExp.1 :=
    composeArg_eliminated (zipApp_eliminated (hrets _ _ _ hrets')
      (decomposeArg_eliminated hdecompose') hretExps) hretExp
  intro funExp exp' hexp
  obtain ⟨app, happ, hexp⟩ := except_bind_ok.1 hexp
  cases hexp
  rw [eliminated_tpFnM, eliminated_tpLet, ← eliminated_tpForeignApply hargExps happ]
  simp [declsExps, declExps, TypedCalcCon.tpVal, hret]

theorem recordStub_pure {ffity : FfiTy} {fields : List (Label × FfiTy)}
    {stubs : List (Ty × Stub)} {next : Nat} (hstubs : AllPure stubs)
    (h : recordStub ffity fields stubs next = .ok (result, next')) : Pure result.2 := by
  obtain ⟨retTy, _, h⟩ := stateT_liftBind_ok.1 h
  cases h
  by_cases hshort : (hasSortedField fields && !hasFunTy ffity) = true
  · simp only [hshort, if_true]
    exact exact_ok.pure
  · simp only [hshort]
    intro exp exp' hexp hok
    obtain ⟨exps, hexps, hok⟩ := except_bind_ok.1 hok
    obtain ⟨exps', hexps', hok⟩ := except_bind_ok.1 hok
    refine implodeRecord_eliminated ?_ hok
    intro field hfield
    exact zipApp_eliminated hstubs (explodeRecord_eliminated hexp hexps) hexps' _
      (mem_tupleListFrom hfield)

mutual

theorem stubExport_pure : ∀ (ffity : FfiTy) (next : Nat) (result : Ty × Stub) (next' : Nat),
    stubExport ffity next = .ok (result, next') → Pure result.2
  | .ffiBaseTy ty, next, result, next', h => by
      cases h
      exact exact_ok.pure
  | .ffiRecordTy fields, next, result, next', h => by
      obtain ⟨stubs, next1, hstubs, h⟩ := stateT_bind_ok.1 h
      exact recordStub_pure (stubExportFields_pure fields next stubs next1 hstubs) h
  | .ffiFunTy attributes argTys none retTys, next, result, next', h => by
      obtain ⟨args, next1, hargs, h⟩ := stateT_bind_ok.1 h
      exact callbackStub_pure (stubImportList_pure argTys next args next1 hargs)
        (stubExportList_pure retTys) h
  | .ffiFunTy _ _ (some _) _, next, result, next', h => by cases h

theorem stubExportList_pure : ∀ (ffitys : List FfiTy) (next : Nat) (stubs : List (Ty × Stub))
    (next' : Nat), stubExportList ffitys next = .ok (stubs, next') → AllPure stubs
  | [], next, stubs, next', h => by
      cases h
      exact allPure_nil
  | ffity :: ffitys, next, stubs, next', h => by
      obtain ⟨stub, next1, hstub, h⟩ := stateT_bind_ok.1 h
      obtain ⟨stubs1, next2, hstubs, h⟩ := stateT_bind_ok.1 h
      cases h
      exact .cons (stubExport_pure ffity _ _ _ hstub) (stubExportList_pure ffitys _ _ _ hstubs)

theorem stubExportFields_pure : ∀ (fields : List (Label × FfiTy)) (next : Nat)
    (stubs : List (Ty × Stub)) (next' : Nat),
    stubExportFields fields next = .ok (stubs, next') → AllPure stubs
  | [], next, stubs, next', h => by
      cases h
      exact allPure_nil
  | (_, ffity) :: fields, next, stubs, next', h => by
      obtain ⟨stub, next1, hstub, h⟩ := stateT_bind_ok.1 h
      obtain ⟨stubs1, next2, hstubs, h⟩ := stateT_bind_ok.1 h
      cases h
      exact .cons (stubExport_pure ffity _ _ _ hstub) (stubExportFields_pure fields _ _ _ hstubs)

theorem stubImport_exact : ∀ (ffity : FfiTy) (next : Nat) (result : Ty × Stub) (next' : Nat),
    stubImport ffity next = .ok (result, next') → Exact result.2
  | .ffiBaseTy ty, next, result, next', h => by
      cases h
      exact exact_ok
  | .ffiRecordTy _, next, result, next', h => by cases h
  | .ffiFunTy attributes argTys none retTys, next, result, next', h => by
      obtain ⟨args1, next1, hargs1, h⟩ := stateT_bind_ok.1 h
      have hnone : AllPure (Option.getD none []) := allPure_nil
      exact functionStub_exact (stubExportList_pure argTys _ _ _ hargs1) hnone
        (stubImportList_pure retTys) h
  | .ffiFunTy attributes argTys (some varTys) retTys, next, result, next', h => by
      obtain ⟨args1, next1, hargs1, h⟩ := stateT_bind_ok.1 h
      obtain ⟨args2, next2, hargs2, h⟩ := stateT_bind_ok.1 h
      exact functionStub_exact (stubExportList_pure argTys _ _ _ hargs1)
        (stubExportList_pure varTys _ _ _ hargs2) (stubImportList_pure retTys) h

theorem stubImportList_pure : ∀ (ffitys : List FfiTy) (next : Nat) (stubs : List (Ty × Stub))
    (next' : Nat), stubImportList ffitys next = .ok (stubs, next') → AllPure stubs
  | [], next, stubs, next', h => by
      cases h
      exact allPure_nil
  | ffity :: ffitys, next, stubs, next', h => by
      obtain ⟨stub, next1, hstub, h⟩ := stateT_bind_ok.1 h
      obtain ⟨stubs1, next2, hstubs, h⟩ := stateT_bind_ok.1 h
      cases h
      exact .cons (stubImport_exact ffity _ _ _ hstub).pure
        (stubImportList_pure ffitys _ _ _ hstubs)

end

/-! ### The forms that are removed -/

theorem apply_eliminated {eqTy : Ty → Ty → Bool} {argExp : Exp}
    (h : ReifyUtils.apply eqTy funExp argExp = .ok exp) :
    Eliminated exp.1 ↔ Eliminated funExp.1 ∧ Eliminated argExp.1 := by
  rw [ReifyUtils.apply.eq_def] at h
  split at h
  · split at h
    · cases h
      rw [eliminated_iff]
      simp [children, isSurface]
    · cases h
  · cases h

theorem eliminated_tpExVar (exVarInfo : ExVarInfo) : Eliminated (.tpExVar exVarInfo) :=
  eliminated_iff.2 ⟨rfl, by simp [children]⟩

theorem eliminated_tpTApp {exp : Tpexp} (h : Eliminated exp) :
    Eliminated (.tpTApp exp ty instTyList) :=
  eliminated_iff.2 ⟨rfl, by simpa [children] using h⟩

theorem instVar_eliminated (exVarInfo : ExVarInfo) (instTy : Ty) :
    Eliminated (ReifyUtils.instVar exVarInfo instTy).1 := by
  rw [ReifyUtils.instVar.eq_def]
  split
  · exact eliminated_tpTApp (eliminated_tpExVar exVarInfo)
  · exact eliminated_tpExVar exVarInfo

theorem instListVar_eliminated
    (h : ReifyUtils.instListVar exVarInfo instTyList = .ok exp) : Eliminated exp.1 := by
  rw [ReifyUtils.instListVar.eq_def] at h
  split at h
  · split at h
    · cases h
      exact eliminated_tpTApp (eliminated_tpExVar exVarInfo)
    · cases h
  · split at h
    · cases h
      exact eliminated_tpExVar exVarInfo
    · cases h

theorem tupleMap_pair {α : Type} (value1 value2 : α) :
    tupleMap [value1, value2] = .ok [("1", value1), ("2", value2)] := by
  have hlt : RecordLabel.compare "1" "2" = .lt := by decide
  have h1 : toString 1 = "1" := by decide
  have h2 : toString (1 + 1) = "2" := by decide
  simp [tupleMap, tupleList, tupleListFrom, labelMapFromList, BinaryMap.insertAll,
    BinaryMap.insert, BinaryMap.balance, BinaryMap.listItemsi, hlt, h1, h2]

theorem pair_eliminated {exp1 exp2 : Exp} (h : ReifyUtils.pair exp1 exp2 = .ok exp) :
    Eliminated exp.1 ↔ Eliminated exp1.1 ∧ Eliminated exp2.1 := by
  obtain ⟨fields, hfields, h⟩ := except_bind_ok.1 h
  obtain ⟨tys, _, h⟩ := except_bind_ok.1 h
  cases h
  rw [tupleMap_pair] at hfields
  cases hfields
  rw [eliminated_iff]
  simp [children, isSurface, bodies]

theorem typeOf_eliminated (ty : Ty) : Eliminated (typeOf ty).1 := by
  have hreify : Eliminated (.tpReifyTy ty) := eliminated_iff.2 ⟨rfl, by simp [children]⟩
  exact eliminated_iff.2 ⟨rfl, by simpa [children, typeOf] using hreify⟩

theorem handleAndReRaise_eliminated {exnCon : ExVarInfo}
    {next : Nat} (h : handleAndReRaise exnCon exp next = .ok (exp', next')) :
    Eliminated exp' ↔ Eliminated exp.1 := by
  obtain ⟨exnVar, next1, _, h⟩ := stateT_bind_ok.1 h
  cases h
  have hraise : Eliminated (.tpRaise (.tpExnConstruct
      (.exExn exnCon.path exnCon.ty) none) exp.2) := by
    refine eliminated_iff.2 ⟨rfl, ?_⟩
    simp only [children, List.forall_mem_singleton]
    exact eliminated_iff.2 ⟨rfl, by simp [children]⟩
  have hreraise : Eliminated (.tpRaise (.tpVar exnVar) exp.2) :=
    eliminated_iff.2 ⟨rfl, List.forall_mem_singleton.2 (eliminated_tpVar exnVar)⟩
  have hcase : Eliminated (.tpSwitch (.tpVar exnVar) exnTy
      (.exnCase [(⟨.exExn exnCon.path exnCon.ty, none⟩,
        .tpRaise (.tpExnConstruct (.exExn exnCon.path exnCon.ty) none) exp.2)])
      (.tpRaise (.tpVar exnVar) exp.2) exp.2) := by
    refine eliminated_iff.2 ⟨rfl, ?_⟩
    simp only [children, switchBodies, bodies, List.map_cons, List.map_nil, List.singleton_append,
      List.forall_mem_cons, List.not_mem_nil, false_imp_iff, implies_true, and_true]
    exact ⟨eliminated_tpVar exnVar, hraise, hreraise⟩
  rw [eliminated_iff]
  simp [children, isSurface, hcase]

theorem importFFIFun_eliminated {ptrExp : Exp} {ffiTy : FfiTy} {exp : Tpexp} {next : Nat}
    (h : importFFIFun ptrExp ffiTy next = .ok (exp, next')) :
    Eliminated exp ↔ Eliminated ptrExp.1 := by
  obtain ⟨⟨letFn, simple⟩, next1, hsimple, h⟩ := stateT_bind_ok.1 h
  obtain ⟨⟨funptrTy, stub⟩, next2, hstub, h⟩ := stateT_bind_ok.1 h
  obtain ⟨cast, hcast, h⟩ := stateT_liftBind_ok.1 h
  obtain ⟨imported, himported, h⟩ := stateT_liftBind_ok.1 h
  cases h
  have hexact : Eliminated imported.1 ↔ Eliminated simple.1 := by
    rw [stubImport_exact ffiTy _ _ _ hstub _ _ himported, eliminated_bitCast hcast]
  rw [toSimpleExp] at hsimple
  split at hsimple
  · cases hsimple
    exact hexact
  · obtain ⟨var, next3, _, hsimple⟩ := stateT_bind_ok.1 hsimple
    cases hsimple
    have himported' : Eliminated imported.1 := hexact.2 (eliminated_tpVar var)
    rw [eliminated_tpLet]
    simp [declsExps, declExps, himported']

theorem importFFIExtern_eliminated {name : String} {ffiTy : FfiTy} {exp : Tpexp}
    {next : Nat} (h : importFFIExtern name ffiTy next = .ok (exp, next')) :
    Eliminated exp := by
  obtain ⟨⟨funptrTy, stub⟩, next1, hstub, h⟩ := stateT_bind_ok.1 h
  obtain ⟨imported, himported, h⟩ := stateT_liftBind_ok.1 h
  cases h
  rw [stubImport_exact ffiTy _ _ _ hstub _ _ himported]
  exact eliminated_iff.2 ⟨rfl, by simp [children, TypedCalcCon.tpForeignSymbol]⟩

section

variable {prims : UserLevelPrimitive}

theorem joinExp_eliminated {isJoin : Bool} {arg1 arg2 : Exp} {exp : Tpexp}
    (h : joinExp prims isJoin ty arg1 arg2 = .ok exp) :
    Eliminated exp ↔ Eliminated arg1.1 ∧ Eliminated arg2.1 := by
  obtain ⟨term1, hterm1, h⟩ := except_bind_ok.1 h
  obtain ⟨term2, hterm2, h⟩ := except_bind_ok.1 h
  obtain ⟨pair, hpair, h⟩ := except_bind_ok.1 h
  obtain ⟨joined, hjoined, h⟩ := except_bind_ok.1 h
  obtain ⟨result, hresult, h⟩ := except_bind_ok.1 h
  cases h
  rw [apply_eliminated hresult, and_iff_right (instVar_eliminated _ _),
    apply_eliminated hjoined, ReifyUtils.monoVar, and_iff_right (eliminated_tpExVar _),
    pair_eliminated hpair, apply_eliminated hterm1, and_iff_right (instVar_eliminated _ _),
    apply_eliminated hterm2, and_iff_right (instVar_eliminated _ _)]

theorem dynamicExp_eliminated {coerceTy : Ty} {next : Nat}
    (h : dynamicExp prims exVarInfo instTyList exp coerceTy next = .ok (exp', next')) :
    Eliminated exp' ↔ Eliminated exp.1 := by
  obtain ⟨funExp, hfun, h⟩ := stateT_liftBind_ok.1 h
  obtain ⟨argExp, harg, h⟩ := stateT_liftBind_ok.1 h
  obtain ⟨body, hbody, h⟩ := stateT_liftBind_ok.1 h
  rw [handleAndReRaise_eliminated h, apply_eliminated hbody,
    and_iff_right (instListVar_eliminated hfun), pair_eliminated harg,
    and_iff_left (typeOf_eliminated coerceTy)]

theorem typeExp_eliminated {exp : Tpexp}
    (h : typeExp prims exVarInfo ty = .ok exp) : Eliminated exp := by
  obtain ⟨funExp, hfun, h⟩ := except_bind_ok.1 h
  obtain ⟨result, hresult, h⟩ := except_bind_ok.1 h
  cases h
  exact (apply_eliminated hresult).2 ⟨instListVar_eliminated hfun, typeOf_eliminated ty⟩

theorem dynamicCaseExp_eliminated {groupListTerm dynamicTerm : Exp} {elemTy ruleBodyTy : Ty}
    {exp : Tpexp} (h : dynamicCaseExp prims groupListTerm dynamicTerm elemTy ruleBodyTy = .ok exp) :
    Eliminated exp ↔ Eliminated groupListTerm.1 ∧ Eliminated dynamicTerm.1 := by
  obtain ⟨funExp, hfun, h⟩ := except_bind_ok.1 h
  obtain ⟨result, hresult, h⟩ := except_bind_ok.1 h
  cases h
  obtain ⟨result1, hresult1, hresult⟩ := except_bind_ok.1 hresult
  obtain ⟨result2, hresult2, hresult⟩ := except_bind_ok.1 hresult
  cases hresult
  rw [apply_eliminated hresult2, apply_eliminated hresult1,
    and_iff_right (instListVar_eliminated hfun), and_comm]

/-- A form that is kept is rebuilt from its compiled subexpressions. -/
theorem compileExp_rebuilt {exp : Tpexp} {next : Nat} (hkept : isSurface exp = false)
    (h : compileExp prims exp next = .ok (exp', next')) :
    isSurface exp' = false ∧ List.Forall₂ (Compiles prims) (children exp) (children exp') := by
  cases exp with
  | tpFnM argVarList bodyTy bodyExp =>
    obtain ⟨exp1, next1, h1, h⟩ := stateT_bind_ok.1 h
    cases h
    exact ⟨rfl, .cons ⟨_, _, h1⟩ .nil⟩
  | tpAppM funExp funTy argExpList =>
    obtain ⟨exp1, next1, h1, h⟩ := stateT_bind_ok.1 h
    obtain ⟨exps, next2, hexps, h⟩ := stateT_bind_ok.1 h
    cases h
    exact ⟨rfl, .cons ⟨_, _, h1⟩ (compileExps_ok hexps)⟩
  | tpDataConstruct con instTyList argExpOpt =>
    obtain ⟨argExpOpt', next1, hopt, h⟩ := stateT_bind_ok.1 h
    cases h
    exact ⟨rfl, compileOption_ok hopt⟩
  | tpExnConstruct exn argExpOpt =>
    obtain ⟨argExpOpt', next1, hopt, h⟩ := stateT_bind_ok.1 h
    cases h
    exact ⟨rfl, compileOption_ok hopt⟩
  | tpCaseM expList expTyList ruleList ruleBodyTy caseKind =>
    obtain ⟨exps, next1, hexps, h⟩ := stateT_bind_ok.1 h
    obtain ⟨rules, next2, hrules, h⟩ := stateT_bind_ok.1 h
    cases h
    exact ⟨rfl, List.rel_append (compileExps_ok hexps)
      (compileBodies_ok hrules ⟨rfl, fun _ _ _ => rfl⟩)⟩
  | tpSwitch exp expTy ruleList defaultExp ruleBodyTy =>
    obtain ⟨exp1, next1, h1, h⟩ := stateT_bind_ok.1 h
    obtain ⟨rules, next2, hrules, h⟩ := stateT_bind_ok.1 h
    obtain ⟨exp2, next3, h2, h⟩ := stateT_bind_ok.1 h
    cases h
    exact ⟨rfl, .cons ⟨_, _, h1⟩
      (List.rel_append (compileSwitchRules_ok hrules) (.cons ⟨_, _, h2⟩ .nil))⟩
  | tpThrow catchLabel argExpList resultTy =>
    obtain ⟨exps, next1, hexps, h⟩ := stateT_bind_ok.1 h
    cases h
    exact ⟨rfl, compileExps_ok hexps⟩
  | tpRecord fields recordTy =>
    obtain ⟨fields', next1, hfields, h⟩ := stateT_bind_ok.1 h
    cases h
    exact ⟨rfl, compileBodies_ok hfields ⟨rfl, fun _ _ _ => rfl⟩⟩
  | tpMonoLet binds bodyExp =>
    obtain ⟨binds', next1, hbinds, h⟩ := stateT_bind_ok.1 h
    obtain ⟨exp1, next2, h1, h⟩ := stateT_bind_ok.1 h
    cases h
    exact ⟨rfl, List.rel_append (compileBodies_ok hbinds ⟨rfl, fun _ _ _ => rfl⟩)
      (.cons ⟨_, _, h1⟩ .nil)⟩
  | tpLet decls body =>
    obtain ⟨decls', next1, hdecls, h⟩ := stateT_bind_ok.1 h
    obtain ⟨exp1, next2, h1, h⟩ := stateT_bind_ok.1 h
    cases h
    exact ⟨rfl, List.rel_append (compileDecls_ok hdecls) (.cons ⟨_, _, h1⟩ .nil)⟩
  | tpForeignApply funExp argExpList attributes resultTy =>
    obtain ⟨exp1, next1, h1, h⟩ := stateT_bind_ok.1 h
    obtain ⟨exps, next2, hexps, h⟩ := stateT_bind_ok.1 h
    cases h
    exact ⟨rfl, .cons ⟨_, _, h1⟩ (compileExps_ok hexps)⟩
  | tpCatch catchLabel tryExp argVarList catchExp resultTy =>
    obtain ⟨exp1, next1, h1, h⟩ := stateT_bind_ok.1 h
    obtain ⟨exp2, next2, h2, h⟩ := stateT_bind_ok.1 h
    cases h
    exact ⟨rfl, .cons ⟨_, _, h1⟩ (.cons ⟨_, _, h2⟩ .nil)⟩
  | tpModify label recordExp recordTy elementExp elementTy =>
    obtain ⟨exp1, next1, h1, h⟩ := stateT_bind_ok.1 h
    obtain ⟨exp2, next2, h2, h⟩ := stateT_bind_ok.1 h
    cases h
    exact ⟨rfl, .cons ⟨_, _, h1⟩ (.cons ⟨_, _, h2⟩ .nil)⟩
  | tpHandle exp exnVar handler resultTy =>
    obtain ⟨exp1, next1, h1, h⟩ := stateT_bind_ok.1 h
    obtain ⟨exp2, next2, h2, h⟩ := stateT_bind_ok.1 h
    cases h
    exact ⟨rfl, .cons ⟨_, _, h1⟩ (.cons ⟨_, _, h2⟩ .nil)⟩
  | tpDynamicExistTApp existInstMap exp expTy instTyList =>
    obtain ⟨exp1, next1, h1, h⟩ := stateT_bind_ok.1 h
    obtain ⟨exp2, next2, h2, h⟩ := stateT_bind_ok.1 h
    cases h
    exact ⟨rfl, .cons ⟨_, _, h1⟩ (.cons ⟨_, _, h2⟩ .nil)⟩
  | tpPrimApply primOp instTyList argExp =>
    obtain ⟨exp1, next1, h1, h⟩ := stateT_bind_ok.1 h
    cases h
    exact ⟨rfl, .cons ⟨_, _, h1⟩ .nil⟩
  | tpOprimApply oprimOp instTyList argExp =>
    obtain ⟨exp1, next1, h1, h⟩ := stateT_bind_ok.1 h
    cases h
    exact ⟨rfl, .cons ⟨_, _, h1⟩ .nil⟩
  | tpSelect label exp expTy resultTy =>
    obtain ⟨exp1, next1, h1, h⟩ := stateT_bind_ok.1 h
    cases h
    exact ⟨rfl, .cons ⟨_, _, h1⟩ .nil⟩
  | tpRaise exp ty =>
    obtain ⟨exp1, next1, h1, h⟩ := stateT_bind_ok.1 h
    cases h
    exact ⟨rfl, .cons ⟨_, _, h1⟩ .nil⟩
  | tpPoly btvEnv constraints expTyWithoutTAbs exp =>
    obtain ⟨exp1, next1, h1, h⟩ := stateT_bind_ok.1 h
    cases h
    exact ⟨rfl, .cons ⟨_, _, h1⟩ .nil⟩
  | tpTApp exp expTy instTyList =>
    obtain ⟨exp1, next1, h1, h⟩ := stateT_bind_ok.1 h
    cases h
    exact ⟨rfl, .cons ⟨_, _, h1⟩ .nil⟩
  | tpCallbackFn attributes argVarList bodyExp resultTy =>
    obtain ⟨exp1, next1, h1, h⟩ := stateT_bind_ok.1 h
    cases h
    exact ⟨rfl, .cons ⟨_, _, h1⟩ .nil⟩
  | tpCast exp expTy ty =>
    obtain ⟨exp1, next1, h1, h⟩ := stateT_bind_ok.1 h
    cases h
    exact ⟨rfl, .cons ⟨_, _, h1⟩ .nil⟩
  | tpFFIImport => cases hkept
  | tpJoin => cases hkept
  | tpDynamic => cases hkept
  | tpDynamicIs => cases hkept
  | tpDynamicView => cases hkept
  | tpDynamicNull => cases hkept
  | tpDynamicTop => cases hkept
  | tpDynamicCase => cases hkept
  | _ =>
    cases h
    exact ⟨rfl, .nil⟩

theorem forall₂_iff {exps exps' : List Tpexp} {P Q : Tpexp → Prop}
    (hall : List.Forall₂ (Compiles prims) exps exps')
    (hiff : ∀ exp ∈ exps, ∀ exp', Compiles prims exp exp' → (P exp' ↔ Q exp)) :
    (∀ exp' ∈ exps', P exp') ↔ ∀ exp ∈ exps, Q exp := by
  induction hall with
  | nil => simp
  | cons hexp _ ih =>
    rw [List.forall_mem_cons, List.forall_mem_cons, hiff _ List.mem_cons_self _ hexp,
      ih fun exp hmem => hiff exp (List.mem_cons_of_mem _ hmem)]

/-- The operand of a dynamic expression is all there is below it. -/
theorem plainOperands_dynamic {exp operand : Tpexp} (hoperand : dynamicOperand exp = some operand)
    (hchildren : children exp = [operand]) : PlainOperands exp ↔ Eliminated operand := by
  rw [plainOperands_iff, hchildren, hoperand]
  simp only [Option.some.injEq, forall_eq', List.forall_mem_singleton]
  exact and_iff_left_of_imp Eliminated.plainOperands

theorem plainOperands_other {exp : Tpexp} (hoperand : dynamicOperand exp = none) :
    PlainOperands exp ↔ ∀ child ∈ children exp, PlainOperands child := by
  rw [plainOperands_iff, hoperand]
  simp

theorem dynamicOperand_kept {exp : Tpexp} (hkept : isSurface exp = false) :
    dynamicOperand exp = none := by
  cases exp with
  | tpDynamic => cases hkept
  | tpDynamicIs => cases hkept
  | tpDynamicView => cases hkept
  | _ => rfl

theorem compileExp_eliminated_iff {exp : Tpexp} (h : Compiles prims exp exp') :
    Eliminated exp' ↔ PlainOperands exp := by
  induction hsize : sizeOf exp using Nat.strong_induction_on generalizing exp exp' with
  | _ size ih =>
    subst hsize
    have hchild : ∀ child ∈ children exp, ∀ child', Compiles prims child child' →
        (Eliminated child' ↔ PlainOperands child) :=
      fun child hmem child' hcompiles =>
        ih (sizeOf child) (sizeOf_lt_children hmem) hcompiles rfl
    obtain ⟨next, next', h⟩ := h
    by_cases hkept : isSurface exp = false
    · obtain ⟨hkept', hall⟩ := compileExp_rebuilt hkept h
      rw [eliminated_iff, and_iff_right hkept', plainOperands_other (dynamicOperand_kept hkept)]
      exact forall₂_iff hall hchild
    · cases exp with
      | tpFFIImport funExp ffiTy stubTy =>
        rw [plainOperands_other rfl]
        cases funExp with
        | tpFFIFun ptrExp ptrTy =>
          obtain ⟨ptrExp', next1, hptr, h⟩ := stateT_bind_ok.1 h
          rw [importFFIFun_eliminated h]
          exact (hchild ptrExp (List.mem_singleton_self _) ptrExp' ⟨_, _, hptr⟩).trans
            List.forall_mem_singleton.symm
        | tpFFIExtern name =>
          exact iff_of_true (importFFIExtern_eliminated h) (by simp [children])
      | tpJoin ty arg1 arg2 argTy1 argTy2 isJoin =>
        rw [plainOperands_other rfl]
        obtain ⟨exp1, next1, h1, h⟩ := stateT_bind_ok.1 h
        obtain ⟨exp2, next2, h2, h⟩ := stateT_bind_ok.1 h
        obtain ⟨joined, hjoined, h⟩ := stateT_liftBind_ok.1 h
        have hexp' : Eliminated exp' ↔ Eliminated joined := by
          split at h
          · exact handleAndReRaise_eliminated h
          · cases h
            rfl
        rw [hexp', joinExp_eliminated hjoined, hchild arg1 (by simp [children]) exp1 ⟨_, _, h1⟩,
          hchild arg2 (by simp [children]) exp2 ⟨_, _, h2⟩]
        simp [children]
      | tpDynamic exp ty elemTy coerceTy =>
        rw [plainOperands_dynamic rfl rfl]
        exact dynamicExp_eliminated h
      | tpDynamicIs exp ty elemTy coerceTy =>
        rw [plainOperands_dynamic rfl rfl]
        exact dynamicExp_eliminated h
      | tpDynamicView exp ty elemTy coerceTy =>
        rw [plainOperands_dynamic rfl rfl]
        exact dynamicExp_eliminated h
      | tpDynamicNull ty coerceTy =>
        obtain ⟨_, hexp, heq⟩ := stateT_lift_ok.1 h
        cases heq
        rw [plainOperands_other rfl]
        exact iff_of_true (typeExp_eliminated hexp) (by simp [children])
      | tpDynamicTop ty coerceTy =>
        obtain ⟨_, hexp, heq⟩ := stateT_lift_ok.1 h
        cases heq
        rw [plainOperands_other rfl]
        exact iff_of_true (typeExp_eliminated hexp) (by simp [children])
      | tpDynamicCase groupListTerm groupListTy dynamicTerm dynamicTy elemTy ruleBodyTy =>
        rw [plainOperands_other rfl]
        obtain ⟨exp1, next1, h1, h⟩ := stateT_bind_ok.1 h
        obtain ⟨exp2, next2, h2, h⟩ := stateT_bind_ok.1 h
        obtain ⟨_, hexp, heq⟩ := stateT_lift_ok.1 h
        cases heq
        rw [dynamicCaseExp_eliminated hexp, hchild groupListTerm (by simp [children]) exp1
            ⟨_, _, h1⟩, hchild dynamicTerm (by simp [children]) exp2 ⟨_, _, h2⟩]
        simp [children]
      | _ => exact absurd rfl hkept

/-- A compiled program has none of the forms exactly if no operand of a
coercion, a check or a view of a dynamic value has one of them. -/
theorem compile_eliminates_iff (prims : UserLevelPrimitive) (decls decls' : List Tpdecl)
    (next next' : Nat) (h : compile prims decls next = .ok (decls', next')) :
    (∀ exp ∈ declsExps decls', Eliminated exp) ↔ ∀ exp ∈ declsExps decls, PlainOperands exp :=
  forall₂_iff (compileDecls_ok h) fun _ _ _ hcompiles => compileExp_eliminated_iff hcompiles

end

/-! ### A nested coercion -/

def intTy : Ty := .constructTy (.other 0) []

def dynTy (elemTy : Ty) : Ty := .constructTy (.other 1) [elemTy]

/-- A library in which only the type of the coercion matters. -/
def coercionPrims : UserLevelPrimitive :=
  let coerce : ExVarInfo := ⟨["PartialDynamic", "coerceTermGeneric"],
    .polyTy [0, 1] (.funMTy [.recordTy [("1", dynTy (.boundVarTy 0)), ("2", tyRepTy)]]
      (.boundVarTy 1))⟩
  let runtimeTypeError : ExVarInfo := ⟨["PartialDynamic", "RuntimeTypeError"], exnTy⟩
  ⟨coerce, coerce, coerce, coerce, coerce, coerce, coerce, coerce, coerce, coerce,
    runtimeTypeError, runtimeTypeError, fun _ _ => true⟩

def dynamicVar : VarInfo := ⟨["x"], dynTy intTy, 0, false⟩

def resultVar : VarInfo := ⟨["y"], intTy, 1, false⟩

/-- `_dynamic x as int dyn`. -/
def innerExp : Tpexp := .tpDynamic (.tpVar dynamicVar) (dynTy intTy) intTy (dynTy intTy)

/-- The call of the coercion that a `_dynamic` expression becomes. -/
def coercionCall (exp : Tpexp) (coerceTy : Ty) : Exp :=
  (.tpAppM (.tpTApp (.tpExVar coercionPrims.coerceTermGeneric)
      coercionPrims.coerceTermGeneric.ty [intTy, coerceTy])
    (.funMTy [.recordTy [("1", dynTy intTy), ("2", tyRepTy)]] coerceTy)
    [.tpRecord [("1", exp), ("2", (typeOf coerceTy).1)] [("1", dynTy intTy), ("2", tyRepTy)]],
    coerceTy)

theorem dynamicExp_coercion (exp : Tpexp) (coerceTy : Ty) (next : Nat) :
    dynamicExp coercionPrims coercionPrims.coerceTermGeneric [intTy, coerceTy]
        (exp, dynTy intTy) coerceTy next =
      handleAndReRaise coercionPrims.exnRuntimeTypeError (coercionCall exp coerceTy) next := by
  have hpair : ReifyUtils.pair (exp, dynTy intTy) (typeOf coerceTy) =
      .ok (.tpRecord [("1", exp), ("2", (typeOf coerceTy).1)]
          [("1", dynTy intTy), ("2", tyRepTy)],
        .recordTy [("1", dynTy intTy), ("2", tyRepTy)]) := by
    rw [ReifyUtils.pair, tupleMap_pair, tupleMap_pair]
    rfl
  rw [dynamicExp, hpair]
  rfl

theorem compile_coercion (exp : Tpexp) : ∃ decls' next', compile coercionPrims
        [.tpVal resultVar (.tpDynamic exp (dynTy intTy) intTy intTy)] 2 = .ok (decls', next') := by
  have hrun := dynamicExp_coercion exp intTy 2
  refine ⟨_, _, stateT_bind_ok.2 ⟨_, _, stateT_bind_ok.2 ⟨_, _, hrun, rfl⟩, rfl⟩⟩

/-- The operand of the coercion is a variable, so that nothing is left to
compile in it. -/
theorem compile_eliminates_iff_coercion :
    ∃ decls' next', compile coercionPrims
        [.tpVal resultVar (.tpDynamic (.tpVar dynamicVar) (dynTy intTy) intTy intTy)] 2 =
          .ok (decls', next') ∧ ∀ exp ∈ declsExps decls', Eliminated exp := by
  obtain ⟨decls', next', h⟩ := compile_coercion (.tpVar dynamicVar)
  refine ⟨decls', next', h, (compile_eliminates_iff coercionPrims _ decls' 2 next' h).2 ?_⟩
  intro exp hmem
  rw [List.mem_singleton.1 hmem, plainOperands_dynamic rfl rfl]
  exact eliminated_tpVar dynamicVar

/-- The inner coercion of `_dynamic (_dynamic x as int dyn) as int` is left. -/
theorem compile_keeps_inner :
    ∃ decls' next', compile coercionPrims
        [.tpVal resultVar (.tpDynamic innerExp (dynTy intTy) intTy intTy)] 2 =
          .ok (decls', next') ∧ ¬ ∀ exp ∈ declsExps decls', Eliminated exp := by
  have hrun := dynamicExp_coercion innerExp intTy 2
  refine ⟨_, _, stateT_bind_ok.2 ⟨_, _, stateT_bind_ok.2 ⟨_, _, hrun, rfl⟩, rfl⟩, ?_⟩
  intro hall
  have hexp := hall _ (List.mem_singleton_self _)
  rw [dynamicExp_eliminated hrun] at hexp
  exact absurd (eliminated_iff.1 hexp).1 (by decide)

end SmlSharp.FFICompilation
