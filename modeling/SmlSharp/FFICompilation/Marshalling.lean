/-
The stubs of foreign function types whose records are declared in order convert
arguments and results position by position, but for the boundary of variadic
argument lists, which is right if and only if it lies in the middle.
-/
import SmlSharp.FFICompilation.Converts

namespace SmlSharp.FFICompilation

open RecordLabel (Label)

mutual

theorem stubExport_converts (ffity : FfiTy) (haccepted : ExportAccepted ffity)
    (horder : InOrder ffity) (lo : Nat) :
    ∃ ty convert hi, stubExport ffity lo = .ok ((ty, convert), hi) ∧ lo ≤ hi ∧
      ExportConverts stubCut ffity lo hi ty convert := by
  match ffity with
  | .ffiBaseTy ty =>
    refine ⟨ty, .ok, lo, rfl, le_refl lo, rfl, ?_⟩
    intro exp _
    exact ⟨exp, rfl, fun env value hread _ => ⟨value, hread.eval, rfl⟩⟩
  | .ffiRecordTy fields =>
    obtain ⟨stubs, hi, hstubs, hle, hconverts⟩ :=
      stubExportFields_converts fields haccepted.2 horder.2 lo
    obtain ⟨ty, convert, hrecord, hresult⟩ := recordStub_converts hconverts horder
    exact ⟨ty, convert, hi, stateT_bind_ok.2 ⟨stubs, hi, hstubs, hrecord⟩, hle, hresult⟩
  | .ffiFunTy attributes argTys none retTys =>
    obtain ⟨hargsAccepted, hretsAccepted, -⟩ := haccepted
    obtain ⟨args, n, hargs, hn, hargConverts⟩ :=
      stubImportList_converts argTys hargsAccepted horder.1 lo
    obtain ⟨rets, m, hrets, hm, hretConverts⟩ :=
      stubExportList_converts retTys hretsAccepted horder.2 (n + args.length)
    obtain ⟨ty, convert, hstub, hresult⟩ :=
      callbackStub_converts hargConverts hrets hretConverts hn hm
    exact ⟨ty, convert, m + 1, stateT_bind_ok.2 ⟨args, n, hargs, hstub⟩, by omega, hresult⟩
  | .ffiFunTy _ _ (some _) _ => exact haccepted.elim

theorem stubExportList_converts (ffitys : List FfiTy) (haccepted : ExportAcceptedList ffitys)
    (horder : InOrderList ffitys) (lo : Nat) :
    ∃ stubs hi, stubExportList ffitys lo = .ok (stubs, hi) ∧ lo ≤ hi ∧
      ExportListConverts stubCut ffitys lo hi stubs := by
  match ffitys with
  | [] => exact ⟨[], lo, rfl, le_refl lo, List.Forall₂.nil⟩
  | ffity :: ffitys =>
    obtain ⟨ty, convert, mid, hstub, hmid, hconverts⟩ :=
      stubExport_converts ffity haccepted.1 horder.1 lo
    obtain ⟨stubs, hi, hstubs, hhi, hrest⟩ :=
      stubExportList_converts ffitys haccepted.2 horder.2 mid
    refine ⟨(ty, convert) :: stubs, hi, ?_, hmid.trans hhi,
      List.Forall₂.cons (hconverts.mono (le_refl lo) hhi) (hrest.mono hmid (le_refl hi))⟩
    exact stateT_bind_ok.2 ⟨_, mid, hstub, stateT_bind_ok.2 ⟨stubs, hi, hstubs, rfl⟩⟩

theorem stubExportFields_converts (fields : List (Label × FfiTy))
    (haccepted : ExportAcceptedFields fields) (horder : InOrderFields fields) (lo : Nat) :
    ∃ stubs hi, stubExportFields fields lo = .ok (stubs, hi) ∧ lo ≤ hi ∧
      ExportListConverts stubCut (fields.map Prod.snd) lo hi stubs := by
  match fields with
  | [] => exact ⟨[], lo, rfl, le_refl lo, List.Forall₂.nil⟩
  | (label, ffity) :: fields =>
    obtain ⟨ty, convert, mid, hstub, hmid, hconverts⟩ :=
      stubExport_converts ffity haccepted.1 horder.1 lo
    obtain ⟨stubs, hi, hstubs, hhi, hrest⟩ :=
      stubExportFields_converts fields haccepted.2 horder.2 mid
    refine ⟨(ty, convert) :: stubs, hi, ?_, hmid.trans hhi,
      List.Forall₂.cons (hconverts.mono (le_refl lo) hhi) (hrest.mono hmid (le_refl hi))⟩
    exact stateT_bind_ok.2 ⟨_, mid, hstub, stateT_bind_ok.2 ⟨stubs, hi, hstubs, rfl⟩⟩

theorem stubImport_converts (ffity : FfiTy) (haccepted : ImportAccepted ffity)
    (horder : InOrder ffity) (lo : Nat) :
    ∃ ty convert hi, stubImport ffity lo = .ok ((ty, convert), hi) ∧ lo ≤ hi ∧
      ImportConverts stubCut ffity lo hi ty convert := by
  match ffity with
  | .ffiBaseTy ty =>
    refine ⟨ty, .ok, lo, rfl, le_refl lo, ty, rfl, ?_⟩
    intro exp hexp
    exact ⟨exp, rfl, hexp.2.2, fun env foreign hread => ⟨foreign, hread.eval, rfl⟩⟩
  | .ffiRecordTy fields => exact haccepted.elim
  | .ffiFunTy attributes argTys none retTys =>
    obtain ⟨hargsAccepted, hretsAccepted, hone⟩ := haccepted
    obtain ⟨args, n, hargs, hn, hargConverts⟩ :=
      stubExportList_converts argTys hargsAccepted horder.1 lo
    obtain ⟨rets, m, hrets, hm, hretConverts⟩ :=
      stubImportList_converts retTys hretsAccepted horder.2 (n + 1)
    have hnone : ExportListConverts stubCut ((none : Option (List FfiTy)).getD []) lo n
        ((none : Option (List (Ty × Stub))).getD []) := List.Forall₂.nil
    obtain ⟨ty, convert, hstub, hresult⟩ :=
      functionStub_converts hargConverts hnone rfl hrets hretConverts hone hn hm
    exact ⟨ty, convert, m + 1, stateT_bind_ok.2 ⟨args, n, hargs, hstub⟩, by omega, hresult⟩
  | .ffiFunTy attributes argTys (some varTys) retTys =>
    obtain ⟨hargsAccepted, hvarsAccepted, hretsAccepted, hone⟩ := haccepted
    obtain ⟨hargsOrder, hvarsOrder, hretsOrder⟩ := horder
    obtain ⟨args1, mid, hargs1, hmid, hconverts1⟩ :=
      stubExportList_converts argTys hargsAccepted hargsOrder lo
    obtain ⟨args2, n, hargs2, hn, hconverts2⟩ :=
      stubExportList_converts varTys hvarsAccepted hvarsOrder mid
    obtain ⟨rets, m, hrets, hm, hretConverts⟩ :=
      stubImportList_converts retTys hretsAccepted hretsOrder (n + 1)
    have hcount : (some args2).map List.length = (some varTys).map List.length :=
      congrArg some hconverts2.length_eq.symm
    have hvarConverts : ExportListConverts stubCut ((some varTys).getD []) lo n
        ((some args2).getD []) := hconverts2.mono hmid (le_refl n)
    obtain ⟨ty, convert, hstub, hresult⟩ :=
      functionStub_converts (hconverts1.mono (le_refl lo) hn) hvarConverts hcount hrets
        hretConverts hone (hmid.trans hn) hm
    exact ⟨ty, convert, m + 1, stateT_bind_ok.2 ⟨args1, mid, hargs1,
      stateT_bind_ok.2 ⟨args2, n, hargs2, hstub⟩⟩, by omega, hresult⟩

theorem stubImportList_converts (ffitys : List FfiTy) (haccepted : ImportAcceptedList ffitys)
    (horder : InOrderList ffitys) (lo : Nat) :
    ∃ stubs hi, stubImportList ffitys lo = .ok (stubs, hi) ∧ lo ≤ hi ∧
      ImportListConverts stubCut ffitys lo hi stubs := by
  match ffitys with
  | [] => exact ⟨[], lo, rfl, le_refl lo, List.Forall₂.nil⟩
  | ffity :: ffitys =>
    obtain ⟨ty, convert, mid, hstub, hmid, hconverts⟩ :=
      stubImport_converts ffity haccepted.1 horder.1 lo
    obtain ⟨stubs, hi, hstubs, hhi, hrest⟩ :=
      stubImportList_converts ffitys haccepted.2 horder.2 mid
    refine ⟨(ty, convert) :: stubs, hi, ?_, hmid.trans hhi,
      List.Forall₂.cons (hconverts.mono (le_refl lo) hhi) (hrest.mono hmid (le_refl hi))⟩
    exact stateT_bind_ok.2 ⟨_, mid, hstub, stateT_bind_ok.2 ⟨stubs, hi, hstubs, rfl⟩⟩

end

/-! ### The boundary -/

mutual

/-- A boundary in the middle is the declared one. -/
theorem exported_declared (ffity : FfiTy) (hhalved : Halved ffity) (value foreign : Val)
    (h : Exported stubCut ffity value foreign) : Exported declaredCut ffity value foreign := by
  match ffity with
  | .ffiBaseTy ty => exact h
  | .ffiRecordTy fields =>
    obtain ⟨entries, rfl, hfields⟩ := h
    exact ⟨entries, rfl, exportedFields_declared fields hhalved value _ hfields⟩
  | .ffiFunTy _ argTys none retTys =>
    obtain ⟨hcallback, hruns⟩ := h
    refine ⟨hcallback, ?_⟩
    intro foreigns hforeigns
    obtain ⟨args, next, hrun, hargs, hresults⟩ := hruns foreigns hforeigns
    refine ⟨args, next, hrun, importedList_declared argTys hhalved.1 foreigns args hargs, ?_⟩
    intro results hshaped
    obtain ⟨foreigns', hnext, hexported⟩ := hresults results hshaped
    exact ⟨foreigns', hnext,
      exportedList_declared retTys hhalved.2 results foreigns' hexported⟩
  | .ffiFunTy _ _ (some _) _ => exact h.elim

theorem exportedList_declared (ffitys : List FfiTy) (hhalved : HalvedList ffitys)
    (values foreigns : List Val) (h : ExportedList stubCut ffitys values foreigns) :
    ExportedList declaredCut ffitys values foreigns := by
  match ffitys, values, foreigns with
  | [], [], [] => trivial
  | ffity :: ffitys, value :: values, foreign :: foreigns =>
    exact ⟨exported_declared ffity hhalved.1 value foreign h.1,
      exportedList_declared ffitys hhalved.2 values foreigns h.2⟩
  | [], _ :: _, _ => exact h.elim
  | [], [], _ :: _ => exact h.elim
  | _ :: _, [], _ => exact h.elim
  | _ :: _, _ :: _, [] => exact h.elim

theorem exportedFields_declared (fields : List (Label × FfiTy)) (hhalved : HalvedFields fields)
    (value : Val) (foreigns : List Val) (h : ExportedFields stubCut fields value foreigns) :
    ExportedFields declaredCut fields value foreigns := by
  match fields, foreigns with
  | [], [] => trivial
  | (_, ffity) :: fields, foreign :: foreigns =>
    obtain ⟨⟨entry, hentry, hexported⟩, hrest⟩ := h
    exact ⟨⟨entry, hentry, exported_declared ffity hhalved.1 entry foreign hexported⟩,
      exportedFields_declared fields hhalved.2 value foreigns hrest⟩
  | [], _ :: _ => exact h.elim
  | _ :: _, [] => exact h.elim

theorem imported_declared (ffity : FfiTy) (hhalved : Halved ffity) (foreign value : Val)
    (h : Imported stubCut ffity foreign value) : Imported declaredCut ffity foreign value := by
  match ffity with
  | .ffiBaseTy ty => exact h
  | .ffiRecordTy fields => exact h.elim
  | .ffiFunTy _ argTys none retTys =>
    intro args hargs
    obtain ⟨funTy, foreigns, next, hrun, hsplits, hexported, hresults⟩ := h args hargs
    refine ⟨funTy, foreigns, next, hrun, hsplits,
      exportedList_declared argTys hhalved.1 args foreigns hexported, ?_⟩
    intro results hlength
    obtain ⟨values, hnext, himported⟩ := hresults results hlength
    exact ⟨values, hnext, importedList_declared retTys hhalved.2 results values himported⟩
  | .ffiFunTy _ argTys (some varTys) retTys =>
    obtain ⟨hargsHalved, hvarsHalved, hretsHalved, hlength⟩ := hhalved
    intro args varArgs hargs hvarArgs
    obtain ⟨funTy, foreigns, varForeigns, next, hrun, hsplits, hexported, hvarExported,
      hresults⟩ := h args varArgs hargs hvarArgs
    have hcut : stubCut argTys.length varTys.length =
        declaredCut argTys.length varTys.length := by
      rw [stubCut, declaredCut, hlength]
    rw [hcut] at hsplits
    refine ⟨funTy, foreigns, varForeigns, next, hrun, hsplits,
      exportedList_declared argTys hargsHalved args foreigns hexported,
      exportedList_declared varTys hvarsHalved varArgs varForeigns hvarExported, ?_⟩
    intro results hlength
    obtain ⟨values, hnext, himported⟩ := hresults results hlength
    exact ⟨values, hnext, importedList_declared retTys hretsHalved results values himported⟩

theorem importedList_declared (ffitys : List FfiTy) (hhalved : HalvedList ffitys)
    (foreigns values : List Val) (h : ImportedList stubCut ffitys foreigns values) :
    ImportedList declaredCut ffitys foreigns values := by
  match ffitys, foreigns, values with
  | [], [], [] => trivial
  | ffity :: ffitys, foreign :: foreigns, value :: values =>
    exact ⟨imported_declared ffity hhalved.1 foreign value h.1,
      importedList_declared ffitys hhalved.2 foreigns values h.2⟩
  | [], _ :: _, _ => exact h.elim
  | [], [], _ :: _ => exact h.elim
  | _ :: _, [], _ => exact h.elim
  | _ :: _, _ :: _, [] => exact h.elim

end

mutual

/-- Some value with the records of the type. -/
def someVal : FfiTy → Val
  | .ffiBaseTy _ => .unit
  | .ffiFunTy .. => .unit
  | .ffiRecordTy fields => .record (someFields fields)

def someFields : List (Label × FfiTy) → List (Label × Val)
  | [] => []
  | (label, ffity) :: fields => (label, someVal ffity) :: someFields fields

end

def someVals (ffitys : List FfiTy) : List Val := ffitys.map someVal

theorem someFields_fst (fields : List (Label × FfiTy)) :
    (someFields fields).map Prod.fst = fields.map Prod.fst := by
  induction fields with
  | nil => rfl
  | cons field fields ih =>
    rw [someFields, List.map_cons, List.map_cons, ih]

mutual

theorem shaped_someVal (ffity : FfiTy) (horder : InOrder ffity) :
    Shaped ffity (someVal ffity) := by
  match ffity with
  | .ffiBaseTy _ => trivial
  | .ffiFunTy .. => trivial
  | .ffiRecordTy fields =>
    have hlabels := someFields_fst fields
    have hascending : AscendingLabels ((someFields fields).map Prod.fst) := by
      rw [hlabels]
      exact horder.1
    have hfields := forall₂_field_record hascending.nodup hlabels.symm
    refine ⟨someFields fields, rfl, hascending, ?_,
      shapedFields_someVal fields horder.2 (.record (someFields fields)) hfields⟩
    rw [hlabels]

theorem shapedFields_someVal (fields : List (Label × FfiTy)) (horder : InOrderFields fields)
    (value : Val)
    (hfields : List.Forall₂ (fun field entry => value.field field.1 = some entry) fields
      ((someFields fields).map Prod.snd)) : ShapedFields fields value := by
  match fields, hfields with
  | [], _ => trivial
  | (_, ffity) :: fields, .cons hentry hrest =>
    exact ⟨⟨_, hentry, shaped_someVal ffity horder.1⟩,
      shapedFields_someVal fields horder.2 value hrest⟩

end

theorem shapedList_someVals {ffitys : List FfiTy} (horder : InOrderList ffitys) :
    ShapedList ffitys (someVals ffitys) := by
  induction ffitys with
  | nil => trivial
  | cons ffity ffitys ih => exact ⟨shaped_someVal ffity horder.1, ih horder.2⟩

theorem tupleListFrom_injective {n : Nat} {values1 values2 : List Val}
    (h : tupleListFrom n values1 = tupleListFrom n values2) : values1 = values2 := by
  have hsnd := congrArg (List.map Prod.snd) h
  rwa [tupleListFrom_snd, tupleListFrom_snd] at hsnd

theorem tupleVal_injective {values1 values2 : List Val}
    (hlength : values1.length = values2.length) (h : tupleVal values1 = tupleVal values2) :
    values1 = values2 := by
  match values1, values2, hlength with
  | [], [], _ => rfl
  | [_], [_], _ => exact congrArg (· :: []) h
  | _ :: _ :: _, _ :: _ :: _, _ => exact tupleListFrom_injective (Val.record.inj h)

theorem importedList_length {cut : Cut} {ffitys : List FfiTy} {foreigns values : List Val}
    (h : ImportedList cut ffitys foreigns values) :
    foreigns.length = ffitys.length ∧ values.length = ffitys.length := by
  induction ffitys generalizing foreigns values with
  | nil =>
    match foreigns, values, h with
    | [], [], _ => exact ⟨rfl, rfl⟩
  | cons ffity ffitys ih =>
    match foreigns, values, h with
    | _ :: _, _ :: _, h => exact ⟨congrArg Nat.succ (ih h.2).1, congrArg Nat.succ (ih h.2).2⟩

theorem exportedList_length {cut : Cut} {ffitys : List FfiTy} {values foreigns : List Val}
    (h : ExportedList cut ffitys values foreigns) : foreigns.length = ffitys.length := by
  induction ffitys generalizing foreigns values with
  | nil =>
    match values, foreigns, h with
    | [], [], _ => rfl
  | cons ffity ffitys ih =>
    match values, foreigns, h with
    | _ :: _, _ :: _, h => exact congrArg Nat.succ (ih h.2)

theorem SplitsAt.unique {funTy : Ty} {fixed fixed' : Nat} {variadic variadic' : Option Nat}
    (h : SplitsAt funTy fixed variadic) (h' : SplitsAt funTy fixed' variadic') :
    fixed = fixed' ∧ variadic = variadic' := by
  obtain ⟨_, _, _, _, rfl, hfixed, hvariadic⟩ := h
  obtain ⟨_, _, _, _, hfunTy, hfixed', hvariadic'⟩ := h'
  cases hfunTy
  exact ⟨hfixed.symm.trans hfixed', hvariadic.symm.trans hvariadic'⟩

mutual

/-- A value that is converted with both boundaries. -/
theorem halved_of_exported (ffity : FfiTy) (horder : InOrder ffity) (value foreign : Val)
    (h : Exported stubCut ffity value foreign) (h' : Exported declaredCut ffity value foreign) :
    Halved ffity := by
  match ffity with
  | .ffiBaseTy _ => trivial
  | .ffiRecordTy fields =>
    obtain ⟨entries, rfl, hfields⟩ := h
    obtain ⟨entries', hentries', hfields'⟩ := h'
    cases hentries'
    exact halvedFields_of_exported fields horder.2 value _ hfields hfields'
  | .ffiFunTy _ argTys none retTys =>
    have hlength : (List.replicate argTys.length Val.unit).length = argTys.length :=
      List.length_replicate
    obtain ⟨args, next, hrun, hargs, hresults⟩ := h.2 _ hlength
    obtain ⟨args', next', hrun', hargs', hresults'⟩ := h'.2 _ hlength
    obtain ⟨hcall, rfl⟩ := Calls.call.inj (hrun.symm.trans hrun')
    have htuple := (List.cons.inj (Call.apply.inj hcall).2).1
    have hargsLength : args.length = args'.length := by
      rw [(importedList_length hargs).2, (importedList_length hargs').2]
    cases tupleVal_injective hargsLength htuple
    have hshaped := shapedList_someVals horder.2
    obtain ⟨foreigns, hnext, hexported⟩ := hresults _ hshaped
    obtain ⟨foreigns', hnext', hexported'⟩ := hresults' _ hshaped
    have hforeigns := Calls.ret.inj (hnext.symm.trans hnext')
    have hforeignsLength : foreigns.length = foreigns'.length := by
      rw [exportedList_length hexported, exportedList_length hexported']
    cases tupleVal_injective hforeignsLength hforeigns
    exact ⟨halvedList_of_imported argTys horder.1 _ args hargs hargs',
      halvedList_of_exported retTys horder.2 _ foreigns hexported hexported'⟩
  | .ffiFunTy _ _ (some _) _ => exact h.elim

theorem halvedList_of_exported (ffitys : List FfiTy) (horder : InOrderList ffitys)
    (values foreigns : List Val) (h : ExportedList stubCut ffitys values foreigns)
    (h' : ExportedList declaredCut ffitys values foreigns) : HalvedList ffitys := by
  match ffitys, values, foreigns with
  | [], _, _ => trivial
  | ffity :: ffitys, value :: values, foreign :: foreigns =>
    exact ⟨halved_of_exported ffity horder.1 value foreign h.1 h'.1,
      halvedList_of_exported ffitys horder.2 values foreigns h.2 h'.2⟩
  | _ :: _, [], _ => exact h.elim
  | _ :: _, _ :: _, [] => exact h.elim

theorem halvedFields_of_exported (fields : List (Label × FfiTy)) (horder : InOrderFields fields)
    (value : Val) (foreigns : List Val) (h : ExportedFields stubCut fields value foreigns)
    (h' : ExportedFields declaredCut fields value foreigns) : HalvedFields fields := by
  match fields, foreigns with
  | [], _ => trivial
  | (_, ffity) :: fields, foreign :: foreigns =>
    obtain ⟨⟨entry, hentry, hexported⟩, hrest⟩ := h
    obtain ⟨⟨entry', hentry', hexported'⟩, hrest'⟩ := h'
    rw [hentry] at hentry'
    cases hentry'
    exact ⟨halved_of_exported ffity horder.1 entry foreign hexported hexported',
      halvedFields_of_exported fields horder.2 value foreigns hrest hrest'⟩
  | _ :: _, [] => exact h.elim

theorem halved_of_imported (ffity : FfiTy) (horder : InOrder ffity) (foreign value : Val)
    (h : Imported stubCut ffity foreign value) (h' : Imported declaredCut ffity foreign value) :
    Halved ffity := by
  match ffity with
  | .ffiBaseTy _ => trivial
  | .ffiRecordTy _ => exact h.elim
  | .ffiFunTy _ argTys none retTys =>
    have hshaped := shapedList_someVals horder.1
    obtain ⟨funTy, foreigns, next, hrun, -, hexported, hresults⟩ := h _ hshaped
    obtain ⟨funTy', foreigns', next', hrun', -, hexported', hresults'⟩ := h' _ hshaped
    obtain ⟨hcall, rfl⟩ := Calls.call.inj (hrun.symm.trans hrun')
    obtain ⟨-, -, rfl⟩ := Call.foreignApply.inj hcall
    have hlength : (List.replicate retTys.length Val.unit).length = retTys.length :=
      List.length_replicate
    obtain ⟨values, hnext, himported⟩ := hresults _ hlength
    obtain ⟨values', hnext', himported'⟩ := hresults' _ hlength
    have hvalues := Calls.ret.inj (hnext.symm.trans hnext')
    have hvaluesLength : values.length = values'.length := by
      rw [(importedList_length himported).2, (importedList_length himported').2]
    cases tupleVal_injective hvaluesLength hvalues
    exact ⟨halvedList_of_exported argTys horder.1 _ foreigns hexported hexported',
      halvedList_of_imported retTys horder.2 _ values himported himported'⟩
  | .ffiFunTy _ argTys (some varTys) retTys =>
    obtain ⟨hargsOrder, hvarsOrder, hretsOrder⟩ := horder
    have hshaped := shapedList_someVals hargsOrder
    have hvarShaped := shapedList_someVals hvarsOrder
    obtain ⟨funTy, foreigns, varForeigns, next, hrun, hsplits, hexported, hvarExported,
      hresults⟩ := h _ _ hshaped hvarShaped
    obtain ⟨funTy', foreigns', varForeigns', next', hrun', hsplits', hexported',
      hvarExported', hresults'⟩ := h' _ _ hshaped hvarShaped
    obtain ⟨hcall, rfl⟩ := Calls.call.inj (hrun.symm.trans hrun')
    obtain ⟨rfl, -, happend⟩ := Call.foreignApply.inj hcall
    have hforeignsLength : foreigns.length = foreigns'.length := by
      rw [exportedList_length hexported, exportedList_length hexported']
    obtain ⟨rfl, rfl⟩ := List.append_inj happend hforeignsLength
    have hlength : (List.replicate retTys.length Val.unit).length = retTys.length :=
      List.length_replicate
    obtain ⟨values, hnext, himported⟩ := hresults _ hlength
    obtain ⟨values', hnext', himported'⟩ := hresults' _ hlength
    have hvalues := Calls.ret.inj (hnext.symm.trans hnext')
    have hvaluesLength : values.length = values'.length := by
      rw [(importedList_length himported).2, (importedList_length himported').2]
    cases tupleVal_injective hvaluesLength hvalues
    exact ⟨halvedList_of_exported argTys hargsOrder _ foreigns hexported hexported',
      halvedList_of_exported varTys hvarsOrder _ varForeigns hvarExported hvarExported',
      halvedList_of_imported retTys hretsOrder _ values himported himported',
      (hsplits.unique hsplits').1⟩

theorem halvedList_of_imported (ffitys : List FfiTy) (horder : InOrderList ffitys)
    (foreigns values : List Val) (h : ImportedList stubCut ffitys foreigns values)
    (h' : ImportedList declaredCut ffitys foreigns values) : HalvedList ffitys := by
  match ffitys, foreigns, values with
  | [], _, _ => trivial
  | ffity :: ffitys, foreign :: foreigns, value :: values =>
    exact ⟨halved_of_imported ffity horder.1 foreign value h.1 h'.1,
      halvedList_of_imported ffitys horder.2 foreigns values h.2 h'.2⟩
  | _ :: _, [], _ => exact h.elim
  | _ :: _, _ :: _, [] => exact h.elim

end

/-! ### Stubs -/

theorem stubImports_iff {ffity : FfiTy} (horder : InOrder ffity)
    (haccepted : ImportAccepted ffity) : StubImports declaredCut ffity ↔ Halved ffity := by
  constructor
  · intro h
    obtain ⟨ty, convert, hi, hstub, stubTy, -, hconvert⟩ := h 0
    obtain ⟨ty', convert', hi', hstub', -, stubTy', -, hconvert'⟩ :=
      stubImport_converts ffity haccepted horder 0
    cases hstub.symm.trans hstub'
    have hoperand : Operand (.tpForeignSymbol "" ty, ty) ty := ⟨trivial, rfl, rfl⟩
    have hread : Reads 0 hi [] (.tpForeignSymbol "" ty) (.foreignSymbol "") := fun _ _ => rfl
    obtain ⟨exp, hexp, -, hvalue⟩ := hconvert _ hoperand
    obtain ⟨exp', hexp', -, hvalue'⟩ := hconvert' _ hoperand
    cases hexp.symm.trans hexp'
    obtain ⟨value, heval, himported⟩ := hvalue [] _ hread
    obtain ⟨value', heval', himported'⟩ := hvalue' [] _ hread
    cases heval.symm.trans heval'
    exact halved_of_imported ffity horder _ value himported' himported
  · intro hhalved lo
    obtain ⟨ty, convert, hi, hstub, -, stubTy, hstubTy, hconvert⟩ :=
      stubImport_converts ffity haccepted horder lo
    refine ⟨ty, convert, hi, hstub, stubTy, hstubTy, ?_⟩
    intro exp hexp
    obtain ⟨exp', hexp', hty, hvalue⟩ := hconvert exp hexp
    refine ⟨exp', hexp', hty, ?_⟩
    intro env foreign hread
    obtain ⟨value, heval, himported⟩ := hvalue env foreign hread
    exact ⟨value, heval, imported_declared ffity hhalved foreign value himported⟩

theorem stubExports_iff {ffity : FfiTy} (horder : InOrder ffity)
    (haccepted : ExportAccepted ffity) : StubExports declaredCut ffity ↔ Halved ffity := by
  constructor
  · intro h
    obtain ⟨ty, convert, hi, hstub, -, hconvert⟩ := h 0
    obtain ⟨ty', convert', hi', hstub', -, -, hconvert'⟩ :=
      stubExport_converts ffity haccepted horder 0
    cases hstub.symm.trans hstub'
    let var : VarInfo := ⟨[], ty, hi, false⟩
    have hoperand : Operand (TypedCalcCon.tpVar var) ty := ⟨trivial, rfl, rfl⟩
    have hread : Reads 0 hi [(hi, someVal ffity)] (.tpVar var) (someVal ffity) :=
      reads_tpVar (Or.inr (le_refl hi)) List.lookup_cons_self
    have hshaped := shaped_someVal ffity horder
    obtain ⟨exp, hexp, hvalue⟩ := hconvert _ hoperand
    obtain ⟨exp', hexp', hvalue'⟩ := hconvert' _ hoperand
    cases hexp.symm.trans hexp'
    obtain ⟨foreign, heval, hexported⟩ := hvalue _ _ hread hshaped
    obtain ⟨foreign', heval', hexported'⟩ := hvalue' _ _ hread hshaped
    cases heval.symm.trans heval'
    exact halved_of_exported ffity horder _ foreign hexported' hexported
  · intro hhalved lo
    obtain ⟨ty, convert, hi, hstub, -, hty, hconvert⟩ :=
      stubExport_converts ffity haccepted horder lo
    refine ⟨ty, convert, hi, hstub, hty, ?_⟩
    intro exp hexp
    obtain ⟨exp', hexp', hvalue⟩ := hconvert exp hexp
    refine ⟨exp', hexp', ?_⟩
    intro env value hread hshaped
    obtain ⟨foreign, heval, hexported⟩ := hvalue env value hread hshaped
    exact ⟨foreign, heval, exported_declared ffity hhalved value foreign hexported⟩

/-- Where the labels of records are declared in order, the stubs convert position
by position if and only if every variadic part is as long as the fixed one. -/
theorem stubs_convert_iff (ffity : FfiTy) (horder : InOrder ffity) :
    (ImportAccepted ffity → (StubImports declaredCut ffity ↔ Halved ffity)) ∧
      (ExportAccepted ffity → (StubExports declaredCut ffity ↔ Halved ffity)) :=
  ⟨stubImports_iff horder, stubExports_iff horder⟩

/-- A base type of foreign functions. -/
def intFfiTy : FfiTy := .ffiBaseTy (.constructTy (.other 0) [])

/-- `(int, ...({1: int, 2: int -> int})) -> int`. -/
def callbackInRecordTy : FfiTy :=
  .ffiFunTy none [intFfiTy]
    (some [.ffiRecordTy [("1", intFfiTy), ("2", .ffiFunTy none [intFfiTy] none [intFfiTy])]])
    [intFfiTy]

/-- The stub calls back the function in the record, and the variadic part is as
long as the fixed one. -/
theorem stubs_convert_callbackInRecord : StubImports declaredCut callbackInRecordTy := by
  have horder : InOrder callbackInRecordTy := by
    refine ⟨⟨trivial, trivial⟩, ⟨⟨?_, trivial, ⟨⟨trivial, trivial⟩, trivial, trivial⟩, trivial⟩,
      trivial⟩, ⟨trivial, trivial⟩⟩
    exact List.Pairwise.cons (by decide) (List.pairwise_singleton _ _)
  have haccepted : ImportAccepted callbackInRecordTy :=
    ⟨⟨trivial, trivial⟩, ⟨⟨by decide, trivial, ⟨⟨trivial, trivial⟩, ⟨trivial, trivial⟩,
      le_refl 1⟩, trivial⟩, trivial⟩, ⟨trivial, trivial⟩, le_refl 1⟩
  apply ((stubs_convert_iff callbackInRecordTy horder).1 haccepted).2
  exact ⟨⟨trivial, trivial⟩, ⟨⟨trivial, ⟨⟨trivial, trivial⟩, trivial, trivial⟩, trivial⟩, trivial⟩,
    ⟨trivial, trivial⟩, rfl⟩

/-- `(int, int, ...(int)) -> int`. -/
def variadicTy : FfiTy := .ffiFunTy none [intFfiTy, intFfiTy] (some [intFfiTy]) [intFfiTy]

/-- `{b: int, a: int} -> int`, with the attribute `unsafe`. -/
def unorderedTy : FfiTy :=
  .ffiFunTy (some { defaultFFIAttributes with isUnsafe := true })
    [.ffiRecordTy [("b", intFfiTy), ("a", intFfiTy)]] none [intFfiTy]

/-- The boundary of the variadic part is misplaced, and the fields of a record
stand in the order of their labels. -/
theorem stubs_misplace :
    ImportAccepted variadicTy ∧ ¬ StubImports declaredCut variadicTy ∧
      ImportAccepted unorderedTy ∧ ¬ StubImports declaredCut unorderedTy := by
  refine ⟨⟨⟨trivial, trivial, trivial⟩, ⟨trivial, trivial⟩, ⟨trivial, trivial⟩, le_refl 1⟩, ?_,
    ⟨⟨⟨by decide, trivial, trivial, trivial⟩, trivial⟩, ⟨trivial, trivial⟩, le_refl 1⟩, ?_⟩
  · intro h
    obtain ⟨ty, convert, hi, hstub, stubTy, -, hconvert⟩ := h 0
    cases hstub
    obtain ⟨exp', hexp', -, hvalue⟩ :=
      hconvert (.tpForeignSymbol "f" _, _) ⟨trivial, rfl, rfl⟩
    cases hexp'
    obtain ⟨value, heval, himported⟩ := hvalue [] (.foreignSymbol "f") fun _ _ => rfl
    cases heval
    obtain ⟨funTy, foreigns, varForeigns, next, happly, ⟨_, _, _, _, hfunTy, hfixed, -⟩, -⟩ :=
      himported [.atom 0, .atom 1] [.atom 2] ⟨trivial, trivial, trivial⟩ ⟨trivial, trivial⟩
    have hcall := (Call.foreignApply.inj (Calls.call.inj happly).1).1
    cases hcall.trans hfunTy
    cases hfixed
  · intro h
    obtain ⟨ty, convert, hi, hstub, stubTy, -, hconvert⟩ := h 0
    cases hstub
    obtain ⟨exp', hexp', -, hvalue⟩ :=
      hconvert (.tpForeignSymbol "f" _, _) ⟨trivial, rfl, rfl⟩
    cases hexp'
    obtain ⟨value, heval, himported⟩ := hvalue [] (.foreignSymbol "f") fun _ _ => rfl
    cases heval
    have hshaped : ShapedList [.ffiRecordTy [("b", intFfiTy), ("a", intFfiTy)]]
        [.record [("a", .atom 0), ("b", .atom 1)]] := by
      refine ⟨⟨_, rfl, ?_, List.Perm.swap _ _ _, ⟨_, rfl, trivial⟩, ⟨_, rfl, trivial⟩, trivial⟩,
        trivial⟩
      exact List.Pairwise.cons (by decide) (List.pairwise_singleton _ _)
    obtain ⟨funTy, foreigns, next, happly, -, hexported, -⟩ := himported _ hshaped
    have hforeigns := (Call.foreignApply.inj (Calls.call.inj happly).1).2.2
    subst hforeigns
    obtain ⟨⟨entries, hentries, hfields⟩, -⟩ := hexported
    cases hentries
    -- the first position holds the entry of `a`, declared second
    obtain ⟨⟨entry, hentry, hfirst⟩, -⟩ := hfields
    cases hentry
    cases hfirst

end SmlSharp.FFICompilation
