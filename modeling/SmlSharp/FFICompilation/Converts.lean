/-
The stubs of types whose records are declared in the order of their labels, and
whose argument lists are split in the middle, convert what they should.
-/
import SmlSharp.FFICompilation.Operands

namespace SmlSharp.FFICompilation

open RecordLabel (Label)

variable {cut : Cut}

/-! ### Lists of stubs -/

def ExportListConverts (cut : Cut) (ffitys : List FfiTy) (lo hi : Nat)
    (stubs : List (Ty × Stub)) : Prop :=
  List.Forall₂ (fun ffity stub => ExportConverts cut ffity lo hi stub.1 stub.2) ffitys stubs

def ImportListConverts (cut : Cut) (ffitys : List FfiTy) (lo hi : Nat)
    (stubs : List (Ty × Stub)) : Prop :=
  List.Forall₂ (fun ffity stub => ImportConverts cut ffity lo hi stub.1 stub.2) ffitys stubs

variable {lo hi : Nat} {value : Val} {ffitys : List FfiTy} {stubs : List (Ty × Stub)}
  {tys : List Ty} {attributes : Option Attributes} {argTys retTys : List FfiTy}
  {varTys : Option (List FfiTy)}

theorem Reads.mono {env : Env} {exp : Tpexp}
    (h : Reads lo hi env exp value) (hlo : lo ≤ lo') (hhi : hi' ≤ hi) :
    Reads lo' hi' env exp value :=
  h.weaken (fun _ _ => rfl) hlo hhi

theorem ExportConverts.mono {ffity : FfiTy} {lo hi lo' hi' : Nat} {ty : Ty} {convert : Stub}
    (h : ExportConverts cut ffity lo hi ty convert) (hlo : lo' ≤ lo) (hhi : hi ≤ hi') :
    ExportConverts cut ffity lo' hi' ty convert := by
  obtain ⟨hty, hconvert⟩ := h
  refine ⟨hty, fun exp hexp => ?_⟩
  obtain ⟨exp', hexp', hvalue⟩ := hconvert exp hexp
  exact ⟨exp', hexp', fun env value hread => hvalue env value (hread.mono hlo hhi)⟩

theorem ImportConverts.mono {ffity : FfiTy} {lo hi lo' hi' : Nat} {ty : Ty} {convert : Stub}
    (h : ImportConverts cut ffity lo hi ty convert) (hlo : lo' ≤ lo) (hhi : hi ≤ hi') :
    ImportConverts cut ffity lo' hi' ty convert := by
  obtain ⟨stubTy, hty, hconvert⟩ := h
  refine ⟨stubTy, hty, fun exp hexp => ?_⟩
  obtain ⟨exp', hexp', hstubTy, hvalue⟩ := hconvert exp hexp
  exact ⟨exp', hexp', hstubTy, fun env foreign hread => hvalue env foreign (hread.mono hlo hhi)⟩

theorem ExportListConverts.mono {ffitys : List FfiTy} {lo hi lo' hi' : Nat}
    {stubs : List (Ty × Stub)} (h : ExportListConverts cut ffitys lo hi stubs) (hlo : lo' ≤ lo)
    (hhi : hi ≤ hi') : ExportListConverts cut ffitys lo' hi' stubs :=
  h.imp fun _ _ hconverts => hconverts.mono hlo hhi

theorem ImportListConverts.mono {ffitys : List FfiTy} {lo hi lo' hi' : Nat}
    {stubs : List (Ty × Stub)} (h : ImportListConverts cut ffitys lo hi stubs) (hlo : lo' ≤ lo)
    (hhi : hi ≤ hi') : ImportListConverts cut ffitys lo' hi' stubs :=
  h.imp fun _ _ hconverts => hconverts.mono hlo hhi

theorem ExportListConverts.stubTys (h : ExportListConverts cut ffitys lo hi stubs) :
    TypedCalcCon.ffiStubTyList ffitys = .ok (stubs.map Prod.fst) := by
  induction h with
  | nil => rfl
  | cons hhead _ ih =>
    rw [TypedCalcCon.ffiStubTyList, hhead.1, ih]
    rfl

/-- The stubs of a list convert position by position. -/
theorem ExportListConverts.zipApp {ffitys : List FfiTy} {lo hi : Nat}
    {stubs : List (Ty × Stub)} (h : ExportListConverts cut ffitys lo hi stubs) {exps : List Exp}
    (hexps : List.Forall₂ Operand exps (stubs.map Prod.fst)) :
    ∃ exps', zipApp (stubs.map Prod.snd) exps = .ok exps' ∧ exps'.length = ffitys.length ∧
      ∀ env values, ReadsList lo hi env exps values → ShapedList ffitys values →
        ∃ foreigns, EvalsTo env exps' foreigns ∧ ExportedList cut ffitys values foreigns := by
  induction h generalizing exps with
  | nil =>
    cases hexps
    refine ⟨[], rfl, rfl, ?_⟩
    intro env values hread _
    cases hread
    exact ⟨[], List.Forall₂.nil, trivial⟩
  | cons hhead _ ih =>
    cases hexps with
    | cons hexp hrest =>
      obtain ⟨exp', hexp', hvalue⟩ := hhead.2 _ hexp
      obtain ⟨exps', hexps', hlength, hvalues⟩ := ih hrest
      refine ⟨exp' :: exps', ?_, congrArg Nat.succ hlength, ?_⟩
      · rw [List.map_cons, FFICompilation.zipApp, hexp', hexps']
        rfl
      · intro env values hread hshaped
        cases hread with
        | cons hreadHead hreadTail =>
          obtain ⟨foreign, heval, hexported⟩ := hvalue env _ hreadHead hshaped.1
          obtain ⟨foreigns, hevals, hexporteds⟩ := hvalues env _ hreadTail hshaped.2
          exact ⟨foreign :: foreigns, List.Forall₂.cons heval hevals,
            hexported, hexporteds⟩

theorem ImportListConverts.zipApp {ffitys : List FfiTy} {lo hi : Nat}
    {stubs : List (Ty × Stub)} (h : ImportListConverts cut ffitys lo hi stubs) {exps : List Exp}
    (hexps : List.Forall₂ Operand exps (stubs.map Prod.fst)) :
    ∃ exps', zipApp (stubs.map Prod.snd) exps = .ok exps' ∧ exps'.length = ffitys.length ∧
      TypedCalcCon.ffiStubTyList ffitys = .ok (exps'.map Prod.snd) ∧
      ∀ env foreigns, ReadsList lo hi env exps foreigns →
        ∃ values, EvalsTo env exps' values ∧ ImportedList cut ffitys foreigns values := by
  induction h generalizing exps with
  | nil =>
    cases hexps
    refine ⟨[], rfl, rfl, rfl, ?_⟩
    intro env foreigns hread
    cases hread
    exact ⟨[], List.Forall₂.nil, trivial⟩
  | cons hhead _ ih =>
    cases hexps with
    | cons hexp hrest =>
      obtain ⟨stubTy, hstubTy, hconvert⟩ := hhead
      obtain ⟨exp', hexp', hty, hvalue⟩ := hconvert _ hexp
      obtain ⟨exps', hexps', hlength, htys, hvalues⟩ := ih hrest
      refine ⟨exp' :: exps', ?_, congrArg Nat.succ hlength, ?_, ?_⟩
      · rw [List.map_cons, FFICompilation.zipApp, hexp', hexps']
        rfl
      · rw [TypedCalcCon.ffiStubTyList, hstubTy, htys, List.map_cons, hty]
        rfl
      · intro env foreigns hread
        cases hread with
        | cons hreadHead hreadTail =>
          obtain ⟨value, heval, himported⟩ := hvalue env _ hreadHead
          obtain ⟨values, hevals, himporteds⟩ := hvalues env _ hreadTail
          exact ⟨value :: values, List.Forall₂.cons heval hevals, himported, himporteds⟩

/-! ### Records -/

theorem shapedFields_forall {fields : List (Label × FfiTy)}
    (h : ShapedFields fields value) :
    ∃ entries, List.Forall₂ (fun field entry => value.field field.1 = some entry) fields entries ∧
      ShapedList (fields.map Prod.snd) entries := by
  induction fields with
  | nil => exact ⟨[], List.Forall₂.nil, trivial⟩
  | cons field fields ih =>
    obtain ⟨label, ffity⟩ := field
    obtain ⟨⟨entry, hentry, hshaped⟩, hrest⟩ := h
    obtain ⟨entries, hentries, hshapeds⟩ := ih hrest
    exact ⟨entry :: entries, List.Forall₂.cons hentry hentries, hshaped, hshapeds⟩

theorem exportedFields_of_forall {fields : List (Label × FfiTy)}
    {entries foreigns : List Val}
    (hentries : List.Forall₂ (fun field entry => value.field field.1 = some entry) fields entries)
    (hexported : ExportedList cut (fields.map Prod.snd) entries foreigns) :
    ExportedFields cut fields value foreigns := by
  induction hentries generalizing foreigns with
  | nil =>
    cases foreigns with
    | nil => trivial
    | cons => exact hexported.elim
  | cons hentry _ ih =>
    cases foreigns with
    | nil => exact hexported.elim
    | cons foreign foreigns => exact ⟨⟨_, hentry, hexported.1⟩, ih hexported.2⟩

/-- A record in the order of its labels has its entries at the declared
positions already. -/
theorem entries_of_ascending {fields : List (Label × FfiTy)} {entries : List (Label × Val)}
    (hfields : AscendingLabels (fields.map Prod.fst))
    (hentries : AscendingLabels (entries.map Prod.fst))
    (hperm : (entries.map Prod.fst).Perm (fields.map Prod.fst)) :
    fields.map Prod.fst = entries.map Prod.fst := by
  apply List.Perm.eq_of_pairwise _ hfields hentries hperm.symm
  intro label1 label2 _ _ hlt hlt'
  exact absurd hlt' (compare_ne_lt_of_lt hlt)

mutual

/-- A type without functions needs no conversion. -/
theorem exported_self (ffity : FfiTy) (value : Val) (hfun : hasFunTy ffity = false)
    (horder : InOrder ffity) (hshaped : Shaped ffity value) : Exported cut ffity value value := by
  match ffity with
  | .ffiBaseTy ty => rfl
  | .ffiFunTy attributes argTys varTys retTys => cases hfun
  | .ffiRecordTy fields =>
    obtain ⟨entries, rfl, hentries, hperm, hshapeds⟩ := hshaped
    have hlabels := entries_of_ascending horder.1 hentries hperm
    have hvalues := forall₂_field_record hentries.nodup hlabels
    exact ⟨entries, rfl,
      exportedFields_self fields (.record entries) (entries.map Prod.snd) hfun horder.2
        hshapeds hvalues⟩

theorem exportedFields_self (fields : List (Label × FfiTy)) (value : Val) (entries : List Val)
    (hfun : hasFunTyFields fields = false) (horder : InOrderFields fields)
    (hshaped : ShapedFields fields value)
    (hentries : List.Forall₂ (fun field entry => value.field field.1 = some entry) fields
      entries) : ExportedFields cut fields value entries := by
  match fields, entries, hentries with
  | [], [], _ => trivial
  | (label, ffity) :: fields, entry :: entries, .cons hentry hrest =>
    obtain ⟨hfunHead, hfunTail⟩ := Bool.or_eq_false_iff.1 hfun
    obtain ⟨⟨entry', hentry', hshapedHead⟩, hshapedTail⟩ := hshaped
    rw [hentry] at hentry'
    cases hentry'
    exact ⟨⟨entry, hentry, exported_self ffity entry hfunHead horder.1 hshapedHead⟩,
      exportedFields_self fields value entries hfunTail horder.2 hshapedTail hrest⟩

end

theorem ffiStubTyFields_ok {fields : List (Label × FfiTy)}
    (h : TypedCalcCon.ffiStubTyList (fields.map Prod.snd) = .ok tys) :
    TypedCalcCon.ffiStubTyFields fields = .ok ((fields.map Prod.fst).zip tys) := by
  induction fields generalizing tys with
  | nil =>
    cases h
    rfl
  | cons field fields ih =>
    obtain ⟨label, ffity⟩ := field
    rw [List.map_cons, TypedCalcCon.ffiStubTyList] at h
    obtain ⟨ty, hty, h⟩ := except_bind_ok.1 h
    obtain ⟨tys', htys', h⟩ := except_bind_ok.1 h
    cases h
    rw [TypedCalcCon.ffiStubTyFields, hty, ih htys']
    rfl

theorem forall₂_zip_labels {fields : List (Label × FfiTy)} {entries : List Val}
    (h : List.Forall₂ (fun field entry => value.field field.1 = some entry) fields entries)
    (hlength : tys.length = fields.length) :
    List.Forall₂ (fun field entry => value.field field.1 = some entry)
      ((fields.map Prod.fst).zip tys) entries := by
  induction h generalizing tys with
  | nil => exact List.Forall₂.nil
  | cons hentry _ ih =>
    cases tys with
    | nil => cases hlength
    | cons ty tys => exact List.Forall₂.cons hentry (ih (Nat.succ.inj hlength))

theorem recordStub_converts {fields : List (Label × FfiTy)} {next : Nat}
    (hstubs : ExportListConverts cut (fields.map Prod.snd) lo hi stubs)
    (horder : InOrder (.ffiRecordTy fields)) :
    ∃ ty convert, recordStub (.ffiRecordTy fields) fields stubs next =
        .ok ((ty, convert), next) ∧
      ExportConverts cut (.ffiRecordTy fields) lo hi ty convert := by
  have hlength : (stubs.map Prod.fst).length = fields.length := by
    rw [List.length_map, ← hstubs.length_eq, List.length_map]
  have hlengths : (fields.map Prod.fst).length = (stubs.map Prod.fst).length := by
    rw [hlength, List.length_map]
  have hfst : ((fields.map Prod.fst).zip (stubs.map Prod.fst)).map Prod.fst =
      fields.map Prod.fst := List.map_fst_zip (by omega)
  have hsnd : ((fields.map Prod.fst).zip (stubs.map Prod.fst)).map Prod.snd =
      stubs.map Prod.fst := List.map_snd_zip (by omega)
  have hmap : labelMapFromList ((fields.map Prod.fst).zip (stubs.map Prod.fst)) =
      .ok ((fields.map Prod.fst).zip (stubs.map Prod.fst)) := by
    apply labelMapFromList_ascending
    rw [hfst]
    exact horder.1
  refine ⟨.recordTy ((fields.map Prod.fst).zip (stubs.map Prod.fst)), _,
    stateT_liftBind_ok.2 ⟨_, hmap, rfl⟩, ?_, ?_⟩
  · rw [TypedCalcCon.ffiStubTy, ffiStubTyFields_ok hstubs.stubTys]
    show (do return Ty.recordTy (← labelMapFromList _)) = _
    rw [hmap]
    rfl
  · intro exp hexp
    split
    · rename_i hplain
      have hfun : hasFunTy (.ffiRecordTy fields) = false := by
        simpa using (Bool.and_eq_true_iff.1 hplain).2
      refine ⟨exp, rfl, ?_⟩
      intro env value hread hshaped
      exact ⟨value, hread.eval, exported_self _ value hfun horder hshaped⟩
    · have hnodup : (((fields.map Prod.fst).zip (stubs.map Prod.fst)).map Prod.fst).Nodup := by
        rw [hfst]
        exact horder.1.nodup
      have hexplode := explodeRecord_operand hexp hnodup
      have hoperands : List.Forall₂ Operand
          (((fields.map Prod.fst).zip (stubs.map Prod.fst)).map (selected exp))
          (stubs.map Prod.fst) := by
        rw [List.forall₂_map_left_iff, ← hsnd, List.forall₂_map_right_iff, hsnd]
        exact List.forall₂_same.2 fun field _ => operand_selected exp field
      obtain ⟨exps', hexps', -, hvalues⟩ := hstubs.zipApp hoperands
      refine ⟨TypedCalcCon.tpRecord (tupleList exps'), ?_, ?_⟩
      · exact except_bind_ok.2 ⟨_, hexplode,
          except_bind_ok.2 ⟨_, hexps', implodeRecord_tupleList exps'⟩⟩
      · intro env value hread hshaped
        obtain ⟨-, -, -, -, hshapeds⟩ := hshaped
        obtain ⟨entries, hentries, hshapedList⟩ := shapedFields_forall hshapeds
        have hreads := readsList_selected hread (forall₂_zip_labels hentries hlength)
        obtain ⟨foreigns, hevals, hexported⟩ := hvalues env entries hreads hshapedList
        refine ⟨.record (tupleList foreigns), ?_, tupleList foreigns, rfl, ?_⟩
        · rw [TypedCalcCon.tpRecord, eval, tupleList, hevals.evalFields 1]
          rfl
        · rw [tupleList, tupleListFrom_snd]
          exact exportedFields_of_forall hentries hexported

/-! ### Functions -/

theorem shapedList_append {ffitys1 ffitys2 : List FfiTy} {values1 values2 : List Val}
    (h1 : ShapedList ffitys1 values1) (h2 : ShapedList ffitys2 values2) :
    ShapedList (ffitys1 ++ ffitys2) (values1 ++ values2) := by
  induction ffitys1 generalizing values1 with
  | nil =>
    cases values1 with
    | nil => exact h2
    | cons => exact h1.elim
  | cons ffity ffitys1 ih =>
    cases values1 with
    | nil => exact h1.elim
    | cons value values1 => exact ⟨h1.1, ih h1.2⟩

theorem exportedList_append {ffitys1 ffitys2 : List FfiTy} {values1 values2 foreigns : List Val}
    (h : ExportedList cut (ffitys1 ++ ffitys2) (values1 ++ values2) foreigns)
    (hshaped : ShapedList ffitys1 values1) :
    ∃ foreigns1 foreigns2, foreigns = foreigns1 ++ foreigns2 ∧
      ExportedList cut ffitys1 values1 foreigns1 ∧ ExportedList cut ffitys2 values2 foreigns2 := by
  induction ffitys1 generalizing values1 foreigns with
  | nil =>
    cases values1 with
    | nil => exact ⟨[], foreigns, rfl, trivial, h⟩
    | cons => exact hshaped.elim
  | cons ffity ffitys1 ih =>
    cases values1 with
    | nil => exact hshaped.elim
    | cons value values1 =>
      cases foreigns with
      | nil => exact h.elim
      | cons foreign foreigns =>
        obtain ⟨foreigns1, foreigns2, rfl, h1, h2⟩ := ih h.2 hshaped.2
        exact ⟨foreign :: foreigns1, foreigns2, rfl, ⟨h.1, h1⟩, h2⟩

theorem shapedList_length {values : List Val}
    (h : ShapedList ffitys values) : values.length = ffitys.length := by
  induction ffitys generalizing values with
  | nil =>
    cases values with
    | nil => rfl
    | cons => exact h.elim
  | cons ffity ffitys ih =>
    cases values with
    | nil => exact h.elim
    | cons value values => exact congrArg Nat.succ (ih h.2)

theorem split_append {α : Type} (first second : List α) :
    split (first ++ second) first.length = (first, some second) := by
  induction first with
  | nil =>
    cases second with
    | nil => rfl
    | cons => rfl
  | cons a first ih =>
    rw [List.length_cons, List.cons_append, split, ih]

/-- Where the boundary lies, if there is one. -/
def SplitsBy (cut : Cut) (funTy : Ty) (fixed : Nat) : Option Nat → Prop
  | none => SplitsAt funTy fixed none
  | some variadic => SplitsAt funTy (cut fixed variadic).1 (some (cut fixed variadic).2)

/-- The stubs split the types of the arguments after as many as the variadic part
has. -/
theorem splitArgTys_splitsBy {args2 : Option (List (Ty × Stub))} {fixed : Nat}
    (hlength : tys.length = fixed + (args2.getD []).length) (resultTy : Option Ty)
    (attributes : Attributes) :
    SplitsBy stubCut (.foreignFunPtrTy (splitArgTys args2 tys).1 (splitArgTys args2 tys).2
        resultTy attributes) fixed (args2.map List.length) ∧
      ((splitArgTys args2 tys).1 ++ (splitArgTys args2 tys).2.getD []).length = tys.length := by
  cases args2 with
  | none =>
    constructor
    · exact ⟨_, _, _, _, rfl, hlength, rfl⟩
    · rw [splitArgTys, Option.getD_none, List.append_nil]
  | some varArgs =>
    rw [Option.getD_some] at hlength
    have htake : (tys.take varArgs.length).length = varArgs.length := by
      rw [List.length_take]
      omega
    have hdrop : (tys.drop varArgs.length).length = fixed := by
      rw [List.length_drop]
      omega
    have hsplit := split_append (tys.take varArgs.length) (tys.drop varArgs.length)
    rw [List.take_append_drop, htake] at hsplit
    rw [splitArgTys, hsplit]
    constructor
    · exact ⟨_, _, _, _, rfl, htake, congrArg some hdrop⟩
    · rw [Option.getD_some, List.take_append_drop]

theorem ffiStubTy_function {tys1 tys2 tys3 : List Ty} {argTy retTy : Ty}
    (h1 : TypedCalcCon.ffiStubTyList argTys = .ok tys1)
    (h2 : TypedCalcCon.ffiStubTyList (varTys.getD []) = .ok tys2)
    (h3 : TypedCalcCon.ffiStubTyList retTys = .ok tys3)
    (harg : TypedCalcCon.tupleTy (tys1 ++ tys2) = .ok argTy)
    (hret : TypedCalcCon.tupleTy tys3 = .ok retTy) :
    TypedCalcCon.ffiStubTy (.ffiFunTy attributes argTys varTys retTys) =
      .ok (.funMTy [argTy] retTy) := by
  cases varTys with
  | none =>
    cases h2
    exact except_bind_ok.2 ⟨tys1, h1, except_bind_ok.2 ⟨tys3, h3,
      except_bind_ok.2 ⟨argTy, harg, except_bind_ok.2 ⟨retTy, hret, rfl⟩⟩⟩⟩
  | some varTys =>
    exact except_bind_ok.2 ⟨tys1, h1, except_bind_ok.2 ⟨tys2, h2, except_bind_ok.2 ⟨tys3, h3,
      except_bind_ok.2 ⟨argTy, harg, except_bind_ok.2 ⟨retTy, hret, rfl⟩⟩⟩⟩⟩

theorem imported_of_apply {foreign : Val}
    (h : ∀ args varArgs, ShapedList argTys args → ShapedList (varTys.getD []) varArgs →
      ∃ funTy foreigns next, value.apply [tupleVal (args ++ varArgs)] =
          .call (.foreignApply funTy foreign foreigns) next ∧
        SplitsBy cut funTy argTys.length (varTys.map List.length) ∧
        ExportedList cut (argTys ++ varTys.getD []) (args ++ varArgs) foreigns ∧
        ∀ results, results.length = retTys.length →
          ∃ values, next (tupleVal results) = .ret (tupleVal values) ∧
            ImportedList cut retTys results values) :
    Imported cut (.ffiFunTy attributes argTys varTys retTys) foreign value := by
  cases varTys with
  | none =>
    intro args hargs
    obtain ⟨funTy, foreigns, next, happly, hsplits, hexported, hresults⟩ :=
      h args [] hargs trivial
    simp only [Option.getD_none, List.append_nil] at happly hexported
    exact ⟨funTy, foreigns, next, happly, hsplits, hexported, hresults⟩
  | some varTys =>
    intro args varArgs hargs hvarArgs
    obtain ⟨funTy, foreigns, next, happly, hsplits, hexported, hresults⟩ :=
      h args varArgs hargs hvarArgs
    obtain ⟨foreigns1, foreigns2, rfl, hexported1, hexported2⟩ :=
      exportedList_append hexported hargs
    exact ⟨funTy, foreigns1, foreigns2, next, happly, hsplits, hexported1, hexported2, hresults⟩

theorem resultTy_ok (h : tys.length ≤ 1) : ∃ ty, resultTy tys = .ok ty := by
  match tys, h with
  | [], _ => exact ⟨none, rfl⟩
  | [ty], _ => exact ⟨some ty, rfl⟩

theorem tpForeignApply_ok {exp : Exp} {argTyList : List Ty} {varArgTyList : Option (List Ty)}
    {resultTy : Option Ty} {attributes : Attributes}
    (hty : exp.2 = .foreignFunPtrTy argTyList varArgTyList resultTy attributes)
    (hlength : (argTyList ++ varArgTyList.getD []).length = exps.length) :
    TypedCalcCon.tpForeignApply exp exps =
      .ok (.tpForeignApply exp.1 (exps.map Prod.fst) attributes resultTy,
        resultTy.getD unitTy) := by
  rw [TypedCalcCon.tpForeignApply, hty]
  exact if_pos hlength

theorem tpLet_ty (decls : List Tpdecl) (body : Exp) :
    (TypedCalcCon.tpLet decls body).2 = body.2 := by
  rw [TypedCalcCon.tpLet.eq_def]
  split
  · rfl
  · rfl
  · rfl

theorem length_getD_map {α : Type} (items : Option (List α)) :
    (items.getD []).length = (items.map List.length).getD 0 := by
  cases items with
  | none => rfl
  | some items => rfl

/-- The stub of a foreign function, from stubs of the arguments and results. -/
theorem functionStub_converts {attributes' : Attributes} {n m : Nat}
    {args1 rets : List (Ty × Stub)} {args2 : Option (List (Ty × Stub))}
    {stubRets : Gen (List (Ty × Stub))}
    (hargs1 : ExportListConverts stubCut argTys lo n args1)
    (hargs2 : ExportListConverts stubCut (varTys.getD []) lo n (args2.getD []))
    (hvar : args2.map List.length = varTys.map List.length)
    (hstubRets : stubRets (n + 1) = .ok (rets, m))
    (hrets : ImportListConverts stubCut retTys (n + 1) m rets)
    (hone : retTys.length ≤ 1) (hlo : lo ≤ n) (hm : n + 1 ≤ m) :
    ∃ ty convert, functionStub attributes' args1 args2 stubRets n =
        .ok ((ty, convert), m + 1) ∧
      ImportConverts stubCut (.ffiFunTy attributes argTys varTys retTys) lo (m + 1) ty convert := by
  -- the arguments are taken apart and exported
  have hargs : ExportListConverts stubCut (argTys ++ varTys.getD []) lo n
    (args1 ++ args2.getD []) :=
    List.rel_append hargs1 hargs2
  obtain ⟨argTy, argExps, hargTy, hdecompose, hoperands, hreads⟩ :=
    decomposeArg_reads (args1.map Prod.fst ++ (args2.getD []).map Prod.fst) n
  rw [← List.map_append] at hoperands
  obtain ⟨ffiArgExps, hffiArgExps, hffiLength, hffiArgs⟩ := hargs.zipApp hoperands
  rw [List.map_append] at hffiArgExps
  -- the result is imported
  have hretsLength : (rets.map Prod.fst).length = retTys.length := by
    rw [List.length_map, ← hrets.length_eq]
  obtain ⟨ffiRetTy, hffiRetTy⟩ := resultTy_ok (hretsLength.trans_le hone)
  obtain ⟨retTy, ffiRetExps, -, hdecompose', hoperands', hreads'⟩ :=
    decomposeArg_reads (rets.map Prod.fst) m
  obtain ⟨retExps, hretExps, -, hretTys, hretVals⟩ := hrets.zipApp hoperands'
  obtain ⟨retExp, hretExp, hretExpTy, hretVal⟩ := composeArg_evals retExps
  -- the boundary between the arguments
  have hvarLength : (args2.getD []).length = (varTys.getD []).length := by
    rw [length_getD_map, hvar, ← length_getD_map]
  have htotal : (ffiArgExps.map Prod.snd).length = argTys.length + (args2.getD []).length := by
    rw [List.length_map, hffiLength, List.length_append, hvarLength]
  obtain ⟨hsplits, hcount⟩ := splitArgTys_splitsBy htotal ffiRetTy attributes'
  rw [List.length_map] at hcount
  refine ⟨_, _, stateT_bind_ok.2 ⟨_, _, hdecompose, stateT_liftBind_ok.2 ⟨_, hffiArgExps,
    stateT_bind_ok.2 ⟨_, _, hstubRets, stateT_liftBind_ok.2 ⟨_, hffiRetTy,
      stateT_bind_ok.2 ⟨_, _, hdecompose', stateT_liftBind_ok.2 ⟨_, hretExps,
        stateT_liftBind_ok.2 ⟨_, hretExp, rfl⟩⟩⟩⟩⟩⟩⟩, .funMTy [argTy] retExp.2,
    ffiStubTy_function hargs1.stubTys hargs2.stubTys hretTys hargTy hretExpTy, ?_⟩
  rintro exp ⟨-, hexpTy, hexp2⟩
  have happ := tpForeignApply_ok hexp2 hcount
  refine ⟨_, except_bind_ok.2 ⟨_, happ, rfl⟩, ?_, ?_⟩
  · exact congrArg (Ty.funMTy [argTy]) (tpLet_ty _ retExp)
  intro env foreign hread
  refine ⟨_, rfl, imported_of_apply ?_⟩
  intro args varArgs hshaped hvarShaped
  -- the body of the stub runs with the argument bound
  let env1 : Env := (n, tupleVal (args ++ varArgs)) :: env
  have hshapeds := shapedList_append hshaped hvarShaped
  have hargsLength : (args ++ varArgs).length =
      (args1.map Prod.fst ++ (args2.getD []).map Prod.fst).length := by
    rw [shapedList_length hshapeds, List.length_append, List.length_append, List.length_map,
      List.length_map, hvarLength, hargs1.length_eq]
  have hfun : eval env1 exp.1 = .ret foreign := by
    apply hread
    intro id hid
    exact lookup_cons_ne (by omega) _ env
  have hreadArgs := hreads lo n env1 (args ++ varArgs) hargsLength (Or.inr (le_refl n))
    List.lookup_cons_self
  obtain ⟨foreigns, hevals, hexported⟩ := hffiArgs env1 (args ++ varArgs) hreadArgs hshapeds
  refine ⟨expTy exp.1, foreigns, fun result => eval ((m, result) :: env1) retExp.1, ?_, ?_,
    hexported, ?_⟩
  · show (eval env1 (TypedCalcCon.tpLet _ retExp).1) = _
    rw [eval_tpLet_val, eval, hfun, hevals.evalList]
    rfl
  · rw [hexpTy, ← hvar]
    exact hsplits
  · intro results hresults
    have hreadRets := hreads' (n + 1) m ((m, tupleVal results) :: env1) results
      (hresults.trans hretsLength.symm) (Or.inr (le_refl m)) List.lookup_cons_self
    obtain ⟨values, hvalues, himported⟩ := hretVals _ results hreadRets
    exact ⟨values, hretVal _ values hvalues, himported⟩

/-! ### Callbacks -/

theorem newVars_ok (args : List (Ty × Stub)) (n : Nat) :
    ∃ vars, args.mapM (fun arg => newVar arg.1) n = .ok (vars, n + args.length) ∧
      vars.length = args.length ∧
      List.Forall₂ Operand (vars.map TypedCalcCon.tpVar) (args.map Prod.fst) ∧
      ∀ (env : Env) values, values.length = vars.length →
        List.Forall₂ (fun var value => n ≤ var.id ∧
          ((vars.map VarInfo.id).zip values ++ env).lookup var.id = some value) vars values ∧
        ∀ id, id < n ∨ n + args.length ≤ id →
          ((vars.map VarInfo.id).zip values ++ env).lookup id = env.lookup id := by
  induction args generalizing n with
  | nil =>
    refine ⟨[], rfl, rfl, List.Forall₂.nil, ?_⟩
    intro env values hlength
    rw [List.length_eq_zero_iff.1 hlength]
    exact ⟨List.Forall₂.nil, fun _ _ => rfl⟩
  | cons arg args ih =>
    obtain ⟨vars, hvars, hlength, hoperands, hlookups⟩ := ih (n + 1)
    refine ⟨⟨[], arg.1, n, false⟩ :: vars, ?_, congrArg Nat.succ hlength,
      List.Forall₂.cons ⟨trivial, rfl, rfl⟩ hoperands, ?_⟩
    · rw [List.mapM_cons]
      apply stateT_bind_ok.2
      refine ⟨⟨[], arg.1, n, false⟩, n + 1, rfl, stateT_bind_ok.2 ⟨vars, _, hvars, ?_⟩⟩
      rw [List.length_cons, show n + 1 + args.length = n + (args.length + 1) by omega]
      rfl
    · intro env values hvalues
      cases values with
      | nil => cases hvalues
      | cons value values =>
        obtain ⟨hreads, hothers⟩ := hlookups env values (Nat.succ.inj hvalues)
        constructor
        · refine List.Forall₂.cons ⟨le_refl n, List.lookup_cons_self⟩ (hreads.imp ?_)
          intro var value' hvar
          refine ⟨Nat.le_of_succ_le hvar.1, ?_⟩
          rw [List.map_cons, List.zip_cons_cons, List.cons_append,
            lookup_cons_ne (Nat.ne_of_gt hvar.1)]
          exact hvar.2
        · intro id hid
          rw [List.length_cons] at hid
          have hne : id ≠ n := by omega
          rw [List.map_cons, List.zip_cons_cons, List.cons_append, lookup_cons_ne hne]
          exact hothers id (by omega)

theorem tpAppM_ok {exp : Exp} {argTys : List Ty} {retTy : Ty} (hexp : Refers exp.1)
    (hty : exp.2 = .funMTy argTys retTy) (args : List Exp) :
    TypedCalcCon.tpAppM exp args = .ok (.tpAppM exp.1 exp.2 (args.map Prod.fst), retTy) := by
  obtain ⟨term, ty⟩ := exp
  cases hty
  cases term with
  | tpFnM => exact hexp.elim
  | _ => rfl

theorem eval_tpCallbackFn (attributes : Attributes) (vars : List VarInfo) (body : Exp)
    (isVoid : Bool) (env : Env) :
    eval env (TypedCalcCon.tpCallbackFn attributes vars body isVoid).1 =
      .ret (.callback env vars body.1 isVoid) := by
  cases isVoid with
  | true => rfl
  | false => rfl

/-- The stub of a callback, from stubs of the arguments and results. -/
theorem callbackStub_converts {attributes' : Attributes} {n m : Nat} {args rets : List (Ty × Stub)}
    {stubRets : Gen (List (Ty × Stub))}
    (hargs : ImportListConverts cut argTys lo n args)
    (hstubRets : stubRets (n + args.length) = .ok (rets, m))
    (hrets : ExportListConverts cut retTys (n + args.length) m rets)
    (hlo : lo ≤ n) (hm : n + args.length ≤ m) :
    ∃ ty convert, callbackStub attributes' args stubRets n = .ok ((ty, convert), m + 1) ∧
      ExportConverts cut (.ffiFunTy attributes argTys none retTys) lo (m + 1) ty convert := by
  -- the arguments are imported
  obtain ⟨vars, hvars, hvarsLength, hoperands, hlookups⟩ := newVars_ok args n
  obtain ⟨argExps, hargExps, -, hargTys, hargVals⟩ := hargs.zipApp hoperands
  obtain ⟨argExp, hargExp, hargExpTy, hargVal⟩ := composeArg_evals argExps
  -- the result is exported
  obtain ⟨retTy, retExps, hretTy, hdecompose, hoperands', hreads⟩ :=
    decomposeArg_reads (rets.map Prod.fst) m
  obtain ⟨ffiRetExps, hffiRetExps, hffiLength, hffiRets⟩ := hrets.zipApp hoperands'
  obtain ⟨ffiRetExp, hffiRetExp, -, hffiRet⟩ := composeArg_evals ffiRetExps
  have hargsLength : args.length = argTys.length := hargs.length_eq.symm
  have hretsLength : (rets.map Prod.fst).length = retTys.length := by
    rw [List.length_map, ← hrets.length_eq]
  refine ⟨_, _, stateT_bind_ok.2 ⟨_, _, hvars, stateT_liftBind_ok.2 ⟨_, hargExps,
    stateT_liftBind_ok.2 ⟨_, hargExp, stateT_bind_ok.2 ⟨_, _, hstubRets,
      stateT_bind_ok.2 ⟨_, _, hdecompose, stateT_liftBind_ok.2 ⟨_, hffiRetExps,
        stateT_liftBind_ok.2 ⟨_, hffiRetExp, rfl⟩⟩⟩⟩⟩⟩⟩, ?_, ?_⟩
  · apply ffiStubTy_function hargTys rfl hrets.stubTys _ hretTy
    rw [List.append_nil]
    exact hargExpTy
  rintro exp ⟨hrefers, -, hexp2⟩
  have happ := tpAppM_ok hrefers hexp2 [argExp]
  refine ⟨_, except_bind_ok.2 ⟨_, happ, rfl⟩, ?_⟩
  intro env value hread _
  have hvoid : ffiRetExps.isEmpty = retTys.isEmpty := by
    rw [Bool.eq_iff_iff, List.isEmpty_iff_length_eq_zero, List.isEmpty_iff_length_eq_zero,
      hffiLength]
  refine ⟨_, eval_tpCallbackFn attributes' vars _ ffiRetExps.isEmpty env,
    ⟨env, vars, _, by rw [hvoid]⟩, ?_⟩
  intro foreigns hforeigns
  -- the body of the callback runs with the arguments bound
  have hforeignsLength : foreigns.length = vars.length := by omega
  let env1 : Env := (vars.map VarInfo.id).zip foreigns ++ env
  obtain ⟨hvarReads, hothers⟩ := hlookups env foreigns hforeignsLength
  have hfun : eval env1 exp.1 = .ret value := by
    apply hread
    intro id hid
    exact hothers id (by omega)
  have hargReads : ReadsList lo n env1 (vars.map TypedCalcCon.tpVar) foreigns := by
    rw [ReadsList, List.forall₂_map_left_iff]
    exact hvarReads.imp fun var foreign hvar => reads_tpVar (Or.inr hvar.1) hvar.2
  obtain ⟨values, hvalues, himported⟩ := hargVals env1 foreigns hargReads
  have hargEval := hargVal env1 values hvalues
  refine ⟨values, fun result => eval ((m, result) :: env1) ffiRetExp.1, ?_, himported, ?_⟩
  · show (do eval (← enter env vars foreigns) _) = _
    rw [enter, if_pos hforeignsLength.symm, Calls.ret_bind, eval_tpLet_val, eval, hfun,
      Calls.ret_bind, List.map_cons, evalList, hargEval]
    rfl
  · intro results hresults
    have hretReads := hreads (n + args.length) m ((m, tupleVal results) :: env1) results
      ((shapedList_length hresults).trans hretsLength.symm) (Or.inr (le_refl m))
      List.lookup_cons_self
    obtain ⟨foreigns', hforeigns', hexported⟩ := hffiRets _ results hretReads hresults
    exact ⟨foreigns', hffiRet _ foreigns' hforeigns', hexported⟩

end SmlSharp.FFICompilation
