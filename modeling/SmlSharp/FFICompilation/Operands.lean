/-
The operands of stubs: what taking an argument apart and putting one together
compute.
-/
import SmlSharp.FFICompilation.Conversion

namespace SmlSharp.FFICompilation

open RecordLabel (Label)

/-! ### Evaluation -/

attribute [local simp] FFICompilation.eval evalList evalFields evalDecls evalDecl

theorem evalDecls_append (decls1 decls2 : List Tpdecl) (env : Env) :
    evalDecls env (decls1 ++ decls2) = evalDecls env decls1 >>=
      fun env => evalDecls env decls2 := by
  induction decls1 generalizing env with
  | nil => rfl
  | cons decl decls1 ih =>
    simp [ih, Calls.bind_assoc]

/-- A `let` computes the same, merged with a `let` in its body or not. -/
theorem eval_tpLet (decls : List Tpdecl) (body : Exp) (env : Env) :
    eval env (TypedCalcCon.tpLet decls body).1 =
      evalDecls env decls >>= fun env => eval env body.1 := by
  rw [TypedCalcCon.tpLet.eq_def]
  split
  · rfl
  · simp [evalDecls_append, Calls.bind_assoc]
  · simp

theorem eval_tpLet_val (var : VarInfo) (exp body : Exp) (env : Env) :
    eval env (TypedCalcCon.tpLet [TypedCalcCon.tpVal var exp] body).1 =
      eval env exp.1 >>= fun value => eval ((var.id, value) :: env) body.1 := by
  simp [eval_tpLet, TypedCalcCon.tpVal, Calls.bind_assoc]
  rfl

/-! ### Reading operands -/

theorem Reads.eval {lo hi : Nat} {env : Env} {exp : Tpexp} {value : Val}
    (h : Reads lo hi env exp value) : eval env exp = .ret value :=
  h env fun _ _ => rfl

/-- Other variables can change, and the stub can be part of a larger one. -/
theorem Reads.weaken {lo hi lo' hi' : Nat} {env env' : Env} {exp : Tpexp} {value : Val}
    (h : Reads lo hi env exp value)
    (henv : ∀ id, id < lo ∨ hi ≤ id → env'.lookup id = env.lookup id)
    (hlo : lo ≤ lo') (hhi : hi' ≤ hi) : Reads lo' hi' env' exp value := by
  intro env'' henv''
  apply h
  intro id hid
  rw [henv'' id (by omega), henv id hid]

theorem reads_tpVar {lo hi : Nat} {env : Env} {var : VarInfo} {value : Val}
    (hid : var.id < lo ∨ hi ≤ var.id) (hvar : env.lookup var.id = some value) :
    Reads lo hi env (.tpVar var) value := by
  intro env' henv
  rw [FFICompilation.eval, henv _ hid, hvar]
  rfl

theorem Reads.tpSelect {lo hi : Nat} {env : Env} {exp : Tpexp} {value entry : Val} {label : Label}
    (h : Reads lo hi env exp value) (hentry : value.field label = some entry)
    (expTy resultTy : Ty) : Reads lo hi env (.tpSelect label exp expTy resultTy) entry := by
  intro env' henv
  rw [FFICompilation.eval, h env' henv, Calls.ret_bind, hentry]
  rfl

/-- The values of a list of operands. -/
def ReadsList (lo hi : Nat) (env : Env) (exps : List Exp) (values : List Val) : Prop :=
  List.Forall₂ (fun exp value => Reads lo hi env exp.1 value) exps values

/-- The values of a list of expressions. -/
def EvalsTo (env : Env) (exps : List Exp) (values : List Val) : Prop :=
  List.Forall₂ (fun exp value => FFICompilation.eval env exp.1 = .ret value) exps values

theorem EvalsTo.evalList {env : Env} {exps : List Exp} {values : List Val}
    (h : EvalsTo env exps values) :
    FFICompilation.evalList env (exps.map Prod.fst) = .ret values := by
  induction h with
  | nil => rfl
  | cons hexp _ ih =>
    simp [hexp, ih, Calls.ret_bind]
    rfl

theorem EvalsTo.evalFields {env : Env} {exps : List Exp} {values : List Val}
    (h : EvalsTo env exps values) (n : Nat) : FFICompilation.evalFields env
        ((tupleListFrom n exps).map fun field => (field.1, field.2.1)) =
      .ret (tupleListFrom n values) := by
  induction h generalizing n with
  | nil => rfl
  | cons hexp _ ih =>
    simp [tupleListFrom, hexp, ih, Calls.ret_bind]
    rfl

/-! ### Records taken apart -/

/-- The selection of a field of an operand. -/
def selected (exp : Exp) (field : Label × Ty) : Exp :=
  (.tpSelect field.1 exp.1 exp.2 field.2, field.2)

theorem operand_selected (exp : Exp) (field : Label × Ty) :
    Operand (selected exp field) field.2 :=
  ⟨trivial, rfl, rfl⟩

theorem lookup_of_mem {α : Type} {fields : List (Label × α)}
    (hnodup : (fields.map Prod.fst).Nodup) {field : Label × α} (hmem : field ∈ fields) :
    fields.lookup field.1 = some field.2 := by
  induction fields with
  | nil => cases hmem
  | cons first fields ih =>
    obtain ⟨hfirst, htail⟩ := List.nodup_cons.1 hnodup
    rcases List.mem_cons.1 hmem with rfl | hmem
    · exact List.lookup_cons_self
    · have hne : field.1 ≠ first.1 := by
        intro heq
        exact hfirst (heq ▸ List.mem_map_of_mem hmem)
      rw [show first = (first.1, first.2) from rfl, List.lookup_cons, beq_false_of_ne hne]
      exact ih htail hmem

theorem explodeRecord_operand {exp : Exp} {tys : List (Label × Ty)}
    (hexp : Operand exp (.recordTy tys)) (hnodup : (tys.map Prod.fst).Nodup) :
    explodeRecord exp = .ok (tys.map (selected exp)) := by
  obtain ⟨term, ty⟩ := exp
  obtain ⟨hrefers, -, rfl⟩ := hexp
  have hselect : ∀ fields, fields ⊆ tys →
      (fields.map Prod.fst).mapM
          (fun label => TypedCalcCon.tpSelect (term, .recordTy tys) label) =
        Except.ok (fields.map (selected (term, .recordTy tys))) := by
    intro fields hfields
    induction fields with
    | nil => rfl
    | cons field fields ih =>
      have hlookup := lookup_of_mem hnodup (hfields List.mem_cons_self)
      have htail := ih fun f hf => hfields (List.mem_cons_of_mem field hf)
      rw [List.map_cons, List.mapM_cons, htail, TypedCalcCon.tpSelect, TypedCalcCon.selectTy,
        hlookup]
      rfl
  cases term with
  | tpRecord => exact hrefers.elim
  | _ => exact hselect tys (List.Subset.refl tys)

/-! ### Arguments -/

theorem lookup_cons_ne {id id' : Nat} (hne : id' ≠ id) (value : Val) (env : Env) :
    ((id, value) :: env : Env).lookup id' = env.lookup id' := by
  rw [List.lookup_cons, beq_false_of_ne hne]

theorem tupleListFrom_snd {α : Type} (n : Nat) (values : List α) :
    (tupleListFrom n values).map Prod.snd = values := by
  induction values generalizing n with
  | nil => rfl
  | cons value values ih =>
    rw [tupleListFrom, List.map_cons, ih]

theorem tupleListFrom_fst {α β : Type} {values : List α} {values' : List β}
    (hlength : values.length = values'.length) (n : Nat) :
    (tupleListFrom n values).map Prod.fst = (tupleListFrom n values').map Prod.fst := by
  induction values generalizing n values' with
  | nil => rw [List.length_eq_zero_iff.1 hlength.symm]; rfl
  | cons value values ih =>
    cases values' with
    | nil => cases hlength
    | cons value' values' =>
      rw [tupleListFrom, tupleListFrom, List.map_cons, List.map_cons,
        ih (Nat.succ.inj hlength)]

theorem tupleListFrom_map {α β : Type} (f : α → β) (n : Nat) (values : List α) :
    ((tupleListFrom n values).map fun field => (field.1, f field.2)) =
      tupleListFrom n (values.map f) := by
  induction values generalizing n with
  | nil => rfl
  | cons value values ih =>
    rw [tupleListFrom, List.map_cons, ih]
    rfl

theorem tupleTy_cons_cons (ty1 ty2 : Ty) (tys : List Ty) :
    TypedCalcCon.tupleTy (ty1 :: ty2 :: tys) = .ok (.recordTy (tupleList (ty1 :: ty2 :: tys))) := by
  have hmap := tupleMap_ok (ty1 :: ty2 :: tys)
  show (do return Ty.recordTy (← tupleMap (ty1 :: ty2 :: tys))) = _
  rw [hmap]
  rfl

theorem implodeRecord_tupleList (exps : List Exp) :
    implodeRecord (tupleList exps) = .ok (TypedCalcCon.tpRecord (tupleList exps)) := by
  rw [implodeRecord, labelMapFromList_tupleList]
  rfl

/-- The fields of a record are read by their labels, in any order. -/
theorem readsList_selected {lo hi : Nat} {env : Env} {exp : Exp} {value : Val}
    (hread : Reads lo hi env exp.1 value) {tys : List (Label × Ty)} {entries : List Val}
    (hentries : List.Forall₂ (fun field entry => value.field field.1 = some entry) tys entries) :
    ReadsList lo hi env (tys.map (selected exp)) entries := by
  rw [ReadsList, List.forall₂_map_left_iff]
  exact hentries.imp fun field entry hentry => hread.tpSelect hentry _ _

theorem forall₂_field_record {fields : List (Label × Val)}
    (hnodup : (fields.map Prod.fst).Nodup) {α : Type} {tys : List (Label × α)}
    (hlabels : tys.map Prod.fst = fields.map Prod.fst) :
    List.Forall₂ (fun field entry => (Val.record fields).field field.1 = some entry) tys
      (fields.map Prod.snd) := by
  have hall : ∀ part, part ⊆ fields → ∀ tys' : List (Label × α),
      tys'.map Prod.fst = part.map Prod.fst →
      List.Forall₂ (fun field entry => (Val.record fields).field field.1 = some entry) tys'
        (part.map Prod.snd) := by
    intro part hpart
    induction part with
    | nil =>
      intro tys' htys'
      rw [List.map_eq_nil_iff.1 htys']
      exact List.Forall₂.nil
    | cons field part ih =>
      intro tys' htys'
      cases tys' with
      | nil => cases htys'
      | cons ty tys' =>
        obtain ⟨hlabel, hrest⟩ := List.cons.inj htys'
        apply List.Forall₂.cons
        · rw [Val.field, hlabel]
          exact lookup_of_mem hnodup (hpart List.mem_cons_self)
        · exact ih (fun f hf => hpart (List.mem_cons_of_mem field hf)) tys' hrest
  exact hall fields (List.Subset.refl fields) tys hlabels

/-- Taking an argument apart: the variable of the argument, and an operand for
each part of it. -/
theorem decomposeArg_reads (tys : List Ty) (next : Nat) :
    ∃ ty exps, TypedCalcCon.tupleTy tys = .ok ty ∧
      decomposeArg tys next = .ok ((⟨[], ty, next, false⟩, exps), next + 1) ∧
      List.Forall₂ Operand exps tys ∧
      ∀ lo hi env values, values.length = tys.length → next < lo ∨ hi ≤ next →
        env.lookup next = some (tupleVal values) → ReadsList lo hi env exps values := by
  match tys with
  | [] =>
    refine ⟨unitTy, [], rfl, rfl, List.Forall₂.nil, ?_⟩
    intro lo hi env values hlength _ _
    rw [List.length_eq_zero_iff.1 hlength]
    exact List.Forall₂.nil
  | [ty] =>
    refine ⟨ty, [TypedCalcCon.tpVar ⟨[], ty, next, false⟩], rfl, rfl,
      List.Forall₂.cons ⟨trivial, rfl, rfl⟩ List.Forall₂.nil, ?_⟩
    intro lo hi env values hlength hnext hlookup
    obtain ⟨value, rfl⟩ := List.length_eq_one_iff.1 hlength
    exact List.Forall₂.cons (reads_tpVar hnext hlookup) List.Forall₂.nil
  | ty1 :: ty2 :: tys =>
    have hlabels := ascendingLabels_tupleListFrom (ty1 :: ty2 :: tys) Nat.one_pos
    have hmap := tupleMap_ok (ty1 :: ty2 :: tys)
    let var : VarInfo := ⟨[], .recordTy (tupleList (ty1 :: ty2 :: tys)), next, false⟩
    have hoperand : Operand (TypedCalcCon.tpVar var) (.recordTy (tupleList (ty1 :: ty2 :: tys))) :=
      ⟨trivial, rfl, rfl⟩
    have hexplode := explodeRecord_operand hoperand hlabels.nodup
    refine ⟨.recordTy (tupleList (ty1 :: ty2 :: tys)),
      (tupleList (ty1 :: ty2 :: tys)).map (selected (TypedCalcCon.tpVar var)), ?_, ?_, ?_, ?_⟩
    · exact tupleTy_cons_cons ty1 ty2 tys
    · exact stateT_liftBind_ok.2 ⟨_, hmap, stateT_bind_ok.2 ⟨var, next + 1, rfl,
        stateT_liftBind_ok.2 ⟨_, hexplode, rfl⟩⟩⟩
    · rw [List.forall₂_map_left_iff]
      have hsnd := tupleListFrom_snd 1 (ty1 :: ty2 :: tys)
      rw [← hsnd, List.forall₂_map_right_iff, tupleList, hsnd]
      exact List.forall₂_same.2 fun field _ => operand_selected _ field
    · intro lo hi env values hlength hnext hlookup
      have hvalues : tupleVal values = .record (tupleList values) := by
        match values, hlength with
        | _ :: _ :: _, _ => rfl
      rw [hvalues] at hlookup
      have hfields := forall₂_field_record
        (ascendingLabels_tupleListFrom values Nat.one_pos).nodup
        (tupleListFrom_fst hlength.symm 1)
      rw [tupleListFrom_snd] at hfields
      exact readsList_selected (reads_tpVar hnext hlookup) hfields

/-- Putting an argument together. -/
theorem composeArg_evals (exps : List Exp) : ∃ exp, composeArg exps = .ok exp ∧
      TypedCalcCon.tupleTy (exps.map Prod.snd) = .ok exp.2 ∧
      ∀ env values, EvalsTo env exps values → eval env exp.1 = .ret (tupleVal values) := by
  match exps with
  | [] =>
    refine ⟨unitExp, rfl, rfl, ?_⟩
    intro env values h
    cases h
    rfl
  | [exp] =>
    refine ⟨exp, rfl, rfl, ?_⟩
    intro env values h
    cases h with
    | cons hexp htail =>
      cases htail
      exact hexp
  | exp1 :: exp2 :: exps =>
    refine ⟨TypedCalcCon.tpRecord (tupleList (exp1 :: exp2 :: exps)), ?_, ?_, ?_⟩
    · exact implodeRecord_tupleList (exp1 :: exp2 :: exps)
    · rw [TypedCalcCon.tpRecord, tupleList, tupleListFrom_map Prod.snd]
      exact tupleTy_cons_cons exp1.2 exp2.2 (exps.map Prod.snd)
    · intro env values h
      have hfields := h.evalFields 1
      have hvalues : tupleVal values = .record (tupleList values) := by
        match values, h with
        | _ :: _ :: _, _ => rfl
      rw [hvalues, TypedCalcCon.tpRecord, eval, tupleList, hfields]
      rfl

end SmlSharp.FFICompilation
