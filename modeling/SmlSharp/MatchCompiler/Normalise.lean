/-
Normalisation keeps what a source pattern matches, and where it places the
variables that the body of the rule uses.
-/
import SmlSharp.MatchCompiler.Source

namespace SmlSharp

namespace MatchCompiler

variable {τ : Type} {S : Semantics τ}

/-! ### The bindings of a match -/

/-- What placing variables does to the value of one of them. -/
def Resolves (places : List (VarInfo τ × Value)) (b b' : Bindings)
    (id : Nat) : Prop :=
  (∃ x w, (x, w) ∈ places ∧ x.id = id ∧ b'.lookup id = some w) ∨
    (∀ x w, (x, w) ∈ places → x.id ≠ id) ∧ b'.lookup id = b.lookup id

theorem Resolves.nil (b : Bindings) (id : Nat) :
    Resolves ([] : List (VarInfo τ × Value)) b b id :=
  Or.inr ⟨by simp, rfl⟩

theorem Resolves.append {first second : List (VarInfo τ × Value)}
    {b b' b'' : Bindings} {id : Nat} (hfirst : Resolves first b b' id)
    (hsecond : Resolves second b' b'' id) :
    Resolves (first ++ second) b b'' id := by
  rcases hsecond with ⟨x, w, hmem, hid, hlookup⟩ | ⟨hnone, hsame⟩
  · exact Or.inl ⟨x, w, List.mem_append_right _ hmem, hid, hlookup⟩
  · rcases hfirst with ⟨x, w, hmem, hid, hlookup⟩ | ⟨hnone', hsame'⟩
    · exact Or.inl ⟨x, w, List.mem_append_left _ hmem, hid,
        hsame.trans hlookup⟩
    · right
      constructor
      · intro x w hmem
        rcases List.mem_append.mp hmem with hmem | hmem
        · exact hnone' x w hmem
        · exact hnone x w hmem
      · exact hsame.trans hsame'

theorem lookup_filter_ne {b : Bindings} {k id : Nat} (hne : id ≠ k) :
    (b.filter fun entry => entry.1 ≠ k).lookup id = b.lookup id := by
  induction b with
  | nil => rfl
  | cons entry rest ih =>
    obtain ⟨k', v⟩ := entry
    by_cases hkey : k' = k
    · subst hkey
      have hbeq : (id == k') = false := by simpa using hne
      simpa [List.lookup_cons, hbeq] using ih
    · rw [List.filter_cons_of_pos (by simpa using hkey)]
      simp only [List.lookup_cons]
      cases id == k' with
      | true => rfl
      | false => exact ih

theorem Resolves.insert (b : Bindings) (x : VarInfo τ) (v : Value) (id : Nat) :
    Resolves [(x, v)] b (b.insert x v) id := by
  by_cases hid : x.id = id
  · subst hid
    exact Or.inl ⟨x, v, by simp, rfl, by simp [Bindings.insert]⟩
  · right
    constructor
    · intro y w hmem
      obtain ⟨rfl, rfl⟩ : y = x ∧ w = v := by simpa using hmem
      exact hid
    · have hbeq : (id == x.id) = false := by simpa using Ne.symm hid
      simp only [Bindings.insert, List.lookup_cons, hbeq]
      exact lookup_filter_ne (Ne.symm hid)

mutual

/-- A pattern that matches binds its variables where it places them. -/
theorem matchPat_resolves (pat : Pat τ) (ty : τ) (v : Value) (b b' : Bindings)
    (htyped : pat.Typed S ty)
    (hmatch : matchPat S Bindings.insert pat v b = some b') (id : Nat) :
    Resolves (pat.places v) b b' id := by
  cases pat with
  | wildPat t =>
    obtain rfl : b = b' := by simpa [matchPat] using hmatch
    exact Resolves.nil b id
  | varPat x =>
    obtain rfl : b.insert x v = b' := by simpa [matchPat] using hmatch
    exact Resolves.insert b x v id
  | constPat c t =>
    cases v with
    | const c' =>
      obtain ⟨-, rfl⟩ : c = c' ∧ b = b' := by
        simpa [matchPat] using hmatch
      exact Resolves.nil b id
    | _ => simp [matchPat] at hmatch
  | dataConPat con inst hasArg arg t =>
    simp only [Pat.Typed] at htyped
    obtain ⟨-, cons, -, -, ⟨rfl, argTy, -, harg⟩ | ⟨rfl, -, -⟩⟩ := htyped
    · cases v with
      | data id' argv =>
        cases argv with
        | some w =>
          simp only [matchPat, ite_eq_iff, reduceCtorEq, and_false,
            or_false] at hmatch
          exact matchPat_resolves arg argTy w b b' harg hmatch.2 id
        | none => simp [matchPat] at hmatch
      | _ => simp [matchPat] at hmatch
    · cases v with
      | data id' argv =>
        obtain ⟨-, rfl⟩ : con.id = id' ∧ b = b' := by
          simpa [matchPat] using hmatch
        simpa [Pat.places] using Resolves.nil b id
      | _ => simp [matchPat] at hmatch
  | exnConPat exn hasArg arg t =>
    simp only [Pat.Typed] at htyped
    obtain ⟨-, -, -, ⟨rfl, argTy, -, harg⟩ | ⟨rfl, -, -⟩⟩ := htyped
    · cases v with
      | exn tag argv =>
        cases argv with
        | some w =>
          simp only [matchPat, ite_eq_iff, reduceCtorEq, and_false,
            or_false] at hmatch
          exact matchPat_resolves arg argTy w b b' harg hmatch.2 id
        | none => simp [matchPat] at hmatch
      | _ => simp [matchPat] at hmatch
    · cases v with
      | exn tag argv =>
        obtain ⟨-, rfl⟩ : S.exnTag exn.key = tag ∧ b = b' := by
          simpa [matchPat] using hmatch
        simpa [Pat.places] using Resolves.nil b id
      | _ => simp [matchPat] at hmatch
  | recPat fields t =>
    simp only [Pat.Typed] at htyped
    obtain ⟨-, fieldTys, -, hfields⟩ := htyped
    cases v with
    | record vs =>
      simp only [matchPat] at hmatch
      exact matchFields_resolves fields fieldTys vs b b' hfields hmatch id
    | _ => simp [matchPat] at hmatch
  | layerPat left right =>
    cases left with
    | varPat x =>
      simp only [Pat.Typed] at htyped
      simp only [matchPat, Option.bind_some] at hmatch
      exact (Resolves.insert b x v id).append
        (matchPat_resolves right ty v _ b' htyped.2 hmatch id)
    | _ => simp [Pat.Typed] at htyped
  | orPat left right => simp [Pat.Typed] at htyped

theorem matchFields_resolves (fields : List (String × Pat τ))
    (fieldTys : List (String × τ)) (vs : List (String × Value))
    (b b' : Bindings) (htyped : fieldsTyped S fields fieldTys)
    (hmatch : matchFields S Bindings.insert fields vs b = some b') (id : Nat) :
    Resolves (fieldsPlaces fields vs) b b' id := by
  cases fields with
  | nil =>
    obtain rfl : b = b' := by simpa [matchFields] using hmatch
    exact Resolves.nil b id
  | cons field rest =>
    obtain ⟨label, pat⟩ := field
    simp only [fieldsTyped] at htyped
    obtain ⟨fieldTy, restTys, -, hpat, hrest⟩ := htyped
    simp only [matchFields] at hmatch
    cases hlookup : vs.lookup label with
    | none => simp [hlookup] at hmatch
    | some w =>
      simp only [hlookup, Option.bind_eq_some_iff] at hmatch
      obtain ⟨b₁, hhead, htail⟩ := hmatch
      simp only [fieldsPlaces, hlookup]
      exact (matchPat_resolves pat fieldTy w b b₁ hpat hhead id).append
        (matchFields_resolves rest restTys vs b₁ b' hrest htail id)

end

/-! ### Patterns of record fields, field by field -/

theorem matchFields_accepts (fields : List (String × Pat τ))
    (vs : List (String × Value)) :
    (matchFields S (fun _ _ _ => ()) fields vs ()).isSome ↔
      ∀ field ∈ fields, ∃ w, vs.lookup field.1 = some w ∧
        field.2.Accepts S w := by
  induction fields with
  | nil => simp [matchFields]
  | cons field rest ih =>
    obtain ⟨label, pat⟩ := field
    simp only [matchFields, List.forall_mem_cons, ← ih]
    cases hlookup : vs.lookup label with
    | none => simp
    | some w =>
      simp only [Option.some.injEq, exists_eq_left', Pat.Accepts]
      cases matchPat S (fun _ _ _ => ()) pat w () <;> simp

theorem mem_fieldsPlaces {fields : List (String × Pat τ)}
    {vs : List (String × Value)} {placed : VarInfo τ × Value} :
    placed ∈ fieldsPlaces fields vs ↔ ∃ field ∈ fields, ∃ w,
      vs.lookup field.1 = some w ∧ placed ∈ field.2.places w := by
  induction fields with
  | nil => simp [fieldsPlaces]
  | cons field rest ih =>
    obtain ⟨label, pat⟩ := field
    simp only [fieldsPlaces, List.mem_append, ih, List.mem_cons,
      exists_eq_or_imp]
    cases hlookup : vs.lookup label with
    | none => simp
    | some w => simp

theorem tpFieldsMatch_iff {fields : List (String × TpPat τ)}
    {vs : List (String × Value)} :
    tpFieldsMatch S fields vs ↔ ∀ field ∈ fields, ∃ w,
      vs.lookup field.1 = some w ∧ field.2.Matches S w := by
  induction fields with
  | nil => simp [tpFieldsMatch]
  | cons field rest ih => simp [tpFieldsMatch, ih]

theorem mem_tpFieldsPlaces {fields : List (String × TpPat τ)}
    {vs : List (String × Value)} {placed : VarInfo τ × Value} :
    placed ∈ tpFieldsPlaces fields vs ↔ ∃ field ∈ fields, ∃ w,
      vs.lookup field.1 = some w ∧ placed ∈ field.2.places w := by
  induction fields with
  | nil => simp [tpFieldsPlaces]
  | cons field rest ih =>
    obtain ⟨label, pat⟩ := field
    simp only [tpFieldsPlaces, List.mem_append, ih, List.mem_cons,
      exists_eq_or_imp]
    cases hlookup : vs.lookup label with
    | none => simp
    | some w => simp

attribute [local simp] Pat.Typed matchPat TpPat.Matches Pat.places TpPat.places TpPat.Typed
  tppatToPat
  fieldsToPats augmentFields

/-! ### Normalisation -/

/-- A normalised pattern stands for a source pattern of a type. -/
structure StandsFor (S : Semantics τ) (FV : List Nat) (p : TpPat τ) (ty : τ)
    (q : Pat τ) : Prop where
  typed : q.Typed S ty
  accepts : ∀ v, HasType S v ty → (q.Accepts S v ↔ p.Matches S v)
  places : ∀ v, HasType S v ty → p.Matches S v → ∀ x w,
    (x, w) ∈ q.places v ↔ (x, w) ∈ p.places v ∧ x.id ∈ FV

/-- The patterns of some fields of a record, normalised. -/
def FieldsStandFor (S : Semantics τ) (FV : List Nat)
    (fieldTys : List (String × τ)) :
    List (String × TpPat τ) → List (String × Pat τ) → Prop :=
  List.Forall₂ fun field pat => field.1 = pat.1 ∧
    ∃ ty, (field.1, ty) ∈ fieldTys ∧ StandsFor S FV field.2 ty pat.2

variable {FV : List Nat}

theorem StandsFor.wild {p : TpPat τ} {ty : τ}
    (hmatches : ∀ v, HasType S v ty → p.Matches S v)
    (hplaces : ∀ v x w, (x, w) ∈ p.places v → x.id ∉ FV) :
    StandsFor S FV p ty (.wildPat ty) where
  typed := by simp
  accepts v htyped := by simpa [Pat.Accepts] using hmatches v htyped
  places v _ _ x w := by
    simpa using hplaces v x w

theorem StandsFor.var (x : VarInfo τ) : StandsFor S FV (.var x) x.ty
      (if x.id ∈ FV then .varPat x else .wildPat x.ty) := by
  by_cases hused : x.id ∈ FV
  · rw [if_pos hused]
    refine ⟨by simp, ?_, ?_⟩
    · simp [Pat.Accepts]
    · intro v _ _ y w
      simp only [Pat.places, TpPat.places, List.mem_singleton]
      constructor
      · rintro h
        cases h
        exact ⟨rfl, hused⟩
      · exact fun h => h.1
  · rw [if_neg hused]
    apply StandsFor.wild
    · simp
    · intro v y w hmem
      obtain ⟨rfl, rfl⟩ : y = x ∧ w = v := by simpa using hmem
      exact hused

theorem unit_shape_const {ty : τ} {v : Value}
    (hshape : S.shape ty = .record []) (htyped : HasType S v ty) :
    ∃ vs, v = .record vs := by
  have hholds : (Col.whole ty).Holds S v := htyped
  obtain ⟨vs, rfl, -⟩ := hholds.record hshape
  exact ⟨vs, rfl⟩

theorem StandsFor.constant {c : Const} {ty : τ}
    (htyped : c = .unitConst ∧ S.shape ty = .record [] ∨
      ∃ values, S.shape ty = .const values ∧ values c) :
    StandsFor S FV (.constant c ty) ty
      (if c = .unitConst then .wildPat ty else .constPat c ty) := by
  by_cases hunit : c = .unitConst
  · subst hunit
    rw [if_pos rfl]
    apply StandsFor.wild
    · intro v hv
      rcases htyped with ⟨-, hshape⟩ | ⟨values, hshape, hvalues⟩
      · simpa using unit_shape_const hshape hv
      · exact absurd hvalues (S.unit_not_const ty values hshape)
    · simp
  · rw [if_neg hunit]
    obtain ⟨values, hshape, hvalues⟩ := htyped.resolve_left fun h => hunit h.1
    refine ⟨by simpa using ⟨values, hshape, hvalues⟩, ?_, ?_⟩
    · intro v hv
      obtain ⟨k, rfl, -⟩ := const_of_shape hv hshape
      by_cases hk : c = k
      · subst hk
        simp [Pat.Accepts, hunit]
      · simp [Pat.Accepts, hunit, hk, Ne.symm hk]
    · simp

theorem StandsFor.dataConstruct {con : ConInfo τ} {inst : Option (List τ)}
    {ty : τ} {cons : List (Nat × Option τ)} (hshape : S.shape ty = .data cons)
    (htags : getTagNums S.toTypes con = .ok cons.length)
    (hmem : (con.id, none) ∈ cons) :
    StandsFor S FV (.dataConstruct con inst ty) ty
      (.dataConPat con inst false (.wildPat S.unitTy) ty) where
  typed := by
    simpa using ⟨cons, hshape, htags, hmem⟩
  accepts v hv := by
    obtain ⟨id, argv, rfl⟩ := data_of_shape hv hshape
    obtain ⟨argTy, hcon, hargv, -⟩ := hv.data_inv hshape
    by_cases hid : con.id = id
    · subst hid
      obtain rfl := eq_of_mem_nodup (S.data_nodup ty cons hshape) hcon hmem
      obtain rfl : argv = none := by simpa using hargv
      simp [Pat.Accepts]
    · simp [Pat.Accepts, hid, Ne.symm hid]
  places := by simp

theorem StandsFor.dataConstructArg {con : ConInfo τ} {inst : Option (List τ)}
    {arg : TpPat τ} {pat : Pat τ} {ty argTy : τ} {cons : List (Nat × Option τ)}
    (hshape : S.shape ty = .data cons)
    (htags : getTagNums S.toTypes con = .ok cons.length)
    (hmem : (con.id, some argTy) ∈ cons) (harg : StandsFor S FV arg argTy pat) :
    StandsFor S FV (.dataConstructArg con inst arg ty) ty
      (.dataConPat con inst true pat ty) where
  typed := by
    simpa using ⟨cons, hshape, htags, argTy, hmem, harg.typed⟩
  accepts v hv := by
    obtain ⟨id, argv, rfl⟩ := data_of_shape hv hshape
    obtain ⟨argTy', hcon, hargv, htyped⟩ := hv.data_inv hshape
    by_cases hid : con.id = id
    · subst hid
      obtain rfl := eq_of_mem_nodup (S.data_nodup ty cons hshape) hcon hmem
      obtain ⟨w, rfl⟩ := Option.isSome_iff_exists.mp hargv
      have hw := harg.accepts w (htyped w argTy rfl rfl)
      simpa [Pat.Accepts] using hw
    · cases argv with
      | none => simp [Pat.Accepts]
      | some w => simp [Pat.Accepts, hid, Ne.symm hid]
  places v hv hmatches x w := by
    simp only [TpPat.Matches] at hmatches
    obtain ⟨u, rfl, hu⟩ := hmatches
    obtain ⟨argTy', hcon, hargv, htyped⟩ := hv.data_inv hshape
    obtain rfl := eq_of_mem_nodup (S.data_nodup ty cons hshape) hcon hmem
    simpa using
      harg.places u (htyped u argTy rfl rfl) hu x w

theorem StandsFor.exnConstruct {exn : ExnCon τ} {ty : τ}
    (hshape : S.shape ty = .exn) (hcon : S.exnCons exn.key)
    (hnone : S.exnArg (S.exnTag exn.key) = none) :
    StandsFor S FV (.exnConstruct exn ty) ty
      (.exnConPat exn false (.wildPat S.unitTy) ty) where
  typed := by
    simpa using ⟨hshape, hcon, hnone⟩
  accepts v hv := by
    obtain ⟨tag, argv, rfl⟩ := exn_of_shape hv hshape
    obtain ⟨hargv, -⟩ := hv.exn_inv
    by_cases htag : S.exnTag exn.key = tag
    · subst htag
      obtain rfl : argv = none := by simpa [hnone] using hargv
      simp [Pat.Accepts]
    · simp [Pat.Accepts, htag, Ne.symm htag]
  places := by simp

theorem StandsFor.exnConstructArg {exn : ExnCon τ} {arg : TpPat τ}
    {pat : Pat τ} {ty argTy : τ} (hshape : S.shape ty = .exn)
    (hcon : S.exnCons exn.key)
    (hsome : S.exnArg (S.exnTag exn.key) = some argTy)
    (harg : StandsFor S FV arg argTy pat) :
    StandsFor S FV (.exnConstructArg exn arg ty) ty
      (.exnConPat exn true pat ty) where
  typed := by
    simpa using ⟨hshape, hcon, argTy, hsome, harg.typed⟩
  accepts v hv := by
    obtain ⟨tag, argv, rfl⟩ := exn_of_shape hv hshape
    obtain ⟨hargv, htyped⟩ := hv.exn_inv
    by_cases htag : S.exnTag exn.key = tag
    · subst htag
      rw [hsome] at hargv
      obtain ⟨w, rfl⟩ := Option.isSome_iff_exists.mp hargv
      have hw := harg.accepts w (htyped w argTy rfl hsome)
      simpa [Pat.Accepts] using hw
    · cases argv with
      | none => simp [Pat.Accepts]
      | some w =>
        simp [Pat.Accepts, htag, Ne.symm htag]
  places v hv hmatches x w := by
    simp only [TpPat.Matches] at hmatches
    obtain ⟨u, rfl, hu⟩ := hmatches
    obtain ⟨-, htyped⟩ := hv.exn_inv
    simpa using
      harg.places u (htyped u argTy rfl hsome) hu x w

theorem StandsFor.layered {x : VarInfo τ} {asPat : TpPat τ} {pat : Pat τ}
    (hpat : StandsFor S FV asPat x.ty pat) :
    StandsFor S FV (.layered (.var x) asPat) x.ty
      (if x.id ∈ FV then .layerPat (.varPat x) pat else pat) := by
  have hmatches : ∀ v, TpPat.Matches S (.layered (.var x) asPat) v ↔
      asPat.Matches S v := by
    simp
  by_cases hused : x.id ∈ FV
  · rw [if_pos hused]
    refine ⟨by simpa using hpat.typed, ?_, ?_⟩
    · intro v hv
      rw [hmatches, ← hpat.accepts v hv]
      simp [Pat.Accepts]
    · intro v hv hv' y w
      have hinner := hpat.places v hv ((hmatches v).mp hv') y w
      simp only [Pat.places, TpPat.places, List.singleton_append,
        List.mem_cons, hinner]
      constructor
      · rintro (h | ⟨hmem, hy⟩)
        · cases h
          exact ⟨Or.inl rfl, hused⟩
        · exact ⟨Or.inr hmem, hy⟩
      · rintro ⟨h | hmem, hy⟩
        · exact Or.inl h
        · exact Or.inr ⟨hmem, hy⟩
  · rw [if_neg hused]
    refine ⟨hpat.typed, ?_, ?_⟩
    · intro v hv
      rw [hmatches, hpat.accepts v hv]
    · intro v hv hv' y w
      rw [hpat.places v hv ((hmatches v).mp hv') y w]
      simp only [TpPat.places, List.singleton_append, List.mem_cons]
      constructor
      · exact fun h => ⟨Or.inr h.1, h.2⟩
      · rintro ⟨h | hmem, hy⟩
        · cases h
          exact absurd hy hused
        · exact ⟨hmem, hy⟩

/-! ### Record patterns -/

section Fields

variable {fieldTys : List (String × τ)} {fields : List (String × TpPat τ)}
  {pats : List (String × Pat τ)}

theorem FieldsStandFor.lookup_some
    (hfields : FieldsStandFor S FV fieldTys fields pats) {label : String}
    {pat : Pat τ} (hlookup : pats.lookup label = some pat) :
    ∃ field ty, (label, field) ∈ fields ∧ (label, ty) ∈ fieldTys ∧
      StandsFor S FV field ty pat := by
  induction hfields with
  | nil => simp at hlookup
  | @cons field entry fields pats hhead _ ih =>
    obtain ⟨l, p⟩ := field
    obtain ⟨l', q⟩ := entry
    obtain ⟨rfl, ty, hty, hstands⟩ := hhead
    by_cases hlabel : label = l
    · subst hlabel
      obtain rfl : q = pat := by simpa [List.lookup_cons] using hlookup
      exact ⟨p, ty, List.mem_cons_self, hty, hstands⟩
    · have hbeq : (label == l) = false := by simpa using hlabel
      obtain ⟨field, ty', hmem, hrest⟩ :=
        ih (by simpa [List.lookup_cons, hbeq] using hlookup)
      exact ⟨field, ty', List.mem_cons_of_mem _ hmem, hrest⟩

theorem FieldsStandFor.lookup_mem
    (hfields : FieldsStandFor S FV fieldTys fields pats)
    (hnodup : (fields.map Prod.fst).Nodup) {label : String} {field : TpPat τ}
    (hmem : (label, field) ∈ fields) :
    ∃ pat ty, pats.lookup label = some pat ∧ (label, ty) ∈ fieldTys ∧
      StandsFor S FV field ty pat := by
  induction hfields with
  | nil => simp at hmem
  | @cons head entry fields pats hhead _ ih =>
    obtain ⟨l, p⟩ := head
    obtain ⟨l', q⟩ := entry
    obtain ⟨rfl, ty, hty, hstands⟩ := hhead
    obtain ⟨hfresh, hrest⟩ := List.nodup_cons.mp hnodup
    rcases List.mem_cons.mp hmem with heq | hlater
    · obtain ⟨rfl, rfl⟩ : label = l ∧ field = p := by simpa using heq
      exact ⟨q, ty, by simp, hty, hstands⟩
    · have hne : label ≠ l := by
        rintro rfl
        exact hfresh (List.mem_map.mpr ⟨(label, field), hlater, rfl⟩)
      have hbeq : (label == l) = false := by simpa using hne
      obtain ⟨pat, ty', hlookup, hlater⟩ := ih hrest hlater
      exact ⟨pat, ty', by simpa [List.lookup_cons, hbeq] using hlookup, hlater⟩

theorem fieldTy_unique {ty : τ} (hshape : S.shape ty = .record fieldTys)
    {label : String} {left right : τ} (hleft : (label, left) ∈ fieldTys)
    (hright : (label, right) ∈ fieldTys) : left = right := by
  have hnodup := S.record_nodup ty fieldTys hshape
  simpa using List.inj_on_of_nodup_map hnodup hleft hright rfl

/-- What a field of the augmented record pattern stands for: a field of the
source pattern, or nothing. -/
theorem FieldsStandFor.augmented {ty : τ}
    (hshape : S.shape ty = .record fieldTys)
    (hfields : FieldsStandFor S FV fieldTys fields pats)
    (hnodup : (fields.map Prod.fst).Nodup) {label : String} {fieldTy : τ}
    (hmem : (label, fieldTy) ∈ fieldTys) :
    (∃ field, (label, field) ∈ fields ∧ StandsFor S FV field fieldTy
        ((pats.lookup label).getD (.wildPat fieldTy))) ∨
      (∀ field, (label, field) ∉ fields) ∧
        (pats.lookup label).getD (.wildPat fieldTy) = .wildPat fieldTy := by
  cases hlookup : pats.lookup label with
  | none =>
    right
    refine ⟨?_, rfl⟩
    intro field hfield
    obtain ⟨pat, -, hsome, -⟩ := hfields.lookup_mem hnodup hfield
    simp [hlookup] at hsome
  | some pat =>
    left
    obtain ⟨field, ty', hfield, hty, hstands⟩ := hfields.lookup_some hlookup
    obtain rfl := fieldTy_unique hshape hty hmem
    exact ⟨field, hfield, hstands⟩

theorem fieldsTyped_augment {tys : List (String × τ)} (htyped : ∀ field ∈ tys,
      ((pats.lookup field.1).getD (.wildPat field.2)).Typed S field.2) :
    fieldsTyped S (augmentFields pats tys) tys := by
  induction tys with
  | nil => simp [fieldsTyped]
  | cons field rest ih =>
    obtain ⟨label, ty⟩ := field
    simp only [augmentFields, List.map_cons, fieldsTyped]
    exact ⟨ty, rest, rfl, htyped _ List.mem_cons_self,
      ih fun other hother => htyped other (by simp [hother])⟩

theorem StandsFor.record {ty : τ} (hshape : S.shape ty = .record fieldTys)
    (hnodup : (fields.map Prod.fst).Nodup)
    (hfields : FieldsStandFor S FV fieldTys fields pats) :
    StandsFor S FV (.record fields ty) ty
      (.recPat (augmentFields pats fieldTys) ty) where
  typed := by
    simp only [Pat.Typed]
    refine ⟨trivial, fieldTys, hshape, fieldsTyped_augment ?_⟩
    rintro ⟨label, fieldTy⟩ hmem
    rcases hfields.augmented hshape hnodup hmem with
      ⟨field, -, hstands⟩ | ⟨-, hwild⟩
    · exact hstands.typed
    · rw [hwild]
      simp
  accepts v hv := by
    have hholds : (Col.whole ty).Holds S v := hv
    obtain ⟨vs, rfl, hvs⟩ := hholds.record hshape
    simp only [Pat.Accepts, matchPat, TpPat.Matches, matchFields_accepts,
      Value.record.injEq, exists_eq_left', tpFieldsMatch_iff]
    constructor
    · rintro haccepts ⟨label, field⟩ hfield
      obtain ⟨pat, fieldTy, hlookup, hty, hstands⟩ :=
        hfields.lookup_mem hnodup hfield
      obtain ⟨w, hw, htyped⟩ := hvs label fieldTy hty
      obtain ⟨w', hw', haccept⟩ := haccepts (label, pat) <|
        List.mem_map.mpr ⟨(label, fieldTy), hty, by simp [hlookup]⟩
      obtain rfl : w = w' := by simpa [hw] using hw'
      exact ⟨w, hw, (hstands.accepts w htyped).mp haccept⟩
    · intro hmatches entry hentry
      obtain ⟨⟨label, fieldTy⟩, hty, rfl⟩ := List.mem_map.mp hentry
      obtain ⟨w, hw, htyped⟩ := hvs label fieldTy hty
      refine ⟨w, hw, ?_⟩
      rcases hfields.augmented hshape hnodup hty with
        ⟨field, hfield, hstands⟩ | ⟨-, hwild⟩
      · obtain ⟨w', hw', hmatch⟩ := hmatches (label, field) hfield
        obtain rfl : w = w' := by simpa [hw] using hw'
        exact (hstands.accepts w htyped).mpr hmatch
      · simp only [hwild]
        simp
  places v hv hmatches x u := by
    have hholds : (Col.whole ty).Holds S v := hv
    obtain ⟨vs, rfl, hvs⟩ := hholds.record hshape
    simp only [TpPat.Matches, Value.record.injEq, exists_eq_left',
      tpFieldsMatch_iff] at hmatches
    simp only [Pat.places, TpPat.places, mem_fieldsPlaces, mem_tpFieldsPlaces]
    constructor
    · rintro ⟨entry, hentry, w, hw, hplaced⟩
      obtain ⟨⟨label, fieldTy⟩, hty, rfl⟩ := List.mem_map.mp hentry
      obtain ⟨w', hw', htyped⟩ := hvs label fieldTy hty
      obtain rfl : w' = w := by simpa [hw'] using hw
      rcases hfields.augmented hshape hnodup hty with
        ⟨field, hfield, hstands⟩ | ⟨-, hwild⟩
      · obtain ⟨w'', hw'', hmatch⟩ := hmatches (label, field) hfield
        obtain rfl : w' = w'' := by simpa [hw'] using hw''
        have hinner := (hstands.places w' htyped hmatch x u).mp hplaced
        exact ⟨⟨(label, field), hfield, w', hw, hinner.1⟩, hinner.2⟩
      · simp only [hwild, Pat.places, List.not_mem_nil] at hplaced
    · rintro ⟨⟨⟨label, field⟩, hfield, w, hw, hplaced⟩, hused⟩
      obtain ⟨pat, fieldTy, hlookup, hty, hstands⟩ :=
        hfields.lookup_mem hnodup hfield
      obtain ⟨w', hw', htyped⟩ := hvs label fieldTy hty
      obtain rfl : w' = w := by simpa [hw'] using hw
      obtain ⟨w'', hw'', hmatch⟩ := hmatches (label, field) hfield
      obtain rfl : w' = w'' := by simpa [hw'] using hw''
      refine ⟨(label, pat),
        List.mem_map.mpr ⟨(label, fieldTy), hty, by simp [hlookup]⟩, w', hw', ?_⟩
      exact (hstands.places w' htyped hmatch x u).mpr ⟨hplaced, hused⟩

end Fields

mutual

/-- Every typed source pattern has a normalised pattern that stands for it. -/
theorem tppatToPat_standsFor (FV : List Nat) (p : TpPat τ) (ty : τ)
    (htyped : p.Typed S ty) :
    ∃ q, tppatToPat S.toTypes FV p = .ok q ∧ StandsFor S FV p ty q := by
  cases p with
  | error t =>
    simp only [TpPat.Typed] at htyped
    subst htyped
    exact ⟨_, rfl, StandsFor.wild (by simp)
      (by simp)⟩
  | wild t =>
    simp only [TpPat.Typed] at htyped
    subst htyped
    exact ⟨_, rfl, StandsFor.wild (by simp)
      (by simp)⟩
  | var x =>
    simp only [TpPat.Typed] at htyped
    subst htyped
    exact ⟨_, rfl, StandsFor.var x⟩
  | constant c t =>
    simp only [TpPat.Typed] at htyped
    obtain ⟨rfl, hconst⟩ := htyped
    exact ⟨_, rfl, StandsFor.constant hconst⟩
  | dataConstruct con inst t =>
    simp only [TpPat.Typed] at htyped
    obtain ⟨rfl, cons, hshape, htags, hmem⟩ := htyped
    exact ⟨_, rfl, StandsFor.dataConstruct hshape htags hmem⟩
  | dataConstructArg con inst arg t =>
    simp only [TpPat.Typed] at htyped
    obtain ⟨rfl, cons, hshape, htags, argTy, hmem, harg⟩ := htyped
    obtain ⟨q, hok, hstands⟩ := tppatToPat_standsFor FV arg argTy harg
    exact ⟨_, by simp [hok, bind, Except.bind],
      StandsFor.dataConstructArg hshape htags hmem hstands⟩
  | exnConstruct exn t =>
    simp only [TpPat.Typed] at htyped
    obtain ⟨rfl, hshape, hcon, hnone⟩ := htyped
    exact ⟨_, rfl, StandsFor.exnConstruct hshape hcon hnone⟩
  | exnConstructArg exn arg t =>
    simp only [TpPat.Typed] at htyped
    obtain ⟨rfl, hshape, hcon, argTy, hsome, harg⟩ := htyped
    obtain ⟨q, hok, hstands⟩ := tppatToPat_standsFor FV arg argTy harg
    exact ⟨_, by simp [hok, bind, Except.bind],
      StandsFor.exnConstructArg hshape hcon hsome hstands⟩
  | record fields t =>
    simp only [TpPat.Typed] at htyped
    obtain ⟨rfl, hnodup, fieldTys, hshape, hfields⟩ := htyped
    obtain ⟨pats, hok, hstands⟩ :=
      fieldsToPats_standFor FV fields fieldTys hfields
    have hget := S.record_fields t fieldTys hshape
    exact ⟨_, by simp [hget, hok, bind, Except.bind],
      StandsFor.record hshape hnodup hstands⟩
  | layered varPat asPat =>
    cases varPat with
    | var x =>
      simp only [TpPat.Typed] at htyped
      obtain ⟨rfl, has⟩ := htyped
      obtain ⟨q, hok, hstands⟩ := tppatToPat_standsFor FV asPat x.ty has
      refine ⟨_, ?_, StandsFor.layered hstands⟩
      by_cases hused : x.id ∈ FV
      · simp [hok, hused, bind, Except.bind]
      · simp [hok, hused, bind, Except.bind]
    | _ => simp at htyped

theorem fieldsToPats_standFor (FV : List Nat)
    (fields : List (String × TpPat τ)) (fieldTys : List (String × τ))
    (htyped : tpFieldsTyped S fields fieldTys) :
    ∃ pats, fieldsToPats S.toTypes FV (fieldTys.map Prod.fst) fields =
        .ok pats ∧ FieldsStandFor S FV fieldTys fields pats := by
  cases fields with
  | nil => exact ⟨[], rfl, .nil⟩
  | cons field rest =>
    obtain ⟨label, p⟩ := field
    simp only [tpFieldsTyped] at htyped
    obtain ⟨⟨ty, hmem, hp⟩, hrest⟩ := htyped
    obtain ⟨q, hok, hstands⟩ := tppatToPat_standsFor FV p ty hp
    obtain ⟨pats, hoks, hall⟩ :=
      fieldsToPats_standFor FV rest fieldTys hrest
    have hlabel : label ∈ fieldTys.map Prod.fst :=
      List.mem_map.mpr ⟨(label, ty), hmem, rfl⟩
    refine ⟨(label, q) :: pats, ?_, .cons ⟨rfl, ty, hmem, hstands⟩ hall⟩
    rw [fieldsToPats, if_pos hlabel]
    simp [hok, hoks, bind, Except.bind]

end

end MatchCompiler

end SmlSharp
