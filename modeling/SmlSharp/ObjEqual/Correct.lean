/-
`sml_obj_equal` decides the structural equality of the values that two words
represent, arrays being compared by identity.
-/
import SmlSharp.ObjEqual.Alike

namespace SmlSharp

namespace ObjEqual

variable {Name : Type} {env : Name → DataTy Name} {heap : Heap}

/-! ### Raw data -/

variable {cells : List TaggedWord} {p1 p2 : Word} {obj1 obj2 : Obj} {P : Prop}
  {cells1 cells2 : List TaggedWord} {contents1 contents2 : List Cell} {p : Word}

section Raw

variable {equal : Word → Word → Except Stop Bool} {obj1 obj2 : Obj}

theorem compareObjs_memcmp (htype : obj1.objType = .unboxedVector)
    (hsize : obj1.size = obj2.size) :
    compareObjs equal obj1 obj2 = .ok (obj1.payload == obj2.payload) := by
  unfold compareObjs
  rw [htype]
  exact memcmp_eq hsize

/-- A vector of raw data and a record of raw data. -/
theorem compareRaw_mixed (htype1 : obj1.objType = .unboxedVector)
    (htype2 : obj2.objType = .record) (hsize : obj1.size = obj2.size) (hcells : obj2.Cells cells)
    (hraw : ∀ cell ∈ cells, cell.1 = false) :
    (do
      assert (obj2.size % wordSize == 0)
      let same ← tagLoop obj2.bitmaps false (obj2.size / wordSize) 0
      if !same then return false else compareObjs equal obj1 obj2) =
      .ok (obj1.payload == obj2.payload) := by
  have hall : (cells.all fun cell => cell.1 == false) = true :=
    all_tag_iff.mpr (tags_eq_replicate hraw)
  rw [hcells.size_mod, hcells.size_div,
    tagLoop_eq hcells htype2 false (Nat.add_zero _), List.drop_zero, hall,
    compareObjs_memcmp htype1 hsize]
  rfl

theorem compareHeaders_raw (h1 : obj1.Raw) (h2 : obj2.Raw) :
    compareHeaders equal obj1 obj2 = .ok (obj1.payload == obj2.payload) := by
  unfold compareHeaders
  by_cases hsize : obj1.size = obj2.size
  · rw [if_neg (not_not_intro hsize)]
    rcases h1 with htype1 | ⟨htype1, cells1, hcells1, hraw1⟩
    · rcases h2 with htype2 | ⟨htype2, cells2, hcells2, hraw2⟩
      · rw [htype1, htype2, if_neg (not_not_intro rfl)]
        exact compareObjs_memcmp htype1 hsize
      · have hmixed : mixed obj1 obj2 = some (obj1, obj2, false) := by
          simp [mixed, htype1, htype2]
        rw [if_pos (by simp [htype1, htype2]), hmixed]
        exact compareRaw_mixed htype1 htype2 hsize hcells2 hraw2
    · rcases h2 with htype2 | ⟨htype2, cells2, hcells2, hraw2⟩
      · have hmixed : mixed obj1 obj2 = some (obj2, obj1, false) := by
          simp [mixed, htype1, htype2]
        rw [if_pos (by simp [htype1, htype2]), hmixed, Bool.beq_comm]
        exact compareRaw_mixed htype2 htype1 hsize.symm hcells1 hraw1
      · have hlen : cells1.length = cells2.length := by
          rw [← hcells1.size_div, hsize, hcells2.size_div]
        have htags : cells1.map Prod.fst = cells2.map Prod.fst := by
          rw [tags_eq_replicate hraw1, tags_eq_replicate hraw2, hlen]
        have hpayload : (obj1.payload == obj2.payload) =
            (cells1.map Prod.snd == cells2.map Prod.snd) := by
          rw [hcells1.payload, hcells2.payload, Bool.eq_iff_iff, beq_iff_eq, beq_iff_eq]
          exact ⟨flatten_injective (by decide) hcells1.mem_words hcells2.mem_words,
            fun h => by rw [h]⟩
        rw [htype1, htype2, if_neg (not_not_intro rfl), hpayload]
        rcases compareObjs_record hcells1 hcells2 htype1 htype2 hlen with
          ⟨hne, -⟩ | ⟨-, hresult | hresult⟩
        · exact absurd htags hne
        · rw [hresult, eqCells_unboxed hlen hraw1]
        · rw [hresult, eqCells_unboxed hlen.symm hraw2, Bool.beq_comm]
  · have hpayload : obj1.payload ≠ obj2.payload := by
      intro heq
      exact hsize (congrArg List.length heq)
    rw [if_pos hsize, beq_false_of_ne hpayload]
    rfl

end Raw

/-! ### Contents and cells -/

theorem tags_of_stores {contents : List Cell}
    (h : List.Forall₂ Stores cells contents) :
    cells.map Prod.fst = contents.map fun
      | .raw _ => false
      | .ptr _ => true := by
  induction h with
  | nil => rfl
  | @cons cell content cells contents hcell _ ih =>
    rw [List.map_cons, List.map_cons, ih]
    cases content with
    | raw w => rw [hcell.1]
    | ptr val => rw [hcell]

/-- Two pointers are compared, in either order, and the answer is whether `P`
holds. -/
def Answers (heap : Heap) (p1 p2 : Word) (P : Prop) : Prop :=
  ∃ result, (result = true ↔ P) ∧ ∃ bound, ∀ fuel, bound ≤ fuel →
    smlObjEqual heap fuel p1 p2 = .ok result ∧ smlObjEqual heap fuel p2 p1 = .ok result

theorem Answers.of_headers (hne : p1 ≠ p2)
    (hp1 : p1 ≠ null) (hp2 : p2 ≠ null) (hobj1 : heap p1 = some obj1)
    (hobj2 : heap p2 = some obj2) (result : Bool) (hresult : result = true ↔ P)
    (bound : Nat)
    (hcompare : ∀ fuel, bound ≤ fuel →
      compareHeaders (smlObjEqual heap fuel) obj1 obj2 = .ok result ∧
        compareHeaders (smlObjEqual heap fuel) obj2 obj1 = .ok result) :
    Answers heap p1 p2 P := by
  refine ⟨result, hresult, bound + 1, fun fuel hfuel => ?_⟩
  obtain ⟨fuel, rfl⟩ := Nat.exists_eq_add_of_le' hfuel
  rw [← Nat.add_assoc, smlObjEqual_objs hne hp1 hp2 hobj1 hobj2,
    smlObjEqual_objs (Ne.symm hne) hp2 hp1 hobj2 hobj1]
  exact hcompare _ (Nat.le_add_left _ _)

/-- The words are compared one by one, where their pointers can be compared. -/
theorem eqCells_answers (halike : CellsAlike env contents1 contents2)
    (hstores1 : List.Forall₂ Stores cells1 contents1)
    (hstores2 : List.Forall₂ Stores cells2 contents2)
    (hlen : cells1.length = cells2.length)
    (hptrs : ∀ w1 val1 w2 val2, ((true, w1), .ptr val1) ∈ cells1.zip contents1 →
      ((true, w2), .ptr val2) ∈ cells2.zip contents2 → SameType env val1 val2 →
        Answers heap w1 w2 (val1 = val2)) :
    ∃ result, (result = true ↔ contents1 = contents2) ∧
      ∃ bound, ∀ fuel, bound ≤ fuel →
        eqCells (smlObjEqual heap fuel) cells1 cells2 = .ok result ∧
          eqCells (smlObjEqual heap fuel) cells2 cells1 = .ok result := by
  induction halike generalizing cells1 cells2 with
  | nilLeft contents2 =>
    cases hstores1
    have hnil : cells2 = [] := List.eq_nil_of_length_eq_zero hlen.symm
    subst hnil
    cases hstores2
    exact ⟨true, iff_of_true rfl rfl, 0, fun _ _ => ⟨rfl, rfl⟩⟩
  | nilRight contents1 =>
    cases hstores2
    have hnil : cells1 = [] := List.eq_nil_of_length_eq_zero hlen
    subst hnil
    cases hstores1
    exact ⟨true, iff_of_true rfl rfl, 0, fun _ _ => ⟨rfl, rfl⟩⟩
  | @raw w1 w2 contents1 contents2 _ ih =>
    cases hstores1 with
    | @cons cell1 _ cells1 _ hcell1 hstores1 =>
      cases hstores2 with
      | @cons cell2 _ cells2 _ hcell2 hstores2 =>
        obtain ⟨tag1, word1⟩ := cell1
        obtain ⟨tag2, word2⟩ := cell2
        obtain ⟨rfl, rfl⟩ := hcell1
        obtain ⟨rfl, rfl⟩ := hcell2
        simp only [eqCells_cons]
        by_cases hwords : word1 = word2
        · subst hwords
          obtain ⟨result, hresult, bound, hbound⟩ :=
            ih rfl hstores1 hstores2 (Nat.succ.inj hlen)
              fun w1 val1 w2 val2 hmem1 hmem2 =>
                hptrs w1 val1 w2 val2 (List.mem_cons_of_mem _ hmem1)
                  (List.mem_cons_of_mem _ hmem2)
          refine ⟨result, hresult.trans ?_, bound, fun fuel hfuel => ?_⟩
          · simp
          · simpa using hbound fuel hfuel
        · refine ⟨false, ?_, 0, fun fuel _ => ?_⟩
          · simp [hwords]
          · simp only [ne_eq, hwords, Ne.symm hwords, not_false_eq_true, if_true]
            exact ⟨rfl, rfl⟩
  | @ptr val1 val2 contents1 contents2 hsame _ ih =>
    cases hstores1 with
    | @cons cell1 _ cells1 _ hcell1 hstores1 =>
      cases hstores2 with
      | @cons cell2 _ cells2 _ hcell2 hstores2 =>
        obtain ⟨tag1, word1⟩ := cell1
        obtain ⟨tag2, word2⟩ := cell2
        obtain rfl : tag1 = true := hcell1
        obtain rfl : tag2 = true := hcell2
        obtain ⟨first, hfirst, bound1, hbound1⟩ :=
          hptrs word1 val1 word2 val2 List.mem_cons_self List.mem_cons_self hsame
        obtain ⟨rest, hrest, bound2, hbound2⟩ :=
          ih hstores1 hstores2 (Nat.succ.inj hlen)
            fun w1 val1 w2 val2 hmem1 hmem2 =>
              hptrs w1 val1 w2 val2 (List.mem_cons_of_mem _ hmem1)
                (List.mem_cons_of_mem _ hmem2)
        refine ⟨first && rest, ?_, max bound1 bound2, fun fuel hfuel => ?_⟩
        · rw [Bool.and_eq_true, hfirst, hrest]
          simp
        · obtain ⟨hword, hword'⟩ := hbound1 fuel (by omega)
          obtain ⟨hcells, hcells'⟩ := hbound2 fuel (by omega)
          rw [eqCells_cons, eqCells_cons]
          simp only [hword, hword', hcells, hcells']
          cases first <;> exact ⟨rfl, rfl⟩

/-! ### One object -/

theorem BitmapOf.unique {bitmaps : List (BitVec 32)} {tags1 tags2 : List Bool}
    (h1 : BitmapOf bitmaps tags1) (h2 : BitmapOf bitmaps tags2)
    (hlen : tags1.length = tags2.length) : tags1 = tags2 :=
  (h1.eq_iff h2 hlen).mp rfl

/-- An object has one list of tagged words. -/
theorem Obj.Cells.unique {obj : Obj} {cells1 cells2 : List TaggedWord}
    (h1 : obj.Cells cells1) (h2 : obj.Cells cells2) : cells1 = cells2 := by
  have hlen : cells1.length = cells2.length := by
    rw [← h1.size_div, h2.size_div]
  have hwords : cells1.map Prod.snd = cells2.map Prod.snd :=
    flatten_injective (by decide) h1.mem_words h2.mem_words
      (h1.payload.symm.trans h2.payload)
  have htags : cells1.map Prod.fst = cells2.map Prod.fst := by
    rcases h1.tags with ⟨htype1, hbitmap⟩ | ⟨htype1, -, htag1⟩ | ⟨htype1, htag1⟩
    · apply hbitmap.unique (h2.bitmapOf htype1)
      rw [List.length_map, List.length_map, hlen]
    · rcases h2.tags with ⟨htype2, -⟩ | ⟨-, -, htag2⟩ | ⟨htype2, -⟩
      · rw [htype1] at htype2
        cases htype2
      · rw [tags_eq_replicate htag1, tags_eq_replicate htag2, hlen]
      · rw [htype1] at htype2
        cases htype2
    · rcases h2.tags with ⟨htype2, -⟩ | ⟨htype2, -⟩ | ⟨-, htag2⟩
      · rw [htype1] at htype2
        cases htype2
      · rw [htype1] at htype2
        cases htype2
      · rw [tags_eq_replicate htag1, tags_eq_replicate htag2, hlen]
  calc
    cells1 = (cells1.map Prod.fst).zip (cells1.map Prod.snd) :=
      List.zip_of_prod rfl rfl
    _ = (cells2.map Prod.fst).zip (cells2.map Prod.snd) := by rw [htags, hwords]
    _ = cells2 := (List.zip_of_prod rfl rfl).symm

theorem contents_unique (halike : CellsAlike env contents1 contents2)
    (hstores1 : List.Forall₂ Stores cells contents1)
    (hstores2 : List.Forall₂ Stores cells contents2)
    (hptrs : ∀ w val1 val2, ((true, w), .ptr val1) ∈ cells.zip contents1 →
      ((true, w), .ptr val2) ∈ cells.zip contents2 → SameType env val1 val2 →
        val1 = val2) :
    contents1 = contents2 := by
  induction halike generalizing cells with
  | nilLeft contents2 =>
    cases hstores1
    cases hstores2
    rfl
  | nilRight contents1 =>
    cases hstores2
    cases hstores1
    rfl
  | @raw w1 w2 contents1 contents2 _ ih =>
    cases hstores1 with
    | @cons cell _ cells _ hcell1 hstores1 =>
      cases hstores2 with
      | cons hcell2 hstores2 =>
        have hwords : w1 = w2 := hcell1.2.symm.trans hcell2.2
        rw [hwords, ih hwords hstores1 hstores2 fun w val1 val2 hmem1 hmem2 =>
          hptrs w val1 val2 (List.mem_cons_of_mem _ hmem1)
            (List.mem_cons_of_mem _ hmem2)]
  | @ptr val1 val2 contents1 contents2 hsame _ ih =>
    cases hstores1 with
    | @cons cell _ cells _ hcell1 hstores1 =>
      cases hstores2 with
      | cons hcell2 hstores2 =>
        obtain ⟨tag, w⟩ := cell
        obtain rfl : tag = true := hcell1
        rw [hptrs w val1 val2 List.mem_cons_self List.mem_cons_self hsame,
          ih hstores1 hstores2 fun w val1 val2 hmem1 hmem2 =>
            hptrs w val1 val2 (List.mem_cons_of_mem _ hmem1)
              (List.mem_cons_of_mem _ hmem2)]

/-- A word represents one value of a type. -/
theorem Rep.unique {p : Word} {val1 val2 : Val} (h1 : Rep heap p val1)
    (h2 : Rep heap p val2) (hsame : SameType env val1 val2) : val1 = val2 := by
  induction h1 generalizing val2 with
  | null =>
    cases h2 with
    | null => rfl
    | intinf hp => exact absurd rfl hp
    | array hp => exact absurd rfl hp
    | bytes hp => exact absurd rfl hp
    | block hp => exact absurd rfl hp
  | intinf hp hobj =>
    cases hsame.alike with
    | nullRight =>
      cases h2
      exact absurd rfl hp
    | intinf =>
      cases h2 with
      | intinf _ hobj2 =>
        rw [hobj] at hobj2
        cases hobj2
        rfl
  | array hp =>
    cases hsame.alike with
    | nullRight =>
      cases h2
      exact absurd rfl hp
    | array =>
      cases h2
      rfl
  | bytes hp hobj _ hpayload =>
    cases hsame.alike with
    | nullRight =>
      cases h2
      exact absurd rfl hp
    | bytes hinj =>
      cases h2 with
      | bytes _ hobj2 _ hpayload2 =>
        rw [hobj] at hobj2
        cases hobj2
        rw [hinj (hpayload.symm.trans hpayload2)]
  | block hp hobj hcells hstores _ ih =>
    cases hsame.alike with
    | nullRight =>
      cases h2
      exact absurd rfl hp
    | block halike hinj =>
      cases h2 with
      | block _ hobj2 hcells2 hstores2 hreps2 =>
        rw [hobj] at hobj2
        cases hobj2
        cases hcells.unique hcells2
        rw [hinj (contents_unique halike hstores hstores2
          fun w val1 val2 hmem1 hmem2 hsame =>
            ih w val1 hmem1 (hreps2 w val2 hmem2) hsame)]

/-! ### Two objects -/

theorem answers_null {val : Val} (hp : p ≠ null) (hval : val ≠ .null) :
    Answers heap p null (val = .null) := by
  refine ⟨false, by simp [hval], 1, fun fuel hfuel => ?_⟩
  obtain ⟨fuel, rfl⟩ := Nat.exists_eq_add_of_le' hfuel
  rw [smlObjEqual, smlObjEqual, if_neg hp, if_neg (Ne.symm hp), if_pos (.inr rfl),
    if_pos (.inl rfl)]
  exact ⟨rfl, rfl⟩

theorem answers_self (hP : P) : Answers heap p p P := by
  refine ⟨true, iff_of_true rfl hP, 1, fun fuel hfuel => ?_⟩
  obtain ⟨fuel, rfl⟩ := Nat.exists_eq_add_of_le' hfuel
  rw [smlObjEqual, if_pos rfl]
  exact ⟨rfl, rfl⟩

theorem compareHeaders_intinf {equal : Word → Word → Except Stop Bool}
    (htype1 : obj1.objType = .intinf) (htype2 : obj2.objType = .intinf)
    (hsize : obj1.size = obj2.size) :
    compareHeaders equal obj1 obj2 = .ok (obj1.intinf == obj2.intinf) := by
  unfold compareHeaders compareObjs
  rw [if_neg (not_not_intro hsize), htype1, htype2]
  rfl

theorem compareHeaders_array {equal : Word → Word → Except Stop Bool}
    (htype1 : obj1.objType = .unboxedArray ∨ obj1.objType = .boxedArray)
    (htype2 : obj2.objType = .unboxedArray ∨ obj2.objType = .boxedArray) :
    compareHeaders equal obj1 obj2 = .ok false := by
  unfold compareHeaders compareObjs mixed
  rcases htype1 with htype1 | htype1 <;> rcases htype2 with htype2 | htype2 <;>
    by_cases hsize : obj1.size = obj2.size <;> simp [htype1, htype2, hsize] <;> rfl

theorem Answers.symm {p1 p2 : Word} {P : Prop} (h : Answers heap p1 p2 P) :
    Answers heap p2 p1 P := by
  obtain ⟨result, hresult, bound, hbound⟩ := h
  exact ⟨result, hresult, bound, fun fuel hfuel => (hbound fuel hfuel).symm⟩

theorem answers_block (hne : p1 ≠ p2)
    (hp1 : p1 ≠ null) (hp2 : p2 ≠ null) (hobj1 : heap p1 = some obj1)
    (hobj2 : heap p2 = some obj2)
    (hcells1 : obj1.Cells cells1) (hcells2 : obj2.Cells cells2)
    (hstores1 : List.Forall₂ Stores cells1 contents1)
    (hstores2 : List.Forall₂ Stores cells2 contents2)
    (halike : CellsAlike env contents1 contents2)
    (hptrs : ∀ w1 val1 w2 val2, ((true, w1), .ptr val1) ∈ cells1.zip contents1 →
      ((true, w2), .ptr val2) ∈ cells2.zip contents2 → SameType env val1 val2 →
        Answers heap w1 w2 (val1 = val2)) :
    Answers heap p1 p2 (contents1 = contents2) := by
  by_cases htags : cells1.map Prod.fst = cells2.map Prod.fst
  · have hlen : cells1.length = cells2.length := by
      have hcount := congrArg List.length htags
      rwa [List.length_map, List.length_map] at hcount
    obtain ⟨result, hresult, bound, hbound⟩ :=
      eqCells_answers halike hstores1 hstores2 hlen hptrs
    apply Answers.of_headers hne hp1 hp2 hobj1 hobj2 result hresult bound
    intro fuel hfuel
    obtain ⟨heq, heq'⟩ := hbound fuel hfuel
    constructor
    · rcases compareHeaders_cells hcells1 hcells2 with ⟨hdiffer, -⟩ | ⟨-, hrun | hrun⟩
      · exact absurd htags hdiffer
      · exact hrun.trans heq
      · exact hrun.trans heq'
    · rcases compareHeaders_cells hcells2 hcells1 with ⟨hdiffer, -⟩ | ⟨-, hrun | hrun⟩
      · exact absurd htags.symm hdiffer
      · exact hrun.trans heq'
      · exact hrun.trans heq
  · have hcontents : contents1 ≠ contents2 := by
      rintro rfl
      exact htags ((tags_of_stores hstores1).trans (tags_of_stores hstores2).symm)
    apply Answers.of_headers hne hp1 hp2 hobj1 hobj2 false (by simp [hcontents]) 0
    intro fuel _
    constructor
    · rcases compareHeaders_cells hcells1 hcells2 with ⟨-, hrun⟩ | ⟨hsame, -⟩
      · exact hrun
      · exact absurd hsame htags
    · rcases compareHeaders_cells hcells2 hcells1 with ⟨-, hrun⟩ | ⟨hsame, -⟩
      · exact hrun
      · exact absurd hsame.symm htags

/-- Two different words that represent values of one type. -/
theorem answers_of_ne {val1 val2 : Val} (h1 : Rep heap p1 val1)
    (h2 : Rep heap p2 val2) (hsame : SameType env val1 val2) (hne : p1 ≠ p2) :
    Answers heap p1 p2 (val1 = val2) := by
  induction h1 generalizing p2 val2 with
  | null =>
    have hp2 : p2 ≠ null := Ne.symm hne
    have hval2 : val2 ≠ .null := by
      rintro rfl
      cases h2
      exact hne rfl
    rw [eq_comm]
    exact (answers_null hp2 hval2).symm
  | @intinf p1 obj1 hp1 hobj1 htype1 hsize1 =>
    cases hsame.alike with
    | nullRight =>
      cases h2
      exact answers_null hp1 nofun
    | intinf =>
      cases h2 with
      | @intinf _ obj2 hp2 hobj2 htype2 hsize2 =>
        have hsize := hsize1.trans hsize2.symm
        apply Answers.of_headers hne hp1 hp2 hobj1 hobj2
          (obj1.intinf == obj2.intinf) (by simp) 0
        intro fuel _
        rw [compareHeaders_intinf htype1 htype2 hsize,
          compareHeaders_intinf htype2 htype1 hsize.symm, Bool.beq_comm]
        exact ⟨rfl, rfl⟩
  | @array p1 obj1 hp1 hobj1 htype1 =>
    cases hsame.alike with
    | nullRight =>
      cases h2
      exact answers_null hp1 nofun
    | array =>
      cases h2 with
      | @array _ obj2 hp2 hobj2 htype2 =>
        apply Answers.of_headers hne hp1 hp2 hobj1 hobj2 false (by simp [hne]) 0
        intro fuel _
        exact ⟨compareHeaders_array htype1 htype2,
          compareHeaders_array htype2 htype1⟩
  | @bytes p1 obj1 elems1 hp1 hobj1 hraw1 hpayload1 =>
    cases hsame.alike with
    | nullRight =>
      cases h2
      exact answers_null hp1 nofun
    | @bytes _ elems2 hinj =>
      cases h2 with
      | @bytes _ obj2 _ hp2 hobj2 hraw2 hpayload2 =>
        have hresult : (obj1.payload == obj2.payload) = true ↔
            Val.bytes elems1 = Val.bytes elems2 := by
          rw [beq_iff_eq, hpayload1, hpayload2, Val.bytes.injEq]
          exact ⟨hinj, fun h => by rw [h]⟩
        apply Answers.of_headers hne hp1 hp2 hobj1 hobj2 _ hresult 0
        intro fuel _
        rw [compareHeaders_raw hraw1 hraw2, compareHeaders_raw hraw2 hraw1,
          Bool.beq_comm]
        exact ⟨rfl, rfl⟩
  | @block p1 obj1 cells1 fields1 hp1 hobj1 hcells1 hstores1 hreps1 ih =>
    cases hsame.alike with
    | nullRight =>
      cases h2
      exact answers_null hp1 nofun
    | @block _ fields2 halike hinj =>
      cases h2 with
      | @block _ obj2 cells2 _ hp2 hobj2 hcells2 hstores2 hreps2 =>
        have hvals : Val.block fields1 = Val.block fields2 ↔
            layout [] fields1 = layout [] fields2 := by
          rw [Val.block.injEq]
          exact ⟨fun h => by rw [h], hinj⟩
        rw [hvals]
        apply answers_block hne hp1 hp2 hobj1 hobj2 hcells1 hcells2 hstores1
          hstores2 halike
        intro w1 val1 w2 val2 hmem1 hmem2 hsame
        by_cases hw : w1 = w2
        · subst hw
          exact answers_self
            ((hreps1 w1 val1 hmem1).unique (hreps2 w1 val2 hmem2) hsame)
        · exact ih w1 val1 hmem1 (hreps2 w2 val2 hmem2) hsame hw

/-- With words that represent values of one type, `sml_obj_equal` returns, with the
same answer in either order, which is whether the values are equal. -/
theorem smlObjEqual_correct (env : Name → DataTy Name) (heap : Heap) (ty : Ty Name)
    {p1 p2 : Word} {val1 val2 : Val} (hrep1 : Rep heap p1 val1)
    (hrep2 : Rep heap p2 val2) (hty1 : HasType env ty val1) (hty2 : HasType env ty val2) :
    ∃ result, (result = true ↔ val1 = val2) ∧ ∃ bound, ∀ fuel, bound ≤ fuel →
      smlObjEqual heap fuel p1 p2 = .ok result ∧
        smlObjEqual heap fuel p2 p1 = .ok result := by
  have hsame : SameType env val1 val2 := ⟨ty, hty1, hty2⟩
  by_cases hne : p1 = p2
  · subst hne
    exact answers_self (hrep1.unique hrep2 hsame)
  · exact answers_of_ne hrep1 hrep2 hsame hne

/-! ### A vector and a record with the same contents -/

/-- A boxed vector at `1` and a record at `2`, whose elements are the number 5 at
`3` and at `4`. -/
def mixedHeap : Heap := fun p =>
  if p = List.replicate 8 1 then some ⟨.boxedVector, List.replicate 8 3, [], 0⟩
  else if p = List.replicate 8 2 then some ⟨.record, List.replicate 8 4, [1], 0⟩
  else if p = List.replicate 8 3 ∨ p = List.replicate 8 4 then
    some ⟨.intinf, List.replicate 16 0, [], 5⟩
  else none

theorem mixedHeap_five (h : p = List.replicate 8 3 ∨ p = List.replicate 8 4) :
    Rep mixedHeap p (.intinf 5) := by
  have hp : p ≠ null := by
    rcases h with rfl | rfl <;> decide
  have hobj : mixedHeap p = some ⟨.intinf, List.replicate 16 0, [], 5⟩ := by
    rcases h with rfl | rfl <;> rfl
  exact .intinf hp hobj rfl rfl

theorem mixedHeap_rep {w : Word} {obj : Obj} (hp : p ≠ null)
    (hobj : mixedHeap p = some obj) (hcells : obj.Cells [(true, w)])
    (hw : w = List.replicate 8 3 ∨ w = List.replicate 8 4) :
    Rep mixedHeap p (.block [.boxed (.intinf 5)]) := by
  apply Rep.block hp hobj hcells
  · exact .cons rfl .nil
  · intro w' val hmem
    cases hmem with
    | head => exact mixedHeap_five hw
    | tail _ hmem => cases hmem

theorem bitmapOf_one : BitmapOf [1] [true] := by
  refine ⟨rfl, fun i => ?_⟩
  cases i with
  | zero => rfl
  | succ i =>
    simp [BitWords.bitAt]

/-- A vector and a record object, each with one boxed big integer. -/
theorem smlObjEqual_mixed :
    ∃ result, (result = true ↔
        Val.block [.boxed (.intinf 5)] = Val.block [.boxed (.intinf 5)]) ∧
      ∃ bound, ∀ fuel, bound ≤ fuel →
        smlObjEqual mixedHeap fuel (List.replicate 8 1) (List.replicate 8 2) = .ok result ∧
          smlObjEqual mixedHeap fuel (List.replicate 8 2) (List.replicate 8 1) =
            .ok result := by
  have helems : ∀ val ∈ [Val.intinf 5],
      HasType (fun name : Empty => nomatch name) .intInf val := by
    simpa using HasType.intInf 5
  have hty := HasType.vector helems
  apply smlObjEqual_correct _ mixedHeap _ _ _ hty hty
  · apply mixedHeap_rep (by decide) rfl _ (.inl rfl)
    exact ⟨by simp [wordSize], rfl, .inr (.inr ⟨rfl, by simp⟩)⟩
  · apply mixedHeap_rep (by decide) rfl _ (.inr rfl)
    exact ⟨by simp [wordSize], rfl, .inl ⟨rfl, bitmapOf_one⟩⟩

end ObjEqual

end SmlSharp
