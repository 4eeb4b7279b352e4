/-
The contents of an object as a list of tagged words, and what `sml_obj_equal`
does with two objects whose contents are known: it compares the tags, and then
the words one by one.
-/
import SmlSharp.ObjEqual.Object

namespace SmlSharp

namespace ObjEqual

open BitWords

/-- A word with its tag, which is set if the word is a pointer. -/
abbrev TaggedWord := Bool × Word

/-- The bitmap of a record has the tags of its words, and no other bit. -/
def BitmapOf (bitmaps : List (BitVec 32)) (tags : List Bool) : Prop :=
  bitmaps.length = (tags.length + 31) / 32 ∧
    ∀ i, bitAt bitmaps i = tags.getD i false

/-- The payload consists of these words, whose tags are those of the object.  An
empty payload is that of a record or a boxed vector. -/
structure Obj.Cells (obj : Obj) (cells : List TaggedWord) : Prop where
  words : ∀ cell ∈ cells, cell.2.length = wordSize
  payload : obj.payload = (cells.map Prod.snd).flatten
  tags :
    (obj.objType = .record ∧ BitmapOf obj.bitmaps (cells.map Prod.fst)) ∨
    (obj.objType = .unboxedVector ∧ cells ≠ [] ∧ ∀ cell ∈ cells, cell.1 = false) ∨
    (obj.objType = .boxedVector ∧ ∀ cell ∈ cells, cell.1 = true)

theorem length_flatten_words {ws : List Word} (h : ∀ w ∈ ws, w.length = wordSize) :
    ws.flatten.length = wordSize * ws.length := by
  induction ws with
  | nil => rfl
  | cons w ws ih =>
    rw [List.flatten_cons, List.length_append, h w List.mem_cons_self,
      ih fun w' hw' => h w' (List.mem_cons_of_mem _ hw'), List.length_cons,
      Nat.mul_succ, Nat.add_comm]

theorem drop_flatten_words {ws : List Word} (h : ∀ w ∈ ws, w.length = wordSize)
    (i : Nat) : ws.flatten.drop (wordSize * i) = (ws.drop i).flatten := by
  induction ws generalizing i with
  | nil => simp
  | cons w ws ih =>
    cases i with
    | zero => rfl
    | succ i =>
      have hw := h w List.mem_cons_self
      have hskip : wordSize * (i + 1) - w.length = wordSize * i := by
        rw [hw, Nat.mul_succ]
        omega
      have hnil : w.drop (wordSize * (i + 1)) = [] :=
        List.drop_eq_nil_of_le (by rw [hw, Nat.mul_succ]; omega)
      rw [List.flatten_cons, List.drop_append, hnil, hskip, List.nil_append,
        List.drop_succ_cons]
      exact ih (fun w' hw' => h w' (List.mem_cons_of_mem _ hw')) i

theorem flatten_injective {size : Nat} (hsize : 0 < size) {elems1 elems2 : List (List UInt8)}
    (h1 : ∀ elem ∈ elems1, elem.length = size) (h2 : ∀ elem ∈ elems2, elem.length = size)
    (heq : elems1.flatten = elems2.flatten) : elems1 = elems2 := by
  induction elems1 generalizing elems2 with
  | nil =>
    cases elems2 with
    | nil => rfl
    | cons elem elems =>
      have hlen := congrArg List.length heq
      rw [List.flatten_cons, List.length_append, h2 elem List.mem_cons_self] at hlen
      simp at hlen
      omega
  | cons elem1 elems1 ih =>
    cases elems2 with
    | nil =>
      have hlen := congrArg List.length heq
      rw [List.flatten_cons, List.length_append, h1 elem1 List.mem_cons_self] at hlen
      simp at hlen
      omega
    | cons elem2 elems2 =>
      rw [List.flatten_cons, List.flatten_cons] at heq
      obtain ⟨helem, hrest⟩ := List.append_inj heq
        ((h1 elem1 List.mem_cons_self).trans (h2 elem2 List.mem_cons_self).symm)
      rw [helem, ih (fun elem hmem => h1 elem (List.mem_cons_of_mem _ hmem))
        (fun elem hmem => h2 elem (List.mem_cons_of_mem _ hmem)) hrest]

namespace Obj.Cells

variable {obj : Obj} {cells : List TaggedWord}

theorem mem_words (h : obj.Cells cells) :
    ∀ w ∈ cells.map Prod.snd, w.length = wordSize := by
  intro w hw
  obtain ⟨cell, hcell, rfl⟩ := List.mem_map.mp hw
  exact h.words cell hcell

theorem size (h : obj.Cells cells) : obj.size = wordSize * cells.length := by
  rw [Obj.size, h.payload, length_flatten_words h.mem_words, List.length_map]

theorem size_div (h : obj.Cells cells) : obj.size / wordSize = cells.length := by
  rw [h.size]
  exact Nat.mul_div_cancel_left _ (by decide)

theorem size_mod (h : obj.Cells cells) : (obj.size % wordSize == 0) = true := by
  rw [h.size]
  simp

theorem word (h : obj.Cells cells) {i : Nat} {cell : TaggedWord}
    (hcell : cells[i]? = some cell) : obj.word i = .ok cell.2 := by
  have hdrop : (cells.map Prod.snd).drop i =
      cell.2 :: (cells.map Prod.snd).drop (i + 1) := by
    obtain ⟨hi, hget⟩ := List.getElem?_eq_some_iff.mp hcell
    have hi' : i < (cells.map Prod.snd).length := by simpa using hi
    rw [List.drop_eq_getElem_cons hi', List.getElem_map, hget]
  have hlen := h.words cell (List.mem_of_getElem? hcell)
  have hword : (obj.payload.drop (wordSize * i)).take wordSize = cell.2 := by
    rw [h.payload, drop_flatten_words h.mem_words, hdrop, List.flatten_cons,
      List.take_append_of_le_length (by omega), ← hlen, List.take_length]
  rw [Obj.word, hword]
  exact if_pos hlen

theorem bitmapOf (h : obj.Cells cells) (hrecord : obj.objType = .record) :
    BitmapOf obj.bitmaps (cells.map Prod.fst) := by
  rcases h.tags with ⟨-, hbitmap⟩ | ⟨hunboxed, -⟩ | ⟨hboxed, -⟩
  · exact hbitmap
  · rw [hrecord] at hunboxed
    cases hunboxed
  · rw [hrecord] at hboxed
    cases hboxed

/-- The bit of a record is the tag of its word. -/
theorem bit (h : obj.Cells cells) (hrecord : obj.objType = .record) {i : Nat}
    {cell : TaggedWord} (hcell : cells[i]? = some cell) :
    bitmapBit obj.bitmaps i = .ok cell.1 := by
  obtain ⟨hlen, hbits⟩ := h.bitmapOf hrecord
  obtain ⟨hi, hget⟩ := List.getElem?_eq_some_iff.mp hcell
  have hlt : i / 32 < obj.bitmaps.length := by
    rw [hlen, List.length_map]
    omega
  have hword := List.getElem?_eq_getElem hlt
  have hbit := hbits i
  rw [bitAt_of_getElem? (by decide) hword] at hbit
  rw [bitmapBit, hword]
  simp only [hbit, List.getD_eq_getElem?_getD, List.getElem?_map, hcell]
  rfl

end Obj.Cells

/-- The comparison of contents with the same tags, word by word. -/
def eqCells (equal : Word → Word → Except Stop Bool) :
    List TaggedWord → List TaggedWord → Except Stop Bool
  | (tag, w1) :: cells1, (_, w2) :: cells2 =>
    if !tag then
      if w1 ≠ w2 then return false else eqCells equal cells1 cells2
    else do
      let same ← equal w1 w2
      if !same then return false else eqCells equal cells1 cells2
  | _, _ => return true

theorem eqCells_cons (equal : Word → Word → Except Stop Bool)
    (cell1 cell2 : TaggedWord) (cells1 cells2 : List TaggedWord) :
    eqCells equal (cell1 :: cells1) (cell2 :: cells2) = if !cell1.1 then
        if cell1.2 ≠ cell2.2 then pure false else eqCells equal cells1 cells2
      else equal cell1.2 cell2.2 >>= fun same =>
          if !same then pure false else eqCells equal cells1 cells2 :=
  rfl

/-! ### The loops -/

theorem memcmp_eq {obj1 obj2 : Obj} (hsize : obj1.size = obj2.size) :
    memcmp obj1 obj2 obj1.size = .ok (obj1.payload == obj2.payload) := by
  rw [memcmp, if_pos ⟨Nat.le_refl _, Nat.le_of_eq hsize⟩]
  simp only [Obj.size] at hsize ⊢
  rw [List.take_length, hsize, List.take_length]

theorem bitmapLoop_eq {obj1 obj2 : Obj} (hlen : obj1.bitmaps.length = obj2.bitmaps.length)
    {n i : Nat} (hn : n + i = obj1.bitmaps.length) :
    bitmapLoop obj1 obj2 n i = .ok (obj1.bitmaps.drop i == obj2.bitmaps.drop i) := by
  induction n generalizing i with
  | zero =>
    have h1 : obj1.bitmaps.drop i = [] := List.drop_eq_nil_of_le (by omega)
    have h2 : obj2.bitmaps.drop i = [] := List.drop_eq_nil_of_le (by omega)
    rw [h1, h2]
    rfl
  | succ n ih =>
    have hi1 : i < obj1.bitmaps.length := by omega
    have hi2 : i < obj2.bitmaps.length := by omega
    rw [bitmapLoop, List.getElem?_eq_getElem hi1, List.getElem?_eq_getElem hi2,
      List.drop_eq_getElem_cons hi1, List.drop_eq_getElem_cons hi2]
    dsimp only
    by_cases hbits : obj1.bitmaps[i] = obj2.bitmaps[i]
    · rw [if_neg (not_not_intro hbits), ih (by omega), hbits, List.cons_beq_cons]
      simp
    · rw [if_pos hbits, List.cons_beq_cons, beq_false_of_ne hbits]
      rfl

section Cells

variable {obj obj1 obj2 : Obj} {cells cells1 cells2 : List TaggedWord}
variable {equal : Word → Word → Except Stop Bool}

theorem tagLoop_eq (h : obj.Cells cells) (hrecord : obj.objType = .record)
    (tag : Bool) {n i : Nat} (hn : n + i = cells.length) :
    tagLoop obj.bitmaps tag n i =
      .ok ((cells.drop i).all fun cell => cell.1 == tag) := by
  induction n generalizing i with
  | zero =>
    have hnil : cells.drop i = [] := List.drop_eq_nil_of_le (by omega)
    rw [hnil]
    rfl
  | succ n ih =>
    have hi : i < cells.length := by omega
    rw [tagLoop, h.bit hrecord (List.getElem?_eq_getElem hi),
      List.drop_eq_getElem_cons hi, List.all_cons]
    show (if cells[i].1 ≠ tag then _ else _) = _
    by_cases htag : cells[i].1 = tag
    · rw [if_neg (not_not_intro htag), ih (by omega), htag]
      simp
    · rw [if_pos htag, beq_false_of_ne htag]
      rfl

theorem boxedLoop_eq (h1 : obj1.Cells cells1) (h2 : obj2.Cells cells2)
    (hlen : cells1.length = cells2.length)
    (hboxed : ∀ cell ∈ cells1, cell.1 = true) {n i : Nat}
    (hn : n + i = cells1.length) : boxedLoop equal obj1 obj2 n i =
      eqCells equal (cells1.drop i) (cells2.drop i) := by
  induction n generalizing i with
  | zero =>
    have hnil : cells1.drop i = [] := List.drop_eq_nil_of_le (by omega)
    rw [hnil]
    rfl
  | succ n ih =>
    have hi1 : i < cells1.length := by omega
    have hi2 : i < cells2.length := by omega
    have htag := hboxed cells1[i] (List.getElem_mem hi1)
    rw [boxedLoop, h1.word (List.getElem?_eq_getElem hi1),
      h2.word (List.getElem?_eq_getElem hi2), List.drop_eq_getElem_cons hi1,
      List.drop_eq_getElem_cons hi2, ih (by omega), eqCells_cons, htag]
    rfl

theorem recordLoop_eq (h1 : obj1.Cells cells1) (hrecord : obj1.objType = .record)
    (h2 : obj2.Cells cells2) (hlen : cells1.length = cells2.length) {n i : Nat}
    (hn : n + i = cells1.length) : recordLoop equal obj1 obj2 n i =
      eqCells equal (cells1.drop i) (cells2.drop i) := by
  induction n generalizing i with
  | zero =>
    have hnil : cells1.drop i = [] := List.drop_eq_nil_of_le (by omega)
    rw [hnil]
    rfl
  | succ n ih =>
    have hi1 : i < cells1.length := by omega
    have hi2 : i < cells2.length := by omega
    rw [recordLoop, h1.bit hrecord (List.getElem?_eq_getElem hi1),
      h1.word (List.getElem?_eq_getElem hi1),
      h2.word (List.getElem?_eq_getElem hi2), List.drop_eq_getElem_cons hi1,
      List.drop_eq_getElem_cons hi2, ih (by omega), eqCells_cons]
    rfl

/-- Contents without pointers are compared as a whole. -/
theorem eqCells_unboxed (hlen : cells1.length = cells2.length)
    (hunboxed : ∀ cell ∈ cells1, cell.1 = false) : eqCells equal cells1 cells2 =
      .ok (cells1.map Prod.snd == cells2.map Prod.snd) := by
  induction cells1 generalizing cells2 with
  | nil =>
    have hnil : cells2 = [] := List.eq_nil_of_length_eq_zero hlen.symm
    rw [hnil]
    rfl
  | cons cell1 cells1 ih =>
    cases cells2 with
    | nil => cases hlen
    | cons cell2 cells2 =>
      have hrest := ih (Nat.succ.inj hlen)
        fun cell hcell => hunboxed cell (List.mem_cons_of_mem _ hcell)
      have htag := hunboxed cell1 List.mem_cons_self
      rw [eqCells_cons, htag, hrest, List.map_cons, List.map_cons,
        List.cons_beq_cons]
      show (if cell1.2 ≠ cell2.2 then _ else _) = _
      by_cases hword : cell1.2 = cell2.2
      · rw [if_neg (not_not_intro hword), hword]
        simp
      · rw [if_pos hword, beq_false_of_ne hword]
        rfl

/-! ### Two objects -/

theorem BitmapOf.eq_iff {bitmaps1 bitmaps2 : List (BitVec 32)} {tags1 tags2 : List Bool}
    (h1 : BitmapOf bitmaps1 tags1) (h2 : BitmapOf bitmaps2 tags2)
    (hlen : tags1.length = tags2.length) :
    bitmaps1 = bitmaps2 ↔ tags1 = tags2 := by
  constructor
  · rintro rfl
    refine List.ext_getElem hlen fun i hi1 hi2 => ?_
    have hbit := (h1.2 i).symm.trans (h2.2 i)
    simpa [List.getD_eq_getElem?_getD, hi1, hi2] using hbit
  · rintro rfl
    have hwords : bitmaps1.length = bitmaps2.length := h1.1.trans h2.1.symm
    have hlong := eq_append_replicate (Nat.le_of_eq hwords)
      fun i => (h1.2 i).trans (h2.2 i).symm
    rw [← hwords, Nat.sub_self, List.replicate_zero, List.append_nil] at hlong
    exact hlong.symm

/-- The outcome of a comparison of contents: the tags differ, or the words are
compared, in one order or the other. -/
def Compared (equal : Word → Word → Except Stop Bool)
    (cells1 cells2 : List TaggedWord) (result : Except Stop Bool) : Prop :=
  (cells1.map Prod.fst ≠ cells2.map Prod.fst ∧ result = .ok false) ∨
  (cells1.map Prod.fst = cells2.map Prod.fst ∧
    (result = eqCells equal cells1 cells2 ∨ result = eqCells equal cells2 cells1))

theorem tags_eq_replicate {tag : Bool} (h : ∀ cell ∈ cells, cell.1 = tag) :
    cells.map Prod.fst = List.replicate cells.length tag := by
  refine List.eq_replicate_iff.mpr ⟨List.length_map _, fun b hb => ?_⟩
  obtain ⟨cell, hcell, rfl⟩ := List.mem_map.mp hb
  exact h cell hcell

theorem all_tag_iff {tag : Bool} :
    (cells.all fun cell => cell.1 == tag) = true ↔
      cells.map Prod.fst = List.replicate cells.length tag := by
  rw [List.all_eq_true]
  constructor
  · intro h
    exact tags_eq_replicate fun cell hcell => by simpa using h cell hcell
  · intro h cell hcell
    have hmem : cell.1 ∈ cells.map Prod.fst := List.mem_map_of_mem hcell
    rw [h] at hmem
    simp [List.eq_of_mem_replicate hmem]

theorem compareObjs_record (h1 : obj1.Cells cells1) (h2 : obj2.Cells cells2)
    (hrecord1 : obj1.objType = .record) (hrecord2 : obj2.objType = .record)
    (hlen : cells1.length = cells2.length) :
    Compared equal cells1 cells2 (compareObjs equal obj1 obj2) := by
  have hnum : obj1.numBitmaps = obj2.numBitmaps := by
    rw [Obj.numBitmaps, Obj.numBitmaps, h1.size, h2.size, hlen]
  have hmap1 := h1.bitmapOf hrecord1
  have hmap2 := h2.bitmapOf hrecord2
  have hlen' : (cells1.map Prod.fst).length = (cells2.map Prod.fst).length := by
    simpa using hlen
  have hbitmaps : obj1.bitmaps.length = obj2.bitmaps.length := by
    rw [hmap1.1, hmap2.1, hlen']
  have hnumLen : obj1.numBitmaps + 0 = obj1.bitmaps.length := by
    rw [hmap1.1, Obj.numBitmaps, h1.size_div, List.length_map]
    rfl
  have hresult : compareObjs equal obj1 obj2 =
      if obj1.bitmaps = obj2.bitmaps then eqCells equal cells1 cells2
      else .ok false := by
    unfold compareObjs
    rw [hrecord1]
    simp only
    rw [hnum, beq_self_eq_true, h1.size_mod, ← hnum,
      bitmapLoop_eq hbitmaps hnumLen, h1.size_div,
      recordLoop_eq h1 hrecord1 h2 hlen (Nat.add_zero _), List.drop_zero,
      List.drop_zero, List.drop_zero, List.drop_zero]
    by_cases hsame : obj1.bitmaps = obj2.bitmaps
    · rw [if_pos hsame, hsame]
      simp [assert, bind, Except.bind]
    · rw [if_neg hsame, beq_false_of_ne hsame]
      rfl
  rw [hresult]
  by_cases htags : cells1.map Prod.fst = cells2.map Prod.fst
  · rw [if_pos ((hmap1.eq_iff hmap2 hlen').mpr htags)]
    exact .inr ⟨htags, .inl rfl⟩
  · rw [if_neg (mt (hmap1.eq_iff hmap2 hlen').mp htags)]
    exact .inl ⟨htags, rfl⟩

theorem compareObjs_unboxed (h1 : obj1.Cells cells1) (h2 : obj2.Cells cells2)
    (htype : obj1.objType = .unboxedVector)
    (hunboxed : ∀ cell ∈ cells1, cell.1 = false)
    (hlen : cells1.length = cells2.length) :
    compareObjs equal obj1 obj2 = eqCells equal cells1 cells2 := by
  have hsize : obj1.size = obj2.size := by rw [h1.size, h2.size, hlen]
  have hpayload : (obj1.payload == obj2.payload) =
      (cells1.map Prod.snd == cells2.map Prod.snd) := by
    rw [h1.payload, h2.payload, Bool.eq_iff_iff, beq_iff_eq, beq_iff_eq]
    exact ⟨flatten_injective (by decide) h1.mem_words h2.mem_words, fun h => by rw [h]⟩
  unfold compareObjs
  rw [htype]
  simp only
  rw [memcmp_eq hsize, hpayload, eqCells_unboxed hlen hunboxed]

theorem compareObjs_boxed (h1 : obj1.Cells cells1) (h2 : obj2.Cells cells2)
    (htype : obj1.objType = .boxedVector) (hboxed : ∀ cell ∈ cells1, cell.1 = true)
    (hlen : cells1.length = cells2.length) :
    compareObjs equal obj1 obj2 = eqCells equal cells1 cells2 := by
  unfold compareObjs
  rw [htype]
  simp only
  rw [h1.size_mod, h1.size_div,
    boxedLoop_eq h1 h2 hlen hboxed (Nat.add_zero _), List.drop_zero, List.drop_zero]
  rfl

/-- A vector `obj1` and a record `obj2`: the bits of the record must be the tag of
the vector's words. -/
theorem compareMixed (h2 : obj2.Cells cells2)
    (hrecord : obj2.objType = .record) {tag : Bool}
    (htag : ∀ cell ∈ cells1, cell.1 = tag)
    (hcompare : compareObjs equal obj1 obj2 = eqCells equal cells1 cells2)
    (hlen : cells1.length = cells2.length) : (do
      assert (obj2.size % wordSize == 0)
      let same ← tagLoop obj2.bitmaps tag (obj2.size / wordSize) 0
      if !same then return false else compareObjs equal obj1 obj2) =
      if cells1.map Prod.fst = cells2.map Prod.fst then eqCells equal cells1 cells2
      else .ok false := by
  have htags : (cells2.all fun cell => cell.1 == tag) = true ↔
      cells1.map Prod.fst = cells2.map Prod.fst := by
    rw [all_tag_iff, tags_eq_replicate htag, hlen, eq_comm]
  rw [h2.size_mod, h2.size_div, tagLoop_eq h2 hrecord tag (Nat.add_zero _),
    List.drop_zero, hcompare]
  by_cases hall : (cells2.all fun cell => cell.1 == tag) = true
  · rw [if_pos (htags.mp hall), hall]
    rfl
  · rw [if_neg (mt htags.mpr hall), Bool.not_eq_true _ |>.mp hall]
    rfl

theorem Compared.of_ite {result : Except Stop Bool}
    (h : result = if cells1.map Prod.fst = cells2.map Prod.fst then
      eqCells equal cells1 cells2 else .ok false) :
    Compared equal cells1 cells2 result := by
  by_cases htags : cells1.map Prod.fst = cells2.map Prod.fst
  · rw [if_pos htags] at h
    exact .inr ⟨htags, .inl h⟩
  · rw [if_neg htags] at h
    exact .inl ⟨htags, h⟩

theorem Compared.symm {result : Except Stop Bool}
    (h : Compared equal cells1 cells2 result) :
    Compared equal cells2 cells1 result := by
  rcases h with ⟨htags, h⟩ | ⟨htags, h⟩
  · exact .inl ⟨htags.symm, h⟩
  · exact .inr ⟨htags.symm, h.symm⟩

theorem tags_ne {tag1 tag2 : Bool} (hne : tag1 ≠ tag2) (hcells : cells1 ≠ [])
    (h1 : ∀ cell ∈ cells1, cell.1 = tag1) (h2 : ∀ cell ∈ cells2, cell.1 = tag2) :
    cells1.map Prod.fst ≠ cells2.map Prod.fst := by
  intro heq
  obtain ⟨cell, hcell⟩ := List.exists_mem_of_ne_nil cells1 hcells
  have hmem : cell.1 ∈ cells1.map Prod.fst := List.mem_map_of_mem hcell
  rw [heq] at hmem
  obtain ⟨cell', hcell', heq'⟩ := List.mem_map.mp hmem
  exact hne ((h1 cell hcell).symm.trans (heq'.symm.trans (h2 cell' hcell')))

theorem compareHeaders_cells (h1 : obj1.Cells cells1) (h2 : obj2.Cells cells2) :
    Compared equal cells1 cells2 (compareHeaders equal obj1 obj2) := by
  unfold compareHeaders
  by_cases hlen : cells1.length = cells2.length
  · have hsize : obj1.size = obj2.size := by rw [h1.size, h2.size, hlen]
    rw [if_neg (not_not_intro hsize)]
    rcases h1.tags with ⟨htype1, -⟩ | ⟨htype1, hne1, htag1⟩ | ⟨htype1, htag1⟩
    · rcases h2.tags with ⟨htype2, -⟩ | ⟨htype2, -, htag2⟩ | ⟨htype2, htag2⟩
      · rw [htype1, htype2, if_neg (not_not_intro rfl)]
        exact compareObjs_record h1 h2 htype1 htype2 hlen
      · have hmixed : mixed obj1 obj2 = some (obj2, obj1, false) := by
          simp [mixed, htype1, htype2]
        rw [if_pos (by simp [htype1, htype2]), hmixed]
        exact (Compared.of_ite (compareMixed h1 htype1 htag2
          (compareObjs_unboxed h2 h1 htype2 htag2 hlen.symm) hlen.symm)).symm
      · have hmixed : mixed obj1 obj2 = some (obj2, obj1, true) := by
          simp [mixed, htype1, htype2]
        rw [if_pos (by simp [htype1, htype2]), hmixed]
        exact (Compared.of_ite (compareMixed h1 htype1 htag2
          (compareObjs_boxed h2 h1 htype2 htag2 hlen.symm) hlen.symm)).symm
    · rcases h2.tags with ⟨htype2, -⟩ | ⟨htype2, -, htag2⟩ | ⟨htype2, htag2⟩
      · have hmixed : mixed obj1 obj2 = some (obj1, obj2, false) := by
          simp [mixed, htype1, htype2]
        rw [if_pos (by simp [htype1, htype2]), hmixed]
        exact Compared.of_ite (compareMixed h2 htype2 htag1
          (compareObjs_unboxed h1 h2 htype1 htag1 hlen) hlen)
      · rw [htype1, htype2, if_neg (not_not_intro rfl)]
        refine .inr ⟨?_, .inl (compareObjs_unboxed h1 h2 htype1 htag1 hlen)⟩
        rw [tags_eq_replicate htag1, tags_eq_replicate htag2, hlen]
      · have hmixed : mixed obj1 obj2 = none := by
          simp [mixed, htype1, htype2]
        rw [if_pos (by simp [htype1, htype2]), hmixed]
        exact .inl ⟨tags_ne (by decide) hne1 htag1 htag2, rfl⟩
    · rcases h2.tags with ⟨htype2, -⟩ | ⟨htype2, hne2, htag2⟩ | ⟨htype2, htag2⟩
      · have hmixed : mixed obj1 obj2 = some (obj1, obj2, true) := by
          simp [mixed, htype1, htype2]
        rw [if_pos (by simp [htype1, htype2]), hmixed]
        exact Compared.of_ite (compareMixed h2 htype2 htag1
          (compareObjs_boxed h1 h2 htype1 htag1 hlen) hlen)
      · have hmixed : mixed obj1 obj2 = none := by
          simp [mixed, htype1, htype2]
        rw [if_pos (by simp [htype1, htype2]), hmixed]
        exact .inl ⟨(tags_ne (by decide) hne2 htag2 htag1).symm, rfl⟩
      · rw [htype1, htype2, if_neg (not_not_intro rfl)]
        refine .inr ⟨?_, .inl (compareObjs_boxed h1 h2 htype1 htag1 hlen)⟩
        rw [tags_eq_replicate htag1, tags_eq_replicate htag2, hlen]
  · have hsize : obj1.size ≠ obj2.size := by
      rw [h1.size, h2.size]
      intro heq
      exact hlen (Nat.eq_of_mul_eq_mul_left (by decide) heq)
    have htags : cells1.map Prod.fst ≠ cells2.map Prod.fst := by
      intro heq
      have hcount := congrArg List.length heq
      rw [List.length_map, List.length_map] at hcount
      exact hlen hcount
    rw [if_pos hsize]
    exact .inl ⟨htags, rfl⟩

end Cells

/-- A comparison of two pointers to objects. -/
theorem smlObjEqual_objs {heap : Heap} {fuel : Nat} {p1 p2 : Word} {obj1 obj2 : Obj}
    (hne : p1 ≠ p2) (hp1 : p1 ≠ null) (hp2 : p2 ≠ null)
    (hobj1 : heap p1 = some obj1) (hobj2 : heap p2 = some obj2) :
    smlObjEqual heap (fuel + 1) p1 p2 =
      compareHeaders (smlObjEqual heap fuel) obj1 obj2 := by
  rw [smlObjEqual, if_neg hne, if_neg (by simp [hp1, hp2]), deref, hobj1, deref,
    hobj2]
  rfl

end ObjEqual

end SmlSharp
