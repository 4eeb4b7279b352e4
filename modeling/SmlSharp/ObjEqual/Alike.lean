/-
Two values of one type: their layouts agree up to the first raw word that differs,
and equal layouts are those of equal values.
-/
import SmlSharp.ObjEqual.Values

namespace SmlSharp

namespace ObjEqual

variable {Name : Type} {env : Name → DataTy Name}

/-- The values of one type, whichever it is. -/
def SameType (env : Name → DataTy Name) (val1 val2 : Val) : Prop :=
  ∃ ty, HasType env ty val1 ∧ HasType env ty val2

/-- Contents that can be compared word by word: pointers stand opposite each other
and lead to values of one type, as far as the raw words before them agree. -/
inductive CellsAlike (env : Name → DataTy Name) : List Cell → List Cell → Prop where
  | nilLeft (cells2 : List Cell) : CellsAlike env [] cells2
  | nilRight (cells1 : List Cell) : CellsAlike env cells1 []
  | raw (w1 w2 : Word) {cells1 cells2 : List Cell} :
      (w1 = w2 → CellsAlike env cells1 cells2) →
        CellsAlike env (.raw w1 :: cells1) (.raw w2 :: cells2)
  | ptr {val1 val2 : Val} {cells1 cells2 : List Cell} :
      SameType env val1 val2 → CellsAlike env cells1 cells2 →
        CellsAlike env (.ptr val1 :: cells1) (.ptr val2 :: cells2)

/-- The fields of two records of one type. -/
inductive FieldsAlike (env : Name → DataTy Name) :
    List (Field (List UInt8) Val) → List (Field (List UInt8) Val) → Prop where
  | nil : FieldsAlike env [] []
  | raw {data1 data2 : List UInt8} {fields1 fields2 : List (Field (List UInt8) Val)} :
      data1.length = data2.length → data2.length ∈ [1, 2, 4, 8] →
      FieldsAlike env fields1 fields2 →
        FieldsAlike env (.raw data1 :: fields1) (.raw data2 :: fields2)
  | boxed {val1 val2 : Val} {fields1 fields2 : List (Field (List UInt8) Val)} :
      SameType env val1 val2 → FieldsAlike env fields1 fields2 →
        FieldsAlike env (.boxed val1 :: fields1) (.boxed val2 :: fields2)

variable {fields1 fields2 : List (Field (List UInt8) Val)} {pending1 pending2 : List UInt8}

theorem FieldsAlike.of_types {tys : List (FieldTy Name)}
    (hmatch1 : List.Forall₂ FieldMatches tys fields1)
    (hmatch2 : List.Forall₂ FieldMatches tys fields2)
    (hboxed1 : ∀ ty val, (.boxed ty, .boxed val) ∈ tys.zip fields1 → HasType env ty val)
    (hboxed2 : ∀ ty val, (.boxed ty, .boxed val) ∈ tys.zip fields2 → HasType env ty val) :
    FieldsAlike env fields1 fields2 := by
  induction hmatch1 generalizing fields2 with
  | nil =>
    cases hmatch2
    exact .nil
  | @cons ty field1 tys fields1 hfield1 hmatch1 ih =>
    cases hmatch2 with
    | @cons _ field2 _ fields2 hfield2 hmatch2 =>
      have hrest : FieldsAlike env fields1 fields2 :=
        ih hmatch2 (fun ty val hmem => hboxed1 ty val (List.mem_cons_of_mem _ hmem))
          (fun ty val hmem => hboxed2 ty val (List.mem_cons_of_mem _ hmem))
      cases ty with
      | raw size =>
        cases field1 with
        | boxed val1 => cases hfield1
        | raw data1 =>
          cases field2 with
          | boxed val2 => cases hfield2
          | raw data2 =>
            apply FieldsAlike.raw (hfield1.1.trans hfield2.1.symm) _ hrest
            rw [hfield2.1]
            exact hfield2.2
      | boxed ty =>
        cases field1 with
        | raw data1 => cases hfield1
        | boxed val1 =>
          cases field2 with
          | raw data2 => cases hfield2
          | boxed val2 =>
            apply FieldsAlike.boxed _ hrest
            exact ⟨ty, hboxed1 ty val1 List.mem_cons_self,
              hboxed2 ty val2 List.mem_cons_self⟩

/-! ### Layouts of one shape -/

theorem CellsAlike.flush {pending1 pending2 : List UInt8} {cells1 cells2 : List Cell}
    (hlen : pending1.length = pending2.length) (h : CellsAlike env cells1 cells2) :
    CellsAlike env (ObjEqual.flush pending1 ++ cells1)
      (ObjEqual.flush pending2 ++ cells2) := by
  cases pending1 with
  | nil =>
    have hnil : pending2 = [] := List.eq_nil_of_length_eq_zero hlen.symm
    rw [hnil]
    exact h
  | cons b1 pending1 =>
    cases pending2 with
    | nil => cases hlen
    | cons b2 pending2 => exact .raw _ _ fun _ => h

theorem layout_raw (pending data : List UInt8) (fields : List (Field (List UInt8) Val)) :
    layout pending (.raw data :: fields) =
      if (padTo data.length pending ++ data).length ≤ wordSize then
        layout (padTo data.length pending ++ data) fields
      else
        .raw ((padTo data.length pending ++ data).take wordSize) ::
          layout ((padTo data.length pending ++ data).drop wordSize) fields :=
  rfl

theorem layout_alike (hfields : FieldsAlike env fields1 fields2)
    (hlen : pending1.length = pending2.length) :
    CellsAlike env (layout pending1 fields1) (layout pending2 fields2) := by
  induction hfields generalizing pending1 pending2 with
  | nil =>
    have hflush : CellsAlike env (flush pending1 ++ []) (flush pending2 ++ []) :=
      CellsAlike.flush hlen (.nilLeft [])
    rw [List.append_nil, List.append_nil] at hflush
    exact hflush
  | @raw data1 data2 fields1 fields2 hdata hsize hrest ih =>
    have hbytes : (padTo data1.length pending1 ++ data1).length =
        (padTo data2.length pending2 ++ data2).length := by
      rw [List.length_append, List.length_append, hdata,
        length_padTo data2.length pending1 pending2 hlen]
    rw [layout_raw, layout_raw, hbytes]
    split
    · exact ih hbytes
    · apply CellsAlike.raw
      intro _
      apply ih
      rw [List.length_drop, List.length_drop, hbytes]
  | @boxed val1 val2 fields1 fields2 hval hrest ih =>
    exact CellsAlike.flush hlen (.ptr hval (ih rfl))

theorem layout_injective (hfields : FieldsAlike env fields1 fields2)
    (hlen : pending1.length = pending2.length)
    (heq : layout pending1 fields1 = layout pending2 fields2) :
    pending1 = pending2 ∧ fields1 = fields2 := by
  induction hfields generalizing pending1 pending2 with
  | nil => exact ⟨flush_injective hlen heq, rfl⟩
  | @raw data1 data2 fields1 fields2 hdata hsize hrest ih =>
    have hpad : (padTo data1.length pending1).length =
        (padTo data2.length pending2).length := by
      rw [hdata, length_padTo data2.length pending1 pending2 hlen]
    have hbytes : (padTo data1.length pending1 ++ data1).length =
        (padTo data2.length pending2 ++ data2).length := by
      rw [List.length_append, List.length_append, hpad, hdata]
    have hsame : padTo data1.length pending1 ++ data1 =
        padTo data2.length pending2 ++ data2 ∧ fields1 = fields2 := by
      rw [layout_raw, layout_raw, hbytes] at heq
      split at heq
      · exact ih hbytes heq
      · injection heq with hword hcells
        injection hword with hword
        have hdrop := ih (by rw [List.length_drop, List.length_drop, hbytes]) hcells
        refine ⟨?_, hdrop.2⟩
        rw [← List.take_append_drop wordSize (padTo data1.length pending1 ++ data1),
          hword, hdrop.1, List.take_append_drop]
    obtain ⟨hpadding, hdatas⟩ := List.append_inj hsame.1 hpad
    rw [hdata] at hpadding
    exact ⟨padTo_injective hlen hpadding, by rw [hdatas, hsame.2]⟩
  | @boxed val1 val2 fields1 fields2 hval hrest ih =>
    obtain ⟨hflush, hcells⟩ := List.append_inj heq (flush_length _ _ hlen)
    injection hcells with hptr hcells
    injection hptr with hptr
    exact ⟨flush_injective hlen hflush, by rw [hptr, (ih rfl hcells).2]⟩

/-- The bytes that are pending come first in the next word. -/
theorem layout_prefix {pending : List UInt8} (hne : pending ≠ [])
    (hle : pending.length ≤ wordSize) {fields : List (Field (List UInt8) Val)}
    (hsizes : ∀ data, .raw data ∈ fields → data.length ∈ [1, 2, 4, 8]) :
    ∃ w cells, layout pending fields = .raw w :: cells ∧ pending <+: w := by
  induction fields generalizing pending with
  | nil =>
    cases pending with
    | nil => exact absurd rfl hne
    | cons b pending => exact ⟨_, [], rfl, prefix_padTo _ _⟩
  | cons field fields ih =>
    cases field with
    | boxed val =>
      cases pending with
      | nil => exact absurd rfl hne
      | cons b pending => exact ⟨_, _, rfl, prefix_padTo _ _⟩
    | raw data =>
      have hpending : pending <+: padTo data.length pending ++ data :=
        (prefix_padTo _ _).trans (List.prefix_append _ _)
      rw [layout_raw]
      split
      · rename_i hbytes
        obtain ⟨w, cells, hlayout, hprefix⟩ :=
          ih (by simp [padTo, hne]) hbytes
            fun data hmem => hsizes data (List.mem_cons_of_mem _ hmem)
        exact ⟨w, cells, hlayout, hpending.trans hprefix⟩
      · refine ⟨_, _, rfl, ?_⟩
        exact List.prefix_take_iff.mpr ⟨hpending, hle⟩

theorem layout_boxed (vals : List Val) :
    layout [] (vals.map .boxed) = vals.map .ptr := by
  induction vals with
  | nil => rfl
  | cons val vals ih =>
    rw [List.map_cons, layout, ih]
    rfl

/-! ### Values of one type -/

/-- What is known of two values of one type. -/
inductive Alike (env : Name → DataTy Name) : Val → Val → Prop where
  | nullLeft (val : Val) : Alike env .null val
  | nullRight (val : Val) : Alike env val .null
  | intinf (n1 n2 : Int) : Alike env (.intinf n1) (.intinf n2)
  | array (addr1 addr2 : Word) : Alike env (.array addr1) (.array addr2)
  | bytes {elems1 elems2 : List (List UInt8)} :
      (elems1.flatten = elems2.flatten → elems1 = elems2) →
        Alike env (.bytes elems1) (.bytes elems2)
  | block {fields1 fields2 : List (Field (List UInt8) Val)} :
      CellsAlike env (layout [] fields1) (layout [] fields2) →
      (layout [] fields1 = layout [] fields2 → fields1 = fields2) →
        Alike env (.block fields1) (.block fields2)

theorem Alike.of_fields (h : FieldsAlike env fields1 fields2) :
    Alike env (.block fields1) (.block fields2) :=
  .block (layout_alike h rfl) fun heq => (layout_injective h rfl heq).2

theorem cellsAlike_ptrs {vals1 vals2 : List Val} {elem : Ty Name}
    (h1 : ∀ val ∈ vals1, HasType env elem val)
    (h2 : ∀ val ∈ vals2, HasType env elem val) :
    CellsAlike env (vals1.map .ptr) (vals2.map .ptr) := by
  induction vals1 generalizing vals2 with
  | nil => exact .nilLeft _
  | cons val1 vals1 ih =>
    cases vals2 with
    | nil => exact .nilRight _
    | cons val2 vals2 =>
      exact .ptr ⟨elem, h1 val1 List.mem_cons_self, h2 val2 List.mem_cons_self⟩
        (ih (fun val hmem => h1 val (List.mem_cons_of_mem _ hmem))
          fun val hmem => h2 val (List.mem_cons_of_mem _ hmem))

theorem ptrs_injective {vals1 vals2 : List Val}
    (h : vals1.map Cell.ptr = vals2.map Cell.ptr) : vals1 = vals2 :=
  List.map_injective_iff.mpr (fun _ _ heq => by injection heq) h

theorem sizes_of_matches {tys : List (FieldTy Name)}
    {fields : List (Field (List UInt8) Val)}
    (h : List.Forall₂ FieldMatches tys fields) :
    ∀ data, .raw data ∈ fields → data.length ∈ [1, 2, 4, 8] := by
  intro data hmem
  induction h with
  | nil => cases hmem
  | @cons ty field tys fields hfield _ ih =>
    cases hmem with
    | tail _ hmem => exact ih hmem
    | head =>
      cases ty with
      | boxed ty => cases hfield
      | raw size =>
        rw [hfield.1]
        exact hfield.2

/-- Constructors with different tags differ in their first words. -/
theorem Alike.of_tags {tag1 tag2 : List UInt8} (hne : tag1 ≠ tag2)
    (hlen1 : tag1.length = 4) (hlen2 : tag2.length = 4)
    (hsizes1 : ∀ data, .raw data ∈ fields1 → data.length ∈ [1, 2, 4, 8])
    (hsizes2 : ∀ data, .raw data ∈ fields2 → data.length ∈ [1, 2, 4, 8]) :
    Alike env (.block (.raw tag1 :: fields1)) (.block (.raw tag2 :: fields2)) := by
  have hfirst : ∀ {tag : List UInt8} {fields : List (Field (List UInt8) Val)},
      tag.length = 4 → (∀ data, .raw data ∈ fields → data.length ∈ [1, 2, 4, 8]) →
      ∃ w cells, layout [] (.raw tag :: fields) = .raw w :: cells ∧ tag <+: w := by
    intro tag fields hlen hsizes
    have hlayout : layout [] (.raw tag :: fields) = layout tag fields := by
      rw [layout_raw]
      simp [padTo, wordSize, hlen]
    rw [hlayout]
    apply layout_prefix _ (by rw [hlen]; decide) hsizes
    rintro rfl
    cases hlen
  obtain ⟨w1, cells1, hlayout1, hprefix1⟩ := hfirst hlen1 hsizes1
  obtain ⟨w2, cells2, hlayout2, hprefix2⟩ := hfirst hlen2 hsizes2
  have hwords : w1 ≠ w2 := by
    rintro rfl
    have htags := List.prefix_of_prefix_length_le hprefix1 hprefix2 (by omega)
    exact hne (htags.eq_of_length (by omega))
  apply Alike.block
  · rw [hlayout1, hlayout2]
    exact .raw w1 w2 fun heq => absurd heq hwords
  · rw [hlayout1, hlayout2]
    intro heq
    injection heq with hcell
    injection hcell with hword
    exact absurd hword hwords

theorem length_string_elems (chars : List UInt8) :
    ∀ elem ∈ chars.map (fun c => [c]) ++ [[0]], elem.length = 1 := by
  intro elem hmem
  rcases List.mem_append.mp hmem with hmem | hmem
  · obtain ⟨c, -, rfl⟩ := List.mem_map.mp hmem
    rfl
  · rw [List.mem_singleton.mp hmem]
    rfl

theorem Alike.of_types {ty : Ty Name} {val1 val2 : Val} (h1 : HasType env ty val1)
    (h2 : HasType env ty val2) : Alike env val1 val2 := by
  induction h1 generalizing val2 with
  | intInf n =>
    cases h2
    exact .intinf _ _
  | array addr =>
    cases h2
    exact .array _ _
  | string chars =>
    cases h2
    apply Alike.bytes
    exact flatten_injective (by decide) (length_string_elems _) (length_string_elems _)
  | bytes hsize helems =>
    cases h2 with
    | bytes _ helems2 => exact .bytes (flatten_injective hsize helems helems2)
  | vector hvals _ =>
    cases h2 with
    | vector hvals2 =>
      apply Alike.block
      · rw [layout_boxed, layout_boxed]
        exact cellsAlike_ptrs hvals hvals2
      · rw [layout_boxed, layout_boxed]
        intro heq
        rw [ptrs_injective heq]
  | record hmatch hboxed _ =>
    cases h2 with
    | record hmatch2 hboxed2 =>
      exact .of_fields (.of_types hmatch hmatch2 hboxed hboxed2)
  | @con name hasNull con tag tys fields henv hcon htag hmatch hboxed _ =>
    cases h2 with
    | @con _ _ con2 tag2 tys2 _ henv2 hcon2 htag2 hmatch2 hboxed2 =>
      have hcons : con = con2 := by
        rw [henv] at henv2
        injection henv2
      by_cases htags : tag = tag2
      · have htys : tys = tys2 := by
          rw [← hcons, ← htags, hcon] at hcon2
          injection hcon2
        subst htys
        apply Alike.of_fields
        apply FieldsAlike.raw (htag.trans htag2.symm)
        · rw [htag2]
          decide
        · exact .of_types hmatch hmatch2 hboxed hboxed2
      · exact .of_tags htags htag htag2 (sizes_of_matches hmatch)
          (sizes_of_matches hmatch2)
    | nullCon => exact .nullRight _
    | singleArg henv2 =>
      rw [henv] at henv2
      cases henv2
    | null => exact .nullRight _
    | arg henv2 =>
      rw [henv] at henv2
      cases henv2
  | nullCon => exact .nullLeft _
  | singleArg henv hval ih =>
    cases h2 with
    | con henv2 =>
      rw [henv] at henv2
      cases henv2
    | nullCon => exact .nullRight _
    | singleArg henv2 hval2 =>
      rw [henv] at henv2
      cases henv2
      exact ih hval2
    | null => exact .nullRight _
    | arg henv2 =>
      rw [henv] at henv2
      cases henv2
  | null => exact .nullLeft _
  | arg henv hval hne ih =>
    cases h2 with
    | con henv2 =>
      rw [henv] at henv2
      cases henv2
    | nullCon => exact .nullRight _
    | singleArg henv2 =>
      rw [henv] at henv2
      cases henv2
    | null => exact .nullRight _
    | arg henv2 hval2 =>
      rw [henv] at henv2
      cases henv2
      exact ih hval2

theorem SameType.alike {val1 val2 : Val} (h : SameType env val1 val2) :
    Alike env val1 val2 := by
  obtain ⟨ty, h1, h2⟩ := h
  exact .of_types h1 h2

end ObjEqual

end SmlSharp
