/-
A record whose bitmap never takes more than two words before a shift is laid
out as it should be: under every valuation of its sizes and tags, and in the
same way as the constant record that the valuation makes of it.
-/
import SmlSharp.RecordLayout.Record

namespace SmlSharp

namespace RecordLayout

/-- A field under a valuation. -/
structure FieldValue where
  size : Nat
  tag : Word32
deriving DecidableEq, Repr

def Field.eval (env : Env) (field : Field) : FieldValue :=
  ⟨(field.size.eval env).toNat, field.tag.eval env⟩

/-- Sizes are sizes of types, tags are bits, and only pointers have the tag 1. -/
structure FieldValue.Legal (target : Target) (field : FieldValue) : Prop where
  size : IsSize field.size
  tag : field.tag = 0 ∨ field.tag = 1
  pointer : field.tag = 1 → field.size = target.pointerSize

/-- A computed record, under a valuation. -/
structure RecordValue where
  allocSize : Nat
  fieldIndexes : List Nat
  bitmaps : List (Nat × Word32)
  padding : Bool
deriving DecidableEq, Repr

/-- The computed record in the environment after its declarations, if all of them are
defined. -/
def evalRecord (target : Target) (acc : Accum) (env : Env) (fields : List Field) :
    Option RecordValue :=
  let record := computeRecord target acc fields
  (record.2.run env).map fun env =>
    { allocSize := (record.1.allocSize.eval env).toNat
      fieldIndexes := record.1.fieldIndexes.map fun index => (index.eval env).toNat
      bitmaps := record.1.bitmaps.map fun word =>
        ((word.index.eval env).toNat, word.bitmap.eval env)
      padding := record.1.padding }

def evalIndex (acc : Accum) (env : Env) (fields : List Value) (lastField : Value) :
    Option Nat :=
  let index := computeIndex acc fields lastField
  (index.2.run env).map fun env => (index.1.eval env).toNat

/-- Every variable of the fields was made before the bound. -/
def FieldsKnown (bound : Nat) (fields : List Field) : Prop :=
  ∀ field ∈ fields, field.tag.Known bound ∧ field.size.Known bound

/-- What a computation of a record is given: an accumulator, fields that were made
before, and a valuation that makes them legal and the declarations made before defined. -/
structure Valued (target : Target) (acc : Accum) (env : Env) (fields : List Field) :
    Prop where
  ok : acc.Ok
  known : FieldsKnown acc.next fields
  legal : ∀ field ∈ fields, (field.eval (acc.env env)).Legal target
  runs : acc.Runs env

section Spec

variable {target : Target} {acc : Accum} {env : Env} {fields : List Field}

/-- The sizes of the fields under the valuation. -/
def fieldSizes (acc : Accum) (env : Env) (fields : List Field) : List Nat :=
  fields.map fun field => numberIn acc env field.size

theorem fieldSizes_reverse (acc : Accum) (env : Env) (fields : List Field) :
    ((fields.map Field.size).reverse.map (numberIn acc env)) =
      (fieldSizes acc env fields).reverse := by
  rw [fieldSizes, List.map_reverse, List.map_map]
  rfl

theorem endFrom_fieldSizes (acc : Accum) (env : Env) (fields : List Field) :
    endRev ((fields.map Field.size).reverse.map (numberIn acc env)) =
      endFrom 0 (fieldSizes acc env fields) := by
  have heq := endFrom_endRev [] (fieldSizes acc env fields)
  rw [List.append_nil] at heq
  rw [fieldSizes_reverse]
  exact heq.symm

theorem agrees_word (acc : Accum) (env : Env) (value : Value) :
    Agrees value.word? (numberIn acc env value) := by
  intro number hnumber
  cases value with
  | var x => exact absurd hnumber (by simp [Value.word?])
  | word n => exact (Option.some.inj hnumber).symm

theorem Valued.isSize (hvalued : Valued target acc env fields) :
    ∀ field ∈ fields, IsSize (numberIn acc env field.size) :=
  fun field hfield => (hvalued.legal field hfield).size

theorem Valued.sizes (hvalued : Valued target acc env fields) :
    Sizes acc env (numberIn acc env) (fields.map Field.size).reverse where
  known := by
    intro size hsize
    obtain ⟨field, hfield, rfl⟩ := List.mem_map.mp (List.mem_reverse.mp hsize)
    exact (hvalued.known field hfield).2
  eval := fun _ _ => rfl
  legal := by
    intro size hsize
    obtain ⟨field, hfield, rfl⟩ := List.mem_map.mp (List.mem_reverse.mp hsize)
    exact hvalued.isSize field hfield

theorem Valued.endFrom_le (hvalued : Valued target acc env fields)
    (hfew : WithinTwoWords (fieldWidths target (fields.map Field.size))) :
    endFrom 0 (fieldSizes acc env fields) ≤ 1024 := by
  have hle := endFrom_le_of_withinTwoWords (numberIn acc env) hfew
    (fun value _ => agrees_word acc env value) (by
      intro value hvalue
      obtain ⟨field, hfield, rfl⟩ := List.mem_map.mp hvalue
      exact hvalued.isSize field hfield)
  rw [List.map_map] at hle
  exact hle

theorem Valued.fieldWidths_le (hvalued : Valued target acc env fields)
    (hfew : WithinTwoWords (fieldWidths target (fields.map Field.size))) :
    (fieldWidths target (fields.map Field.size)).sum ≤ 66 :=
  fieldWidths_sum_le (numberIn acc env) hfew
    (fun value _ => agrees_word acc env value) (by
      intro value hvalue
      obtain ⟨field, hfield, rfl⟩ := List.mem_map.mp hvalue
      exact hvalued.isSize field hfield)

/-- Where the record ends and its bitmap starts. -/
def bitmapStart (target : Target) (acc : Accum) (env : Env) (fields : List Field) :
    Nat :=
  alignUp (endFrom 0 (fieldSizes acc env fields)) target.pointerSize

/-- The bitmap as a string of bits, with the number of bits it was built for. -/
structure BitmapSpec (target : Target) (acc : Accum) (env : Env)
    (fields : List Field) (numBits : Nat) (words : List Word32) : Prop where
  bits : ∀ i, BitWords.bitAt words i = true ↔
    ∃ entry ∈ (fields.map (Field.eval (acc.env env))).zip
        (layoutFrom 0 (fieldSizes acc env fields)),
      entry.1.tag = 1 ∧ entry.2 / target.pointerSize = i
  le : bitmapStart target acc env fields / target.pointerSize ≤ numBits
  exact : (∀ field ∈ fields, field.size.IsWord) →
    numBits = bitmapStart target acc env fields / target.pointerSize
  small : numBits ≤ 66
  bits_le : numBits ≤ 32 * words.length
  lt_bits : numBits = 0 ∧ words = [] ∨ 32 * (words.length - 1) < numBits

/-- `CarriesDefined`, of the widths, positions and tags of a record. -/
def RecordCarries (target : Target) (acc : Accum) (env : Env) (fields : List Field) :
    Prop :=
  CarriesDefined target (fieldWidths target (fields.map Field.size))
    (layoutFrom 0 (fieldSizes acc env fields)) (fields.map Field.tag)

instance (target : Target) (acc : Accum) (env : Env) (fields : List Field) :
    Decidable (RecordCarries target acc env fields) :=
  decidableCarriesDefined target _ _ _

/-- What `computeRecord` computes. -/
structure RecordSpec (target : Target) (acc : Accum) (env : Env)
    (fields : List Field) (numBits : Nat) (words : List Word32)
    (result : ComputedRecord × Accum) : Prop where
  ext : Extends acc result.2
  fieldIndexes : result.1.fieldIndexes.map (numberIn result.2 env) =
    layoutFrom 0 (fieldSizes acc env fields)
  indexes : result.1.bitmaps.map (fun word => numberIn result.2 env word.index) =
    (List.range words.length).map fun i =>
      bitmapStart target acc env fields + bitmapWordSize * i
  bitmaps : result.1.bitmaps.map (fun word => word.bitmap.eval (result.2.env env)) =
    words
  allocSize : numberIn result.2 env result.1.allocSize =
    bitmapStart target acc env fields + bitmapWordSize * words.length
  bitmap : BitmapSpec target acc env fields numBits words
  noGap : result.1.padding = false →
    NoGap (fieldSizes acc env fields).reverse ∧
      bitmapStart target acc env fields = endFrom 0 (fieldSizes acc env fields)
  padded : (∀ field ∈ fields, field.size.IsWord) →
    NoGap (fieldSizes acc env fields).reverse →
      bitmapStart target acc env fields = endFrom 0 (fieldSizes acc env fields) →
        result.1.padding = false
  runs : RecordCarries target acc env fields → result.2.Runs env

/-- Where all positions are constants, the widths add up to the whole record. -/
theorem totalBits_words {acc' : Accum} {number : Value → Nat} {finish : Value}
    (source : BitSource) (sources : List BitSource) {bits : List Bit}
    (hwidths : Widths target acc' env number finish (source :: sources) bits)
    (hpositions : PositionsOk target acc env number finish (source :: sources))
    (hwords : ∀ value ∈ source :: sources, value.index.IsWord)
    (hfinish : finish.IsWord) :
    bitIndexOf target number source.index + totalBits target bits =
      bitIndexOf target number finish := by
  have hexact : ∀ {low high bitWidth : Value} {last : Prop},
      WidthOk target acc' env number low high last bitWidth →
        Positions target acc env number low high → low.IsWord → high.IsWord →
          estimateMaxShift target bitWidth =
            bitIndexOf target number high - bitIndexOf target number low := by
    intro low high bitWidth last hwidth hpos hlow hhigh
    have hmax := hpos.width
    have hle := target.maxShift_le
    rw [hwidth.words hlow hhigh]
    show (BitVec.ofNat 32 _).toNat = _
    rw [BitVec.toNat_ofNat]
    apply Nat.mod_eq_of_lt
    omega
  induction sources generalizing source bits with
  | nil =>
    obtain ⟨bit, rfl, -, hwidth⟩ := hwidths.single
    have hpos := hpositions.1
    have hle := hpos.le
    have heq := hexact hwidth hpos (hwords source List.mem_cons_self) hfinish
    simp only [nextPosition] at hle heq
    simp only [totalBits, List.map_cons, List.map_nil, List.sum_cons, List.sum_nil, heq]
    omega
  | cons next sources ih =>
    obtain ⟨bit, bits, rfl, -, hwidth, hrest⟩ := hwidths.cons
    have hpos := hpositions.1
    have hle := hpos.le
    have htail : ∀ value ∈ next :: sources, value.index.IsWord := fun value hvalue =>
      hwords value (List.mem_cons_of_mem source hvalue)
    have heq := hexact hwidth hpos (hwords source List.mem_cons_self)
      (htail next List.mem_cons_self)
    have hsum := ih next hrest hpositions.2 htail
    simp only [nextPosition] at hle heq
    simp only [totalBits, List.map_cons, List.sum_cons, heq] at hsum ⊢
    omega

theorem SourcesOk.words {base : Nat} {before : List Value} {sources : List BitSource}
    {number : Value → Nat}
    (hsources : SourcesOk acc base env number before fields sources)
    (hwords : ∀ field ∈ fields, field.size.IsWord)
    (hbefore : ∀ value ∈ before, value.IsWord) :
    ∀ source ∈ sources, source.index.IsWord := by
  induction hsources using SourcesOk.induction with
  | nil => exact fun source hsource => absurd hsource List.not_mem_nil
  | cons before field fields source sources hsources ih =>
    obtain ⟨⟨-, -, hword⟩, -⟩ := hsources
    have hall : ∀ value ∈ field.size :: before, value.IsWord := by
      intro value hvalue
      rcases List.mem_cons.mp hvalue with rfl | hvalue
      · exact hwords field List.mem_cons_self
      · exact hbefore value hvalue
    intro value hvalue
    rcases List.mem_cons.mp hvalue with rfl | hvalue
    · exact hword hall
    · exact ih (fun other hother =>
        hwords other (List.mem_cons_of_mem field hother)) hall value hvalue

theorem SourcesOk.mem {base : Nat} {before : List Value} {sources : List BitSource}
    {number : Value → Nat}
    (hsources : SourcesOk acc base env number before fields sources) :
    ∀ source ∈ sources, source.index.Known acc.next ∧
      ∃ field ∈ fields, source.tag = field.tag := by
  induction hsources using SourcesOk.induction with
  | nil => exact fun source hsource => absurd hsource List.not_mem_nil
  | cons before field fields source sources hsources ih =>
    obtain ⟨⟨htag, hindex, -⟩, -⟩ := hsources
    intro value hvalue
    rcases List.mem_cons.mp hvalue with rfl | hvalue
    · exact ⟨hindex.known, field, List.mem_cons_self, htag⟩
    · obtain ⟨hknown, other, hother, heq⟩ := ih value hvalue
      exact ⟨hknown, other, List.mem_cons_of_mem field hother, heq⟩

/-- The bitmap of the fields, once they are laid out. -/
theorem recordBitmap_spec {acc1 : Accum} {sources : List BitSource} {finish : Value}
    (hvalued : Valued target acc env fields)
    (hfew : WithinTwoWords (fieldWidths target (fields.map Field.size)))
    (hext : Extends acc acc1)
    (hsources : SourcesOk acc1 acc.next env (numberIn acc env) [] fields sources)
    (hfinish : Names acc1 acc.next env finish (bitmapStart target acc env fields))
    (hfinishWord : (∀ field ∈ fields, field.size.IsWord) → finish.IsWord)
    (hlast : ∀ last ∈ sources.getLast?, last.accumSize = finish) :
    let bits := computeBitIndex target acc1 sources
    let bitmap := computeRecordBitmap target bits.2 bits.1.2
    ∃ words base, Extends acc1 bitmap.2 ∧
      WordsOk bitmap.2 base env bitmap.1.words words ∧
      BitmapSpec target acc env fields bitmap.1.maxNumBits words ∧
      (acc1.Runs env → RecordCarries target acc env fields → bitmap.2.Runs env) := by
  intro bits bitmap
  have hlegal := hvalued.isSize
  have hfinish' : Names acc1 acc.next env finish (alignUp
      (endRev (((fields.map Field.size).reverse ++ []).map (numberIn acc env)))
      target.pointerSize) := by
    rw [List.append_nil, endFrom_fieldSizes]
    exact hfinish
  have hfinishNumber : numberIn acc1 env finish = bitmapStart target acc env fields :=
    hfinish.eval
  have hpositions := hsources.positions hlegal hfinish'
  have hlastLt := hsources.last_lt hlegal hfinish'
  obtain ⟨hindexes, htags⟩ := hsources.indexes
  cases hcase : sources with
  | nil =>
    subst hcase
    have hnil : fields = [] := by
      cases fields with
      | nil => rfl
      | cons field fields => exact absurd hsources id
    subst hnil
    have hzero : bitmapStart target acc env [] = 0 :=
      alignUp_of_dvd target.pos (Nat.dvd_zero _)
    refine ⟨[], 0, Extends.refl hext.ok, WordsOk.nil _ _ _, ?_, fun hruns _ => hruns⟩
    exact {
      bits := by
        intro i
        simp [BitWords.bitAt]
      le := by rw [hzero, Nat.zero_div]; exact Nat.zero_le _
      exact := by
        intro _
        rw [hzero, Nat.zero_div]
        rfl
      small := Nat.zero_le _
      bits_le := Nat.le_refl 0
      lt_bits := Or.inl ⟨rfl, rfl⟩ }
  | cons source rest =>
    subst hcase
    have hbit := computeBitIndex_spec hext.ok source rest hpositions hlast
    have hknown : EndKnown (numberIn acc env) (some 0) [] := by
      intro value hvalue
      exact ⟨fun size hsize => absurd hsize List.not_mem_nil,
        (Option.some.inj hvalue).symm⟩
    have hfinishWord' : (∀ value ∈ (fields.map Field.size).reverse ++ [],
        value.IsWord) → finish.IsWord := by
      intro hall
      refine hfinishWord fun field hfield => hall field.size ?_
      rw [List.append_nil, List.mem_reverse]
      exact List.mem_map_of_mem hfield
    have hestimates := hsources.estimates hbit.widths hfinish' hfinishWord' hknown
      (fun field _ => agrees_word acc env field.size)
    have hshifts := shiftsOk_of_withinTwoWords hestimates hfew
    have hextBits := hext.trans hbit.ext
    have htagEval : ∀ value ∈ source :: rest,
        value.tag.Known acc.next ∧
          value.tag.eval (bits.2.env env) = value.tag.eval (acc.env env) := by
      intro value hvalue
      obtain ⟨_, field, hfield, htag⟩ := hsources.mem value hvalue
      have htagKnown := (hvalued.known field hfield).1
      rw [← htag] at htagKnown
      exact ⟨htagKnown, hextBits.eval htagKnown env⟩
    have htagsOk : TagsOk bits.2 env (source :: rest) := by
      intro value hvalue
      obtain ⟨htagKnown, heval⟩ := htagEval value hvalue
      obtain ⟨_, field, hfield, htag⟩ := hsources.mem value hvalue
      refine ⟨hextBits.known htagKnown, ?_⟩
      rw [heval, htag]
      exact (hvalued.legal field hfield).tag
    obtain ⟨words, hspec⟩ := computeRecordBitmap_spec hbit.ext.ok source rest bits.1.2
      hbit.widths (hpositions.extend hbit.ext) htagsOk hlastLt hshifts
    have hfirst : bitIndexOf target (numberIn acc1 env) source.index = 0 := by
      have hstart := hindexes
      cases fields with
      | nil => exact absurd hsources id
      | cons field fields =>
        have hzero : numberIn acc1 env source.index = 0 :=
          hsources.1.2.1.eval.trans (alignUp_of_dvd
            (hlegal field List.mem_cons_self).pos (Nat.dvd_zero _))
        rw [bitIndexOf, hzero, Nat.zero_div]
    have hfinishBits : bitIndexOf target (numberIn acc1 env) finish =
        bitmapStart target acc env fields / target.pointerSize := by
      rw [bitIndexOf, hfinishNumber]
    have hentries : (source :: rest).map (fun value =>
          (value.tag.eval (acc.env env), numberIn acc1 env value.index)) =
        ((fields.map (Field.eval (acc.env env))).zip
          (layoutFrom 0 (fieldSizes acc env fields))).map
            fun entry => (entry.1.tag, entry.2) := by
      have htagList : (source :: rest).map (fun value =>
          value.tag.eval (acc.env env)) =
          fields.map fun field => field.tag.eval (acc.env env) := by
        have hmap := congrArg (List.map (Value.eval (acc.env env))) htags
        rw [List.map_map, List.map_map] at hmap
        exact hmap
      have hindexList : (source :: rest).map (fun value =>
          numberIn acc1 env value.index) =
          layoutFrom 0 (fieldSizes acc env fields) := hindexes
      rw [← List.zip_map', htagList, hindexList]
      have hzip : ((fields.map (Field.eval (acc.env env))).map FieldValue.tag).zip
          (layoutFrom 0 (fieldSizes acc env fields)) =
          ((fields.map (Field.eval (acc.env env))).zip
            (layoutFrom 0 (fieldSizes acc env fields))).map
              (Prod.map FieldValue.tag id) := List.zip_map_left
      rw [List.map_map] at hzip
      exact hzip
    refine ⟨words, _, hbit.ext.trans hspec.ext, hspec.ok.wordsOk, ?_, fun hruns hcarries =>
      hspec.runs (computeBitIndex_runs hruns _)
        (carriesOk_of_carriesDefined hbit.widths hestimates ?_)⟩
    rotate_left
    · rw [htags, show (source :: rest).map (fun value => numberIn acc1 env value.index) =
        layoutFrom 0 (fieldSizes acc env fields) from hindexes]
      exact hcarries
    exact {
      bits := by
        intro i
        rw [hspec.bits i, hfirst, Nat.zero_add]
        constructor
        · rintro ⟨value, hvalue, htag, hindex⟩
          rw [(htagEval value hvalue).2] at htag
          have hmem := List.mem_map_of_mem (f := fun value : BitSource =>
            (value.tag.eval (acc.env env), numberIn acc1 env value.index)) hvalue
          rw [hentries] at hmem
          obtain ⟨entry, hentry, heq⟩ := List.mem_map.mp hmem
          obtain ⟨hentryTag, hentryIndex⟩ := Prod.mk.inj heq
          refine ⟨entry, hentry, hentryTag.trans htag, ?_⟩
          rw [hentryIndex]
          exact hindex
        · rintro ⟨entry, hentry, htag, hindex⟩
          have hmem := List.mem_map_of_mem (f := fun entry : FieldValue × Nat =>
            (entry.1.tag, entry.2)) hentry
          rw [← hentries] at hmem
          obtain ⟨value, hvalue, heq⟩ := List.mem_map.mp hmem
          obtain ⟨hvalueTag, hvalueIndex⟩ := Prod.mk.inj heq
          refine ⟨value, hvalue, ?_, ?_⟩
          · rw [(htagEval value hvalue).2, hvalueTag, htag]
          · rw [bitIndexOf, hvalueIndex, hindex]
      le := by
        have hle := hspec.finish_le
        rw [hfirst, hfinishBits, Nat.zero_add] at hle
        exact hle
      exact := by
        intro hall
        have hexact := totalBits_words source rest hbit.widths hpositions
          (hsources.words hall fun value hvalue => absurd hvalue List.not_mem_nil)
          (hfinishWord hall)
        rw [hfirst, hfinishBits, Nat.zero_add] at hexact
        exact hspec.maxNumBits.trans hexact
      small := by
        have hle := totalBits_le hestimates
        have hsum := hvalued.fieldWidths_le hfew
        have hbits := hspec.maxNumBits
        unfold fieldWidths at hsum
        exact hbits.trans_le (Nat.le_trans hle hsum)
      bits_le := hspec.ok.bits_le
      lt_bits := Or.inr hspec.ok.lt_bits }

theorem getLast?_bitSources {fields : List Field} {layout : List FieldLayout}
    (hlength : fields.length = layout.length) :
    ∀ last ∈ (bitSources fields layout).getLast?,
      ∃ field ∈ layout.getLast?, last.accumSize = field.accumSize := by
  induction fields generalizing layout with
  | nil => exact fun last hlast => nomatch hlast
  | cons field fields ih =>
    cases layout with
    | nil => simp at hlength
    | cons first layout =>
      have hrest := Nat.succ.inj hlength
      cases fields with
      | nil =>
        cases layout with
        | cons second layout => simp at hrest
        | nil =>
          intro last hlast
          have heq := Option.some.inj hlast
          refine ⟨first, rfl, ?_⟩
          rw [← heq]
          rfl
      | cons next fields =>
        cases layout with
        | nil => simp at hrest
        | cons second layout =>
          intro last hlast
          exact ih hrest last hlast

theorem bitSources_index {fields : List Field} {layout : List FieldLayout}
    (hlength : fields.length = layout.length) :
    (bitSources fields layout).map BitSource.index =
      layout.map FieldLayout.fieldIndex := by
  induction fields generalizing layout with
  | nil =>
    have hnil : layout = [] := List.length_eq_zero_iff.mp hlength.symm
    subst hnil
    rfl
  | cons field fields ih =>
    cases layout with
    | nil => simp at hlength
    | cons first layout => exact congrArg _ (ih (Nat.succ.inj hlength))

/-- The record that `computeRecord` computes, with all its values. -/
theorem computeRecord_spec (hvalued : Valued target acc env fields)
    (hfew : WithinTwoWords (fieldWidths target (fields.map Field.size))) :
    ∃ numBits words, RecordSpec target acc env fields numBits words
      (computeRecord target acc fields) := by
  have hsmall := hvalued.endFrom_le hfew
  have hend := endFrom_fieldSizes acc env fields
  have hlayout := computeLayoutRev_spec hvalued.ok hvalued.sizes (by rw [hend]; omega)
  have hpointer : target.pointerSize ≤ 8 := by
    rcases target.supported with heq | heq <;> omega
  unfold computeRecord
  dsimp only
  have hlayoutRuns := computeLayoutRev_runs hvalued.runs (fields.map Field.size).reverse
  generalize computeLayoutRev acc (fields.map Field.size).reverse = layoutRev at *
  have haligned := alignAccumSizeRev_spec target hlayout.ext.ok hlayout.ext.le
    hlayout.laid (by rw [hend]; omega)
  have halignedRuns := alignAccumSizeRev_runs target hlayoutRuns layoutRev.1.2
  generalize alignAccumSizeRev target layoutRev.2 layoutRev.1.2 = alignedRev at *
  have hext1 := hlayout.ext.trans haligned.ext
  have hlaid := hlayout.laid.extend haligned.ext
  have hlengthRev := hlaid.length_eq
  have hlengthAligned := congrArg List.length haligned.indexes
  simp only [List.length_map, List.length_reverse] at hlengthRev hlengthAligned
  have hlength : fields.length = alignedRev.1.2.reverse.length := by
    rw [List.length_reverse]
    omega
  have hindexes : alignedRev.1.2.reverse.map FieldLayout.fieldIndex =
      layoutRev.1.2.reverse.map FieldLayout.fieldIndex := by
    rw [List.map_reverse, List.map_reverse, haligned.indexes]
  have hforward : LaidOutFrom alignedRev.2 acc.next env (numberIn acc env) []
      (fields.map Field.size) layoutRev.1.2.reverse := by
    have hreversed : LaidOut alignedRev.2 acc.next env (numberIn acc env)
        ((fields.map Field.size).reverse ++ [])
        (layoutRev.1.2.reverse.reverse ++ []) := by
      rw [List.append_nil, List.append_nil, List.reverse_reverse]
      exact hlaid
    refine (hreversed.forward ?_).1
    rw [List.length_map, List.length_reverse]
    exact hlengthRev
  have hsources := hforward.sources hindexes
  have hfinish : Names alignedRev.2 acc.next env (getAccumSizeRev alignedRev.1.2)
      (bitmapStart target acc env fields) := by
    have hnames := haligned.finish
    rw [hend] at hnames
    exact hnames
  have hsizeWords : (∀ field ∈ fields, field.size.IsWord) →
      ∀ value ∈ (fields.map Field.size).reverse, value.IsWord := by
    intro hall value hvalue
    obtain ⟨field, hfield, rfl⟩ := List.mem_map.mp (List.mem_reverse.mp hvalue)
    exact hall field hfield
  have hlast : ∀ last ∈ (bitSources fields alignedRev.1.2.reverse).getLast?,
      last.accumSize = getAccumSizeRev alignedRev.1.2 := by
    intro last hlast
    obtain ⟨field, hfield, heq⟩ := getLast?_bitSources hlength last hlast
    rw [List.getLast?_reverse] at hfield
    rw [heq]
    cases hcase : alignedRev.1.2 with
    | nil =>
      rw [hcase] at hfield
      exact absurd hfield (by simp)
    | cons first others =>
      rw [hcase] at hfield
      rw [Option.some.inj hfield]
      rfl
  obtain ⟨words, base, hextBitmap, hwordsOk, hbitmap, hbitmapRuns⟩ := recordBitmap_spec hvalued hfew
    hext1 hsources hfinish (fun hall => haligned.words (hsizeWords hall)) hlast
  generalize computeBitIndex target alignedRev.2
    (bitSources fields alignedRev.1.2.reverse) = bits at *
  generalize computeRecordBitmap target bits.2 bits.1.2 = bitmap at *
  have hfit : bitmapStart target acc env fields + bitmapWordSize * words.length <
      2 ^ 32 := by
    have hlt := alignUp_lt target.pos (endFrom 0 (fieldSizes acc env fields))
    have hfewBits := hbitmap.small
    have hwordCount : words.length ≤ 3 := by
      rcases hbitmap.lt_bits with ⟨_, hnil⟩ | hlt
      · rw [hnil]
        exact Nat.zero_le _
      · omega
    unfold bitmapStart bitmapWordSize
    omega
  have hwords := computeBitmapIndexes_spec hextBitmap.ok
    (hextBitmap.known hfinish.known)
    (by rw [hextBitmap.eval hfinish.known, hfinish.eval]) hwordsOk hfit
  have hbitmapsRuns : bitmap.2.Runs env → (computeBitmapIndexes bitmap.2
      (getAccumSizeRev alignedRev.1.2) bitmap.1.words).2.Runs env :=
    fun hruns => computeBitmapIndexes_runs hruns _ _
  generalize computeBitmapIndexes bitmap.2 (getAccumSizeRev alignedRev.1.2)
    bitmap.1.words = bitmaps at *
  have hext2 := hextBitmap.trans hwords.ext
  refine ⟨bitmap.1.maxNumBits, words, ?_⟩
  exact {
    ext := hext1.trans hext2
    fieldIndexes := by
      have hlist := (hsources.extend hext2).indexes.1
      rw [← bitSources_index hlength, List.map_map]
      exact hlist
    indexes := hwords.indexes
    bitmaps := hwords.bitmaps
    allocSize := hwords.total
    bitmap := hbitmap
    noGap := by
      intro hpadding
      obtain ⟨hpadded, hpadded2⟩ := Bool.or_eq_false_iff.mp hpadding
      have hgap := hlayout.noGap hpadded
      have haligned2 := haligned.noGap hpadded2
      rw [fieldSizes_reverse] at hgap
      rw [hend] at haligned2
      exact ⟨hgap, haligned2⟩
    padded := by
      intro hall hgap hstart
      apply Bool.or_eq_false_iff.mpr
      constructor
      · apply hlayout.padded (hsizeWords hall)
        rw [fieldSizes_reverse]
        exact hgap
      · apply haligned.padded (hsizeWords hall)
        rw [hend]
        exact hstart
    runs := fun hcarries => hbitmapsRuns (hbitmapRuns halignedRuns hcarries) }

end Spec

/-! ## What makes a record right -/

/-- The fields are aligned and apart, the bitmap words follow from `start` on,
the bitmap marks exactly the fields with the tag 1, and a record without padding
has no gap. -/
structure WellLaid (target : Target) (fields : List FieldValue) (start : Nat)
    (record : RecordValue) : Prop where
  length : record.fieldIndexes.length = fields.length
  aligned : ∀ entry ∈ fields.zip record.fieldIndexes, entry.1.size ∣ entry.2
  disjoint : (fields.zip record.fieldIndexes).Pairwise
    fun low high => low.2 + low.1.size ≤ high.2
  before : ∀ entry ∈ fields.zip record.fieldIndexes, entry.2 + entry.1.size ≤ start
  pointerAligned : target.pointerSize ∣ start
  words : record.bitmaps.map Prod.fst =
    (List.range record.bitmaps.length).map fun i => start + bitmapWordSize * i
  allocSize : record.allocSize = start + bitmapWordSize * record.bitmaps.length
  bits : ∀ i, BitWords.bitAt (record.bitmaps.map Prod.snd) i = true ↔
    ∃ entry ∈ fields.zip record.fieldIndexes,
      entry.1.tag = 1 ∧ entry.2 = target.pointerSize * i
  noGap : record.padding = false → record.fieldIndexes ++ [start] =
    (fields.map FieldValue.size).scanl (· + ·) 0

/-- A record is laid out as another one, but for bitmap words that are zero. -/
structure SameLayout (record constant : RecordValue) : Prop where
  fieldIndexes : record.fieldIndexes = constant.fieldIndexes
  length : constant.bitmaps.length ≤ record.bitmaps.length
  indexes : (record.bitmaps.map Prod.fst).take constant.bitmaps.length =
    constant.bitmaps.map Prod.fst
  bitmaps : record.bitmaps.map Prod.snd = constant.bitmaps.map Prod.snd ++
    List.replicate (record.bitmaps.length - constant.bitmaps.length) 0
  allocSize : record.allocSize = constant.allocSize +
    bitmapWordSize * (record.bitmaps.length - constant.bitmaps.length)
  padding : record.padding = false → constant.padding = false

/-- The constant record that a valuation makes. -/
def substitute (env : Env) (fields : List Field) : List Field :=
  fields.map fun field => ⟨.word (field.tag.eval env), .word (field.size.eval env)⟩

/-- All that is asked of `computeRecord` and `computeIndex` under one valuation: the
record has a value, which is well laid, and so have the constant record and the
indexes computed for it. -/
structure RecordCorrect (target : Target) (acc : Accum) (env : Env)
    (fields : List Field) (record : RecordValue) : Prop where
  value : evalRecord target acc env fields = some record
  wellLaid : ∃ start,
    WellLaid target (fields.map (Field.eval (acc.env env))) start record
  substituted : ∀ acc' : Accum, acc'.Ok → acc'.Runs env →
    ∃ constant, evalRecord target acc' env (substitute (acc.env env) fields) =
      some constant ∧ SameLayout record constant
  index : ∀ acc' : Accum, acc'.Ok → acc'.Runs env → FieldsKnown acc'.next fields →
    (∀ field ∈ fields,
      field.size.eval (acc'.env env) = field.size.eval (acc.env env)) →
    ∀ before field after, fields = before ++ field :: after →
      ∃ index, evalIndex acc' env (before.map Field.size) field.size = some index ∧
        record.fieldIndexes[before.length]? = some index

section Correct

variable {target : Target} {acc : Accum} {env : Env} {fields : List Field}

/-- The record with the given words for its bitmap. -/
def recordValue (target : Target) (acc : Accum) (env : Env) (fields : List Field)
    (words : List Word32) : RecordValue where
  allocSize := bitmapStart target acc env fields + bitmapWordSize * words.length
  fieldIndexes := layoutFrom 0 (fieldSizes acc env fields)
  bitmaps := ((List.range words.length).map fun i =>
    bitmapStart target acc env fields + bitmapWordSize * i).zip words
  padding := (computeRecord target acc fields).1.padding

theorem RecordSpec.evalRecord {numBits : Nat} {words : List Word32}
    (hspec : RecordSpec target acc env fields numBits words
      (computeRecord target acc fields))
    (hcarries : RecordCarries target acc env fields) :
    RecordLayout.evalRecord target acc env fields =
      some (recordValue target acc env fields words) := by
  have hzip := congrArg₂ List.zip hspec.indexes hspec.bitmaps
  rw [List.zip_map'] at hzip
  have halloc := hspec.allocSize
  have hindexes := hspec.fieldIndexes
  unfold numberIn at hzip halloc hindexes
  unfold RecordLayout.evalRecord recordValue
  dsimp only
  rw [hspec.runs hcarries, Option.map_some, halloc, hindexes, hzip]

theorem zip_fst_range (start : Nat) (words : List Word32) :
    ((((List.range words.length).map fun i =>
      start + bitmapWordSize * i).zip words).map Prod.fst) =
        (List.range words.length).map fun i => start + bitmapWordSize * i :=
  List.map_fst_zip (by simp)

theorem zip_snd_range (start : Nat) (words : List Word32) :
    ((((List.range words.length).map fun i =>
      start + bitmapWordSize * i).zip words).map Prod.snd) = words :=
  List.map_snd_zip (by simp)

theorem length_zip_range (start : Nat) (words : List Word32) :
    (((List.range words.length).map fun i =>
      start + bitmapWordSize * i).zip words).length = words.length := by
  simp

/-- The entries of the record, with the sizes only. -/
theorem fieldSizes_zip (hvalued : Valued target acc env fields) :
    ∀ entry ∈ (fields.map (Field.eval (acc.env env))).zip
        (layoutFrom 0 (fieldSizes acc env fields)),
      (entry.1.size, entry.2) ∈ (fieldSizes acc env fields).zip
        (layoutFrom 0 (fieldSizes acc env fields)) ∧ entry.1.Legal target := by
  intro entry hentry
  have hzip : ((fields.map (Field.eval (acc.env env))).map FieldValue.size).zip
      (layoutFrom 0 (fieldSizes acc env fields)) =
      ((fields.map (Field.eval (acc.env env))).zip
        (layoutFrom 0 (fieldSizes acc env fields))).map
          (Prod.map FieldValue.size id) := List.zip_map_left
  rw [List.map_map] at hzip
  constructor
  · have hmem := List.mem_map_of_mem (f := Prod.map FieldValue.size id) hentry
    rw [← hzip] at hmem
    exact hmem
  · obtain ⟨field, hfield, heq⟩ := List.mem_map.mp (List.of_mem_zip hentry).1
    rw [← heq]
    exact hvalued.legal field hfield

theorem fieldSizes_legal (hvalued : Valued target acc env fields) :
    ∀ size ∈ fieldSizes acc env fields, IsSize size := by
  intro size hsize
  obtain ⟨field, hfield, rfl⟩ := List.mem_map.mp hsize
  exact hvalued.isSize field hfield

theorem wellLaid_of_spec {numBits : Nat} {words : List Word32}
    (hvalued : Valued target acc env fields)
    (hspec : RecordSpec target acc env fields numBits words
      (computeRecord target acc fields)) :
    WellLaid target (fields.map (Field.eval (acc.env env)))
      (bitmapStart target acc env fields) (recordValue target acc env fields words) := by
  have hlegal := fieldSizes_legal hvalued
  have hzip := fieldSizes_zip hvalued
  have hbounds := layoutFrom_bounds hlegal 0
  have hend := le_alignUp target.pos (endFrom 0 (fieldSizes acc env fields))
  rw [recordValue]
  exact {
    length := by
      rw [length_layoutFrom, fieldSizes, List.length_map, List.length_map]
    aligned := fun entry hentry => (hbounds _ (hzip entry hentry).1).1
    disjoint := by
      have hpairwise := layoutFrom_disjoint hlegal 0
      have hmap : (fieldSizes acc env fields).zip
          (layoutFrom 0 (fieldSizes acc env fields)) =
          ((fields.map (Field.eval (acc.env env))).zip
            (layoutFrom 0 (fieldSizes acc env fields))).map
              (Prod.map FieldValue.size id) := by
        rw [← List.zip_map_left, List.map_map]
        rfl
      rw [hmap, List.pairwise_map] at hpairwise
      exact hpairwise
    before := by
      intro entry hentry
      have hle := (hbounds _ (hzip entry hentry).1).2.2
      exact Nat.le_trans hle hend
    pointerAligned := dvd_alignUp _ _
    words := by
      rw [zip_fst_range, length_zip_range]
    allocSize := by
      rw [length_zip_range]
    bits := by
      intro i
      rw [zip_snd_range, hspec.bitmap.bits i]
      constructor
      · rintro ⟨entry, hentry, htag, hindex⟩
        obtain ⟨hmem, hentryLegal⟩ := hzip entry hentry
        refine ⟨entry, hentry, htag, ?_⟩
        have hdvd := (hbounds _ hmem).1
        rw [hentryLegal.pointer htag] at hdvd
        rw [← hindex, Nat.mul_div_cancel' hdvd]
      · rintro ⟨entry, hentry, htag, hindex⟩
        refine ⟨entry, hentry, htag, ?_⟩
        rw [hindex, Nat.mul_div_cancel_left _ target.pos]
    noGap := by
      intro hpadding
      obtain ⟨hgap, hstart⟩ := hspec.noGap hpadding
      have hsums := layoutFrom_noGap [] (fieldSizes acc env fields)
        (by rw [List.append_nil]; exact hgap)
      rw [hstart]
      refine hsums.trans ?_
      rw [List.map_map]
      rfl }

theorem substitute_valued (hvalued : Valued target acc env fields) {acc' : Accum}
    (hok : acc'.Ok) (hruns : acc'.Runs env) :
    Valued target acc' env (substitute (acc.env env) fields) where
  ok := hok
  known := by
    intro field hfield
    obtain ⟨original, _, rfl⟩ := List.mem_map.mp hfield
    exact ⟨trivial, trivial⟩
  legal := by
    intro field hfield
    obtain ⟨original, horiginal, rfl⟩ := List.mem_map.mp hfield
    exact hvalued.legal original horiginal
  runs := hruns

theorem substitute_fieldSizes (acc' : Accum) :
    fieldSizes acc' env (substitute (acc.env env) fields) =
      fieldSizes acc env fields := by
  rw [fieldSizes, substitute, List.map_map]
  rfl

theorem substitute_few (hvalued : Valued target acc env fields)
    (hfew : WithinTwoWords (fieldWidths target (fields.map Field.size))) :
    WithinTwoWords (fieldWidths target
      ((substitute (acc.env env) fields).map Field.size)) := by
  have hmap : (substitute (acc.env env) fields).map Field.size =
      (fields.map Field.size).map fun size => .word (size.eval (acc.env env)) := by
    rw [substitute, List.map_map, List.map_map]
    rfl
  rw [hmap]
  refine hfew.mono ?_
  cases fields with
  | nil => exact List.Forall₂.nil
  | cons field fields =>
    exact estimatedWidths_exact target field.size (fields.map Field.size)
      (fun value hvalue => (Option.some.inj hvalue).symm)
      (fun value _ => agrees_word acc env value) (fun _ _ => rfl) (by
        intro value hvalue
        rw [← List.map_cons (f := Field.size)] at hvalue
        obtain ⟨original, horiginal, rfl⟩ := List.mem_map.mp hvalue
        exact hvalued.isSize original horiginal)

theorem substitute_carries (acc acc' : Accum) (env : Env) (fields : List Field) :
    RecordCarries target acc' env (substitute (acc.env env) fields) := by
  have hcarries := carriesDefined_exact target (numberIn acc' env)
    ((substitute (acc.env env) fields).map Field.size) (by
      intro value hvalue
      obtain ⟨field, hfield, rfl⟩ := List.mem_map.mp hvalue
      obtain ⟨original, _, rfl⟩ := List.mem_map.mp hfield
      rfl) 0 ((substitute (acc.env env) fields).map Field.tag)
  rw [List.map_map] at hcarries
  exact hcarries

theorem substitute_eval (acc' : Accum) :
    (substitute (acc.env env) fields).map (Field.eval (acc'.env env)) =
      fields.map (Field.eval (acc.env env)) := by
  rw [substitute, List.map_map]
  rfl

theorem substitute_words (env : Env) (fields : List Field) :
    ∀ field ∈ substitute env fields, field.size.IsWord := by
  intro field hfield
  obtain ⟨original, _, rfl⟩ := List.mem_map.mp hfield
  exact trivial

theorem sameLayout_of_spec {acc' : Accum} {numBits numBits' : Nat}
    {words words' : List Word32}
    (hspec : RecordSpec target acc env fields numBits words
      (computeRecord target acc fields))
    (hspec' : RecordSpec target acc' env (substitute (acc.env env) fields) numBits'
      words' (computeRecord target acc' (substitute (acc.env env) fields))) :
    SameLayout (recordValue target acc env fields words)
      (recordValue target acc' env (substitute (acc.env env) fields) words') := by
  have hsizes : fieldSizes acc' env (substitute (acc.env env) fields) =
      fieldSizes acc env fields := substitute_fieldSizes acc'
  have hstart : bitmapStart target acc' env (substitute (acc.env env) fields) =
      bitmapStart target acc env fields := by
    rw [bitmapStart, bitmapStart, hsizes]
  have hbits : ∀ i, BitWords.bitAt words' i = BitWords.bitAt words i := by
    intro i
    have hleft := hspec'.bitmap.bits i
    rw [hsizes, substitute_eval] at hleft
    exact Bool.eq_iff_iff.mpr (hleft.trans (hspec.bitmap.bits i).symm)
  have hexact := hspec'.bitmap.exact (substitute_words _ _)
  have hlength : words'.length ≤ words.length := by
    have hle := hspec.bitmap.le
    have hbitsLe := hspec.bitmap.bits_le
    rw [hstart] at hexact
    rcases hspec'.bitmap.lt_bits with ⟨_, hnil⟩ | hlt
    · rw [hnil]
      exact Nat.zero_le _
    · omega
  have hextra := BitWords.eq_append_replicate hlength hbits
  rw [recordValue, recordValue, hsizes, hstart]
  exact {
    fieldIndexes := rfl
    length := by
      rw [length_zip_range, length_zip_range]
      exact hlength
    indexes := by
      rw [zip_fst_range, zip_fst_range, length_zip_range, ← List.map_take,
        List.take_range, Nat.min_eq_left hlength]
    bitmaps := by
      rw [zip_snd_range, zip_snd_range, length_zip_range, length_zip_range]
      exact hextra
    allocSize := by
      rw [length_zip_range, length_zip_range]
      show _ + bitmapWordSize * words.length = _ + bitmapWordSize * words'.length + _
      rw [Nat.add_assoc, ← Nat.mul_add, Nat.add_sub_cancel' hlength]
    padding := by
      intro hpadding
      obtain ⟨hgap, hend⟩ := hspec.noGap hpadding
      apply hspec'.padded (substitute_words _ _)
      · rw [hsizes]
        exact hgap
      · rw [hstart, hsizes]
        exact hend }

/-- `computeIndex` on the fields before a field finds the index of that field. -/
theorem evalIndex_eq {acc' : Accum} {before after : List Field} {field : Field}
    (hvalued : Valued target acc env (before ++ field :: after)) (hok : acc'.Ok)
    (hruns : acc'.Runs env)
    (hknown : FieldsKnown acc'.next (before ++ field :: after))
    (hsame : ∀ other ∈ before ++ field :: after,
      other.size.eval (acc'.env env) = other.size.eval (acc.env env))
    (hsmall : endFrom 0 (fieldSizes acc env (before ++ field :: after)) ≤ 1024) :
    evalIndex acc' env (before.map Field.size) field.size =
      some (indexRev (numberIn acc env field.size) (fieldSizes acc env before).reverse) := by
  have hmem : ∀ size ∈ field.size :: (before.map Field.size).reverse,
      ∃ other ∈ before ++ field :: after, other.size = size := by
    intro size hsize
    rcases List.mem_cons.mp hsize with rfl | hsize
    · exact ⟨field, by simp, rfl⟩
    · obtain ⟨other, hother, rfl⟩ := List.mem_map.mp (List.mem_reverse.mp hsize)
      exact ⟨other, List.mem_append_left _ hother, rfl⟩
  have hsizes : Sizes acc' env (numberIn acc env)
      (field.size :: (before.map Field.size).reverse) := by
    refine ⟨fun size hsize => ?_, fun size hsize => ?_, fun size hsize => ?_⟩
    · obtain ⟨other, hother, rfl⟩ := hmem size hsize
      exact (hknown other hother).2
    · obtain ⟨other, hother, rfl⟩ := hmem size hsize
      rw [hsame other hother]
      rfl
    · obtain ⟨other, hother, rfl⟩ := hmem size hsize
      exact hvalued.isSize other hother
  have hsplit : fieldSizes acc env (before ++ field :: after) =
      fieldSizes acc env before ++
        numberIn acc env field.size :: fieldSizes acc env after := by
    rw [fieldSizes, List.map_append, List.map_cons]
    rfl
  have hend : endRev ((field.size :: (before.map Field.size).reverse).map
      (numberIn acc env)) ≤ 1024 := by
    have hpre := endFrom_endRev [] (fieldSizes acc env before ++
      [numberIn acc env field.size])
    rw [List.reverse_append, List.append_nil] at hpre
    have hafter : ∀ size ∈ fieldSizes acc env after, IsSize size := by
      intro size hsize
      obtain ⟨other, hother, rfl⟩ := List.mem_map.mp hsize
      exact hvalued.isSize other (by simp [hother])
    have hrest := endFrom_ge hafter (endFrom 0 (fieldSizes acc env before ++
      [numberIn acc env field.size]))
    rw [hsplit, List.append_cons, endFrom_append] at hsmall
    rw [List.map_cons, fieldSizes_reverse]
    exact hpre.symm.trans_le (Nat.le_trans hrest hsmall)
  have hmono := endRev_mono (hsizes.legal field.size List.mem_cons_self).pos
    ((before.map Field.size).reverse.map (numberIn acc env))
  have hlayout := computeLayoutRev_spec hok hsizes.tail (by
    rw [List.map_cons] at hend
    omega)
  have hindex := indexAfter_spec hlayout hsizes (by omega)
  have hindexRuns : (computeIndex acc' (before.map Field.size) field.size).2.Runs env :=
    alignSize_runs (computeLayoutRev_runs hruns _)
  have heval := hindex.index.eval
  rw [fieldSizes_reverse] at heval
  rw [evalIndex, hindexRuns, Option.map_some]
  exact congrArg some heval

end Correct

/-- Where no shift of the bitmap finds more than two words or shifts a word by all of
its bits, the record is right under every valuation. -/
theorem computeRecord_correct {target : Target} {acc : Accum} {fields : List Field}
    (hfew : WithinTwoWords (fieldWidths target (fields.map Field.size))) (env : Env)
    (hvalued : Valued target acc env fields)
    (hcarries : RecordCarries target acc env fields) :
    ∃ record, RecordCorrect target acc env fields record := by
  obtain ⟨numBits, words, hspec⟩ := computeRecord_spec hvalued hfew
  refine ⟨recordValue target acc env fields words, ?_⟩
  exact {
    value := hspec.evalRecord hcarries
    wellLaid := ⟨_, wellLaid_of_spec hvalued hspec⟩
    substituted := by
      intro acc' hok hruns
      obtain ⟨numBits', words', hspec'⟩ := computeRecord_spec
        (substitute_valued hvalued hok hruns) (substitute_few hvalued hfew)
      exact ⟨_, hspec'.evalRecord (substitute_carries acc acc' env fields),
        sameLayout_of_spec hspec hspec'⟩
    index := by
      rintro acc' hok hruns hknown hsame before field after rfl
      have hindex := evalIndex_eq hvalued hok hruns hknown hsame
        (hvalued.endFrom_le hfew)
      refine ⟨_, hindex, ?_⟩
      rw [recordValue]
      have hget := layoutFrom_get [] (fieldSizes acc env before)
        (fieldSizes acc env after) (numberIn acc env field.size)
      rw [List.append_nil] at hget
      have hlength : (fieldSizes acc env before).length = before.length :=
        List.length_map _
      have hsplit : fieldSizes acc env (before ++ field :: after) =
          fieldSizes acc env before ++
            numberIn acc env field.size :: fieldSizes acc env after := by
        rw [fieldSizes, List.map_append, List.map_cons]
        rfl
      rw [hlength] at hget
      rw [hsplit]
      exact hget }

/-- A machine with pointers of eight bytes. -/
def target64 : Target := ⟨8, Or.inr rfl⟩

/-- A tuple of 33 components: the first has a type variable for its type, the second
is an integer, and the others are boxed. -/
def polymorphicTuple : List Field :=
  ⟨.var ⟨0, []⟩, .var ⟨1, []⟩⟩ :: ⟨.word 0, .word 4⟩ ::
    List.replicate 31 ⟨.word 1, .word 8⟩

/-- The type variable stands for a boxed type. -/
def boxedInstance : Env := fun id => if id = 0 then 1 else 8

/-- The type variable stands for the type of integers. -/
def unboxedInstance : Env := fun id => if id = 0 then 0 else 4

/-- The bit of the first component is computed, and shifting the words of the others
by its width makes a second word. -/
theorem computeRecord_correct_tuple :
    WithinTwoWords (fieldWidths target64 (polymorphicTuple.map Field.size)) ∧
      Valued target64 (newComputationAccum 2) boxedInstance polymorphicTuple ∧
      RecordCarries target64 (newComputationAccum 2) boxedInstance polymorphicTuple ∧
      ∃ record, RecordCorrect target64 (newComputationAccum 2) boxedInstance
        polymorphicTuple record := by
  have hfew : WithinTwoWords (fieldWidths target64 (polymorphicTuple.map Field.size)) := by
    decide +kernel
  have hcarries : RecordCarries target64 (newComputationAccum 2) boxedInstance
      polymorphicTuple := by
    decide +kernel
  have hfield : ∀ field ∈ polymorphicTuple, field = ⟨.var ⟨0, []⟩, .var ⟨1, []⟩⟩ ∨
      field = ⟨.word 0, .word 4⟩ ∨ field = ⟨.word 1, .word 8⟩ := by
    decide +kernel
  have hvalued :
      Valued target64 (newComputationAccum 2) boxedInstance polymorphicTuple := by
    refine ⟨newComputationAccum_ok 2, ?_, ?_, rfl⟩
    · intro field hmem
      rcases hfield field hmem with rfl | rfl | rfl
      · exact ⟨Nat.zero_lt_two, Nat.one_lt_two⟩
      · exact ⟨trivial, trivial⟩
      · exact ⟨trivial, trivial⟩
    · intro field hmem
      rcases hfield field hmem with rfl | rfl | rfl
      · exact ⟨isSize_eight, Or.inr rfl, fun _ => rfl⟩
      · exact ⟨isSize_four, Or.inl rfl, fun htag => absurd htag (by decide)⟩
      · exact ⟨isSize_eight, Or.inr rfl, fun _ => rfl⟩
  exact ⟨hfew, hvalued, hcarries,
    computeRecord_correct hfew boxedInstance hvalued hcarries⟩

/-- An integer for the first component takes no bit of its own, and the words of the
other components are shifted right by 32. -/
example : evalRecord target64 (newComputationAccum 2) unboxedInstance polymorphicTuple =
    none := by
  decide +kernel

/-- A tuple of 66 components of eight bytes, of which only the second is
boxed. -/
def wideTuple : List Field :=
  ⟨.word 0, .word 8⟩ :: ⟨.word 1, .word 8⟩ :: List.replicate 64 ⟨.word 0, .word 8⟩

theorem wideTuple_valued :
    Valued target64 (newComputationAccum 0) (fun _ => 0) wideTuple := by
  have hfield : ∀ field ∈ wideTuple,
      field = ⟨.word 0, .word 8⟩ ∨ field = ⟨.word 1, .word 8⟩ := by
    intro field hfield
    rcases List.mem_cons.mp hfield with rfl | hfield
    · exact Or.inl rfl
    · rcases List.mem_cons.mp hfield with rfl | hfield
      · exact Or.inr rfl
      · exact Or.inl (List.eq_of_mem_replicate hfield)
  refine ⟨newComputationAccum_ok 0, ?_, ?_, rfl⟩
  · intro field hmem
    rcases hfield field hmem with rfl | rfl
    · exact ⟨trivial, trivial⟩
    · exact ⟨trivial, trivial⟩
  · intro field hmem
    rcases hfield field hmem with rfl | rfl
    · exact ⟨isSize_eight, Or.inl rfl, fun htag => absurd htag (by decide)⟩
    · exact ⟨isSize_eight, Or.inr rfl, fun _ => rfl⟩

/-- The last shift finds three words and puts the bit of the second component
into the second word as well, where the 34th component is. -/
theorem computeRecord_not_correct :
    ¬ ∀ (target : Target) (acc : Accum) (fields : List Field) (env : Env),
      Valued target acc env fields →
        ∃ record, RecordCorrect target acc env fields record := by
  intro hall
  obtain ⟨record, hcorrect⟩ := hall target64 (newComputationAccum 0) wideTuple
    (fun _ => 0) wideTuple_valued
  obtain ⟨start, hlaid⟩ := hcorrect.wellLaid
  have hwrong : ∀ record ∈ evalRecord target64 (newComputationAccum 0) (fun _ => 0)
        wideTuple,
      BitWords.bitAt (record.bitmaps.map Prod.snd) 33 = true ∧
        ¬ ∃ entry ∈ (wideTuple.map (Field.eval ((newComputationAccum 0).env
          fun _ => 0))).zip record.fieldIndexes,
            entry.1.tag = 1 ∧ entry.2 = target64.pointerSize * 33 := by
    decide +kernel
  obtain ⟨hbit, hnone⟩ := hwrong record hcorrect.value
  exact hnone ((hlaid.bits 33).mp hbit)

end RecordLayout

end SmlSharp
