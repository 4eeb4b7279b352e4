/-
`computeRecord` and `computeIndex`: the layout, the bitmap and the allocation
size of a record, and what their values are under a valuation.
-/
import SmlSharp.RecordLayout.Bitmap
import SmlSharp.RecordLayout.Plan

namespace SmlSharp

namespace RecordLayout

structure Field where
  tag : Value
  size : Value
deriving DecidableEq, Repr

structure BitmapWord where
  index : Value
  bitmap : Value
deriving DecidableEq, Repr

structure ComputedRecord where
  allocSize : Value
  fieldIndexes : List Value
  bitmaps : List BitmapWord
  padding : Bool
deriving DecidableEq, Repr

def computeBitmapIndexes (acc : Accum) (index : Value) :
    List Value → (Value × List BitmapWord) × Accum
  | [] => ((index, []), acc)
  | bitmap :: bitmaps =>
    let nextIndex := compute acc
      (.op .add index (.word (BitVec.ofNat 32 bitmapWordSize)))
    let rest := computeBitmapIndexes nextIndex.2 nextIndex.1 bitmaps
    ((rest.1.1, ⟨index, bitmap⟩ :: rest.1.2), rest.2)

/-- The fields as `computeBitIndex` takes them. -/
def bitSources (fields : List Field) (layout : List FieldLayout) : List BitSource :=
  List.zipWith (fun field layout => ⟨field.tag, layout.fieldIndex, layout.accumSize⟩)
    fields layout

def computeRecord (target : Target) (acc : Accum) (fields : List Field) :
    ComputedRecord × Accum :=
  let sizesRev := (fields.map Field.size).reverse
  let layoutRev := computeLayoutRev acc sizesRev
  let alignedRev := alignAccumSizeRev target layoutRev.2 layoutRev.1.2
  let bitmapIndex := getAccumSizeRev alignedRev.1.2
  let layout := alignedRev.1.2.reverse
  let bits := computeBitIndex target alignedRev.2 (bitSources fields layout)
  let bitmap := computeRecordBitmap target bits.2 bits.1.2
  let bitmaps := computeBitmapIndexes bitmap.2 bitmapIndex bitmap.1.words
  ({  allocSize := bitmaps.1.1
      fieldIndexes := layout.map FieldLayout.fieldIndex
      bitmaps := bitmaps.1.2
      padding := layoutRev.1.1 || alignedRev.1.1 }, bitmaps.2)

def computeIndex (acc : Accum) (fields : List Value) (lastField : Value) :
    Value × Accum :=
  let index := computeIndexRev acc lastField fields.reverse
  (index.1.fieldIndex, index.2)

/-! ## From the last field to the first and back -/

/-- `LaidOut` from the first field on, after the given sizes in reverse. -/
def LaidOutFrom (acc : Accum) (base : Nat) (env : Env) (number : Value → Nat) :
    List Value → List Value → List FieldLayout → Prop
  | _, [], [] => True
  | before, size :: sizes, field :: fields =>
    FieldOk acc base env number size before field ∧
      LaidOutFrom acc base env number (size :: before) sizes fields
  | _, _, _ => False

variable {before : List Value} {acc' : Accum} {target : Target} {bits : List Bit}

section Forward

variable {acc : Accum} {base : Nat} {env : Env} {number : Value → Nat}

theorem LaidOut.length_eq {sizesRev : List Value} {fieldsRev : List FieldLayout}
    (hlaid : LaidOut acc base env number sizesRev fieldsRev) :
    sizesRev.length = fieldsRev.length := by
  induction sizesRev generalizing fieldsRev with
  | nil =>
    cases fieldsRev with
    | nil => rfl
    | cons field fieldsRev => exact absurd hlaid id
  | cons size sizesRev ih =>
    cases fieldsRev with
    | nil => exact absurd hlaid id
    | cons field fieldsRev => exact congrArg (· + 1) (ih hlaid.2)

theorem LaidOut.forward {sizes : List Value}
    {fieldsBefore fields : List FieldLayout}
    (hlaid : LaidOut acc base env number (sizes.reverse ++ before)
      (fields.reverse ++ fieldsBefore))
    (hlength : sizes.length = fields.length) :
    LaidOutFrom acc base env number before sizes fields ∧
      LaidOut acc base env number before fieldsBefore := by
  induction sizes generalizing before fields fieldsBefore with
  | nil =>
    have hnil : fields = [] := List.length_eq_zero_iff.mp hlength.symm
    subst hnil
    exact ⟨trivial, hlaid⟩
  | cons size sizes ih =>
    cases fields with
    | nil => simp at hlength
    | cons field fields =>
      rw [List.reverse_cons, List.reverse_cons, List.append_assoc,
        List.append_assoc] at hlaid
      obtain ⟨hrest, hfield, hbefore⟩ := ih hlaid (Nat.succ.inj hlength)
      exact ⟨⟨hfield, hrest⟩, hbefore⟩

end Forward

/-- The sources of the bitmap, from the first field on. -/
def SourcesOk (acc : Accum) (base : Nat) (env : Env) (number : Value → Nat) :
    List Value → List Field → List BitSource → Prop
  | _, [], [] => True
  | before, field :: fields, source :: sources =>
    (source.tag = field.tag ∧
      Names acc base env source.index
        (indexRev (number field.size) (before.map number)) ∧
      ((∀ value ∈ field.size :: before, value.IsWord) → source.index.IsWord)) ∧
      SourcesOk acc base env number (field.size :: before) fields sources
  | _, _, _ => False

section Sources

variable {acc : Accum} {base : Nat} {env : Env} {number : Value → Nat}

theorem LaidOutFrom.sources {fields : List Field}
    {layout layout' : List FieldLayout}
    (hlaid : LaidOutFrom acc base env number before (fields.map Field.size) layout)
    (hindexes : layout'.map FieldLayout.fieldIndex =
      layout.map FieldLayout.fieldIndex) :
    SourcesOk acc base env number before fields (bitSources fields layout') := by
  induction fields generalizing before layout layout' with
  | nil => trivial
  | cons field fields ih =>
    cases layout with
    | nil => exact absurd hlaid id
    | cons first layout =>
      cases layout' with
      | nil => simp at hindexes
      | cons first' layout' =>
        rw [List.map_cons, List.map_cons] at hindexes
        obtain ⟨hindex, hindexes⟩ := List.cons.inj hindexes
        obtain ⟨hfield, hrest⟩ := hlaid
        refine ⟨⟨rfl, ?_, ?_⟩, ih hrest hindexes⟩
        · show Names acc base env first'.fieldIndex _
          rw [hindex]
          exact hfield.index
        · intro hwords
          show first'.fieldIndex.IsWord
          rw [hindex]
          exact (hfield.words hwords).1

/-- The fields and their sources are gone through together. -/
@[elab_as_elim]
theorem SourcesOk.induction
    {motive : ∀ before fields sources, SourcesOk acc base env number before fields sources → Prop}
    {before : List Value} {fields : List Field} {sources : List BitSource}
    (hsources : SourcesOk acc base env number before fields sources)
    (nil : ∀ before, motive before [] [] trivial)
    (cons : ∀ before field fields source sources
      (hsources : SourcesOk acc base env number before (field :: fields) (source :: sources)),
      motive (field.size :: before) fields sources hsources.2 →
        motive before (field :: fields) (source :: sources) hsources) :
    motive before fields sources hsources := by
  induction fields generalizing before sources with
  | nil =>
    cases sources with
    | nil => exact nil before
    | cons source sources => exact absurd hsources id
  | cons field fields ih =>
    cases sources with
    | nil => exact absurd hsources id
    | cons source sources => exact cons before field fields source sources hsources (ih hsources.2)

theorem SourcesOk.extend {acc' : Accum} {before : List Value} {fields : List Field}
    {sources : List BitSource}
    (hsources : SourcesOk acc base env number before fields sources)
    (hext : Extends acc acc') :
    SourcesOk acc' base env number before fields sources := by
  induction hsources using SourcesOk.induction with
  | nil => trivial
  | cons before field fields source sources hsources ih =>
    obtain ⟨⟨htag, hnames, hwords⟩, -⟩ := hsources
    exact ⟨⟨htag, hnames.extend hext, hwords⟩, ih⟩

/-- The indexes of the sources are the layout of the sizes. -/
theorem SourcesOk.indexes {fields : List Field} {sources : List BitSource}
    (hsources : SourcesOk acc base env number before fields sources) :
    sources.map (fun source => (source.index.eval (acc.env env)).toNat) =
        layoutFrom (endRev (before.map number))
          (fields.map fun field => number field.size) ∧
      sources.map BitSource.tag = fields.map Field.tag := by
  induction hsources using SourcesOk.induction with
  | nil => exact ⟨rfl, rfl⟩
  | cons before field fields source sources hsources ih =>
    obtain ⟨⟨htag, hnames, -⟩, -⟩ := hsources
    obtain ⟨hindexes, htags⟩ := ih
    constructor
    · rw [List.map_cons, List.map_cons, layoutFrom, hindexes, hnames.eval]
      rfl
    · rw [List.map_cons, List.map_cons, htag, htags]

/-- A value as a number, in the environment after the accumulator. -/
def numberIn (acc : Accum) (env : Env) (value : Value) : Nat :=
  (value.eval (acc.env env)).toNat

/-- What comes after a field: the next field or the end of the record, aligned
to its own size or to the pointer size. -/
theorem SourcesOk.next {fields : List Field}
    {sources : List BitSource} {finish : Value}
    (hsources : SourcesOk acc base env number before fields sources)
    (hlegal : ∀ field ∈ fields, IsSize (number field.size))
    (hfinish : Names acc base env finish (alignUp
      (endRev (((fields.map Field.size).reverse ++ before).map number))
      target.pointerSize)) :
    ∃ size, IsSize size ∧ Names acc base env (nextPosition finish sources)
      (alignUp (endRev (before.map number)) size) := by
  cases fields with
  | nil =>
    cases sources with
    | nil => exact ⟨target.pointerSize, target.isSize, hfinish⟩
    | cons source sources => exact absurd hsources id
  | cons field fields =>
    cases sources with
    | nil => exact absurd hsources id
    | cons source sources =>
      exact ⟨number field.size, hlegal field List.mem_cons_self, hsources.1.2.1⟩

theorem SourcesOk.positions {fields : List Field} {sources : List BitSource} {finish : Value}
    (hsources : SourcesOk acc base env number before fields sources)
    (hlegal : ∀ field ∈ fields, IsSize (number field.size))
    (hfinish : Names acc base env finish (alignUp
      (endRev (((fields.map Field.size).reverse ++ before).map number))
      target.pointerSize)) :
    PositionsOk target acc env (numberIn acc env) finish sources := by
  induction hsources using SourcesOk.induction with
  | nil => trivial
  | cons before field fields source sources hsources ih =>
    obtain ⟨⟨_, hindex, _⟩, hrest⟩ := hsources
    have hsize := hlegal field List.mem_cons_self
    have hlegal : ∀ field ∈ fields, IsSize (number field.size) :=
      fun value hvalue => hlegal value (List.mem_cons_of_mem field hvalue)
    rw [List.map_cons, List.reverse_cons, List.append_assoc] at hfinish
    obtain ⟨next, hnextSize, hnext⟩ := hrest.next hlegal hfinish
    rw [List.map_cons, endRev_cons] at hnext
    have hlow : numberIn acc env source.index =
        indexRev (number field.size) (before.map number) := hindex.eval
    have hhigh : numberIn acc env (nextPosition finish sources) = _ := hnext.eval
    refine ⟨⟨hindex.known, hnext.known, rfl, rfl, ?_, ?_⟩, ih hlegal hfinish⟩
    · unfold bitIndexOf
      rw [hlow, hhigh]
      apply Nat.div_le_div_right
      have hle := le_alignUp hnextSize.pos
        (indexRev (number field.size) (before.map number) + number field.size)
      omega
    · unfold bitIndexOf
      rw [hlow, hhigh]
      exact pointerWords_le target hsize hnextSize (dvd_alignUp _ _)

/-- The record ends in a pointer word after the one its last field starts in. -/
theorem SourcesOk.last_lt {fields : List Field} {sources : List BitSource} {finish : Value}
    (hsources : SourcesOk acc base env number before fields sources)
    (hlegal : ∀ field ∈ fields, IsSize (number field.size))
    (hfinish : Names acc base env finish (alignUp
      (endRev (((fields.map Field.size).reverse ++ before).map number))
      target.pointerSize)) : ∀ last ∈ sources.getLast?,
      bitIndexOf target (numberIn acc env) last.index <
        bitIndexOf target (numberIn acc env) finish := by
  induction hsources using SourcesOk.induction with
  | nil => exact fun last hlast => nomatch hlast
  | cons before field fields source sources hsources ih =>
    obtain ⟨⟨_, hindex, _⟩, hrest⟩ := hsources
    have hsize := hlegal field List.mem_cons_self
    rw [List.map_cons, List.reverse_cons, List.append_assoc] at hfinish
    cases fields with
    | nil =>
      cases sources with
      | cons source sources => exact absurd hrest id
      | nil =>
        intro last hlast
        have heq : source = last := Option.some.inj hlast
        have hlow : numberIn acc env source.index =
            indexRev (number field.size) (before.map number) := hindex.eval
        have hhigh : numberIn acc env finish = _ := hfinish.eval
        rw [← heq]
        unfold bitIndexOf
        rw [hlow, hhigh]
        exact pointerWords_lt target hsize
    | cons next fields =>
      cases sources with
      | nil => exact absurd hrest id
      | cons second sources =>
        intro last hlast
        exact ih (fun value hvalue =>
          hlegal value (List.mem_cons_of_mem field hvalue)) hfinish last
          hlast

/-- A position that is known from the constant sizes is a constant. -/
def KnownAs (acc : Accum) (env : Env) (target : Target) (known : Option Nat)
    (position : Value) : Prop :=
  ∀ value, known = some value →
    position.IsWord ∧ value = bitIndexOf target (numberIn acc env) position

theorem estimate_le {low high : Value}
    {lowKnown highKnown : Option Nat} {last : Prop} {bitWidth : Value}
    (hwidth : WidthOk target acc' env (numberIn acc env) low high last bitWidth)
    (hlow : KnownAs acc env target lowKnown low)
    (hhigh : KnownAs acc env target highKnown high) :
    estimateMaxShift target bitWidth ≤ estimatedWidth target lowKnown highKnown ∧
      (estimatedWidth target lowKnown highKnown = 0 → bitWidth = .word 0) := by
  unfold estimatedWidth
  split
  · next known1 known2 =>
      obtain ⟨hlowWord, hlowEq⟩ := hlow known1 rfl
      obtain ⟨hhighWord, hhighEq⟩ := hhigh known2 rfl
      rw [hwidth.words hlowWord hhighWord, ← hlowEq, ← hhighEq]
      constructor
      · show (BitVec.ofNat 32 (known2 - known1)).toNat ≤ known2 - known1
        rw [BitVec.toNat_ofNat]
        exact Nat.mod_le _ _
      · intro hzero
        rw [hzero]
        rfl
  · constructor
    · exact hwidth.estimate
    · intro hzero
      have hpos := target.maxShift_pos
      unfold Target.maxShift at hpos
      omega

/-- What is known of the end of the fields before: only if all of their sizes
are constants. -/
def EndKnown (number : Value → Nat) (known : Option Nat) (before : List Value) : Prop :=
  ∀ value, known = some value →
    (∀ size ∈ before, size.IsWord) ∧ value = endRev (before.map number)

theorem Value.isWord_of_word? {value : Value} {number : Nat}
    (hword : value.word? = some number) : value.IsWord := by
  cases value with
  | var x => exact absurd hword (by simp [Value.word?])
  | word n => trivial

theorem EndKnown.index {known : Option Nat} {size : Value}
    (hknown : EndKnown number known before) (hnumber : Agrees size.word? (number size))
    {value : Nat}
    (hvalue : (known.bind fun position => size.word?.map (alignUp position)) =
      some value) : (∀ value ∈ size :: before, value.IsWord) ∧
      value = indexRev (number size) (before.map number) := by
  obtain ⟨position, hposition, hmap⟩ := Option.bind_eq_some_iff.mp hvalue
  obtain ⟨word, hword, heq⟩ := Option.map_eq_some_iff.mp hmap
  obtain ⟨hbefore, hend⟩ := hknown position hposition
  constructor
  · intro value hvalue
    rcases List.mem_cons.mp hvalue with rfl | hrest
    · exact Value.isWord_of_word? hword
    · exact hbefore value hrest
  · rw [← heq, hend, hnumber word hword]
    rfl

theorem EndKnown.step {known : Option Nat} {size : Value}
    (hknown : EndKnown number known before)
    (hnumber : Agrees size.word? (number size)) : EndKnown number
      ((known.bind fun position => size.word?.map (alignUp position)).bind
        fun position => size.word?.map (position + ·)) (size :: before) := by
  intro value hvalue
  obtain ⟨index, hindex, hmap⟩ := Option.bind_eq_some_iff.mp hvalue
  obtain ⟨word, hword, heq⟩ := Option.map_eq_some_iff.mp hmap
  obtain ⟨hwords, hposition⟩ := hknown.index hnumber hindex
  refine ⟨hwords, ?_⟩
  rw [← heq, hposition, hnumber word hword]
  rfl

/-- The first known position belongs to what comes next. -/
theorem SourcesOk.known_next {fields : List Field} {sources : List BitSource} {finish : Value}
    {known : Option Nat}
    (hsources : SourcesOk acc base env number before fields sources)
    (hfinish : Names acc base env finish (alignUp
      (endRev (((fields.map Field.size).reverse ++ before).map number))
      target.pointerSize))
    (hfinishWord : (∀ value ∈ (fields.map Field.size).reverse ++ before,
      value.IsWord) → finish.IsWord) (hknown : EndKnown number known before)
    (hnumber : ∀ field ∈ fields, Agrees field.size.word? (number field.size)) :
    ∃ first rest, bitPositions target known (fields.map Field.size) = first :: rest ∧
      KnownAs acc env target first (nextPosition finish sources) := by
  cases fields with
  | nil =>
    cases sources with
    | cons source sources => exact absurd hsources id
    | nil =>
      refine ⟨_, _, rfl, ?_⟩
      intro value hvalue
      obtain ⟨position, hposition, heq⟩ := Option.map_eq_some_iff.mp hvalue
      obtain ⟨hbefore, hend⟩ := hknown position hposition
      refine ⟨hfinishWord hbefore, ?_⟩
      have hnumberIn : numberIn acc env finish = _ := hfinish.eval
      rw [← heq, bitIndexOf, nextPosition, hnumberIn, hend]
      rfl
  | cons field fields =>
    cases sources with
    | nil => exact absurd hsources id
    | cons source sources =>
      obtain ⟨⟨_, hindex, hword⟩, _⟩ := hsources
      refine ⟨_, _, rfl, ?_⟩
      intro value hvalue
      obtain ⟨position, hposition, heq⟩ := Option.map_eq_some_iff.mp hvalue
      obtain ⟨hwords, hend⟩ :=
        hknown.index (hnumber field List.mem_cons_self) hposition
      refine ⟨hword hwords, ?_⟩
      have hnumberIn : numberIn acc env source.index = _ := hindex.eval
      rw [← heq, bitIndexOf, nextPosition, hnumberIn, hend]

/-- The widths are not estimated above what the sizes say. -/
theorem SourcesOk.estimates {fields : List Field} {sources : List BitSource} {finish : Value}
    {known : Option Nat}
    (hsources : SourcesOk acc base env number before fields sources)
    (hwidths : Widths target acc' env (numberIn acc env) finish sources bits)
    (hfinish : Names acc base env finish (alignUp
      (endRev (((fields.map Field.size).reverse ++ before).map number))
      target.pointerSize))
    (hfinishWord : (∀ value ∈ (fields.map Field.size).reverse ++ before,
      value.IsWord) → finish.IsWord) (hknown : EndKnown number known before)
    (hnumber : ∀ field ∈ fields, Agrees field.size.word? (number field.size)) :
    List.Forall₂ (fun estimate bit =>
        estimateMaxShift target bit.bitWidth ≤ estimate ∧
          (estimate = 0 → bit.bitWidth = .word 0))
      (estimatedWidths target (bitPositions target known (fields.map Field.size)))
      bits := by
  induction hsources using SourcesOk.induction generalizing bits known with
  | nil =>
    cases bits with
    | nil => exact List.Forall₂.nil
    | cons bit bits => exact absurd hwidths id
  | cons before field fields source sources hsources ih =>
    cases bits with
    | nil => exact absurd hwidths id
    | cons bit bits =>
      have hfirst := hsources.known_next hfinish hfinishWord hknown hnumber
      obtain ⟨hsource, hrest⟩ := hsources
      obtain ⟨_, hwidth, hwidths⟩ := hwidths
      rw [List.map_cons, List.reverse_cons, List.append_assoc] at hfinish
      rw [List.map_cons, List.reverse_cons, List.append_assoc] at hfinishWord
      have hrestNumber : ∀ field ∈ fields,
          Agrees field.size.word? (number field.size) := fun value hvalue =>
        hnumber value (List.mem_cons_of_mem field hvalue)
      have hstep := hknown.step (hnumber field List.mem_cons_self)
      obtain ⟨high, rest, hpositions, hhigh⟩ :=
        hrest.known_next hfinish hfinishWord hstep hrestNumber
      have htail := ih hwidths hfinish hfinishWord hstep hrestNumber
      obtain ⟨low, others, hlowEq, hlow⟩ := hfirst
      rw [List.map_cons, bitPositions] at hlowEq ⊢
      obtain ⟨hlowEq, _⟩ := List.cons.inj hlowEq
      rw [hlowEq]
      rw [hpositions] at htail ⊢
      rw [estimatedWidths]
      exact List.Forall₂.cons (estimate_le hwidth hlow hhigh) htail

theorem totalBits_le {estimates : List Nat}
    (hestimates : List.Forall₂ (fun estimate bit =>
      estimateMaxShift target bit.bitWidth ≤ estimate ∧
        (estimate = 0 → bit.bitWidth = .word 0)) estimates bits) :
    totalBits target bits ≤ estimates.sum := by
  induction hestimates with
  | nil => exact Nat.le_refl _
  | @cons estimate bit estimates bits hhead hrest ih =>
    unfold totalBits at ih ⊢
    rw [List.map_cons, List.sum_cons, List.sum_cons]
    exact Nat.add_le_add hhead.1 ih

theorem shiftsOk_of_withinTwoWords {estimates : List Nat}
    (hestimates : List.Forall₂ (fun estimate bit =>
      estimateMaxShift target bit.bitWidth ≤ estimate ∧
        (estimate = 0 → bit.bitWidth = .word 0)) estimates bits)
    (hfew : WithinTwoWords estimates) : ShiftsOk target bits := by
  induction hestimates with
  | nil => trivial
  | @cons estimate bit estimates bits hhead hrest ih =>
    obtain ⟨hfirst, hfew⟩ := hfew
    refine ⟨?_, ih hfew⟩
    rcases hfirst with hzero | hsum
    · exact Or.inl (hhead.2 hzero)
    · exact Or.inr (Nat.le_trans (totalBits_le hrest) hsum)

theorem carriesOk_of_carriesDefined {finish : Value} {estimates : List Nat}
    {sources : List BitSource}
    (hwidths : Widths target acc env number finish sources bits)
    (hestimates : List.Forall₂ (fun estimate bit =>
      estimateMaxShift target bit.bitWidth ≤ estimate ∧
        (estimate = 0 → bit.bitWidth = .word 0)) estimates bits)
    (hcarries : CarriesDefined target estimates
      (sources.map fun source => number source.index) (sources.map BitSource.tag)) :
    CarriesOk target acc env bits := by
  induction hestimates generalizing sources with
  | nil => trivial
  | @cons estimate bit estimates bits hhead hrest ih =>
    have htotal := totalBits_le (List.Forall₂.cons hhead hrest)
    cases sources with
    | nil => exact absurd hwidths id
    | cons source sources =>
      obtain ⟨_, hwidth, hwidths⟩ := hwidths
      cases sources with
      | nil =>
        cases bits with
        | nil => exact ⟨by simp, trivial⟩
        | cons bit bits => exact absurd hwidths id
      | cons next sources =>
        obtain ⟨hcarry, hcarries⟩ := hcarries
        refine ⟨?_, ih hwidths hcarries⟩
        rcases hcarry with hzero | hlt | hroom | htags
        · exact Or.inl (hhead.2 hzero)
        · refine Or.inr (Or.inl ?_)
          rw [hwidth.eval (List.cons_ne_nil _ _)]
          exact Nat.sub_pos_of_lt hlt
        · exact Or.inr (Or.inr (Or.inl (Nat.le_trans htotal hroom)))
        · refine Or.inr (Or.inr (Or.inr fun later hlater => ?_))
          exact htags _ (hwidths.tags ▸ List.mem_map_of_mem hlater)

end Sources

/-- What aligning the end of the fields gives. -/
structure AlignSpec (target : Target) (acc : Accum) (base : Nat) (env : Env)
    (number : Value → Nat) (sizesRev : List Value) (layoutRev : List FieldLayout)
    (result : (Bool × List FieldLayout) × Accum) : Prop where
  ext : Extends acc result.2
  indexes : result.1.2.map FieldLayout.fieldIndex =
    layoutRev.map FieldLayout.fieldIndex
  finish : Names result.2 base env (getAccumSizeRev result.1.2)
    (alignUp (endRev (sizesRev.map number)) target.pointerSize)
  words : (∀ value ∈ sizesRev, value.IsWord) → (getAccumSizeRev result.1.2).IsWord
  noGap : result.1.1 = false →
    alignUp (endRev (sizesRev.map number)) target.pointerSize =
      endRev (sizesRev.map number)
  padded : (∀ value ∈ sizesRev, value.IsWord) →
    alignUp (endRev (sizesRev.map number)) target.pointerSize =
      endRev (sizesRev.map number) → result.1.1 = false

theorem alignAccumSizeRev_spec (target : Target) {acc : Accum} {base : Nat}
    {env : Env} {number : Value → Nat} {sizesRev : List Value}
    {layoutRev : List FieldLayout} (hok : acc.Ok) (hbase : base ≤ acc.next)
    (hlaid : LaidOut acc base env number sizesRev layoutRev)
    (hfit : endRev (sizesRev.map number) + target.pointerSize ≤ 2 ^ 32) :
    AlignSpec target acc base env number sizesRev layoutRev
      (alignAccumSizeRev target acc layoutRev) := by
  cases sizesRev with
  | nil =>
    cases layoutRev with
    | cons field layoutRev => exact absurd hlaid id
    | nil =>
      have hzero : alignUp 0 target.pointerSize = 0 :=
        alignUp_of_dvd target.pos (Nat.dvd_zero _)
      exact {
        ext := Extends.refl hok
        indexes := rfl
        finish := ⟨trivial, trivial, hzero.symm⟩
        words := fun _ => trivial
        noGap := fun _ => hzero
        padded := fun _ _ => rfl }
  | cons size sizesRev =>
    cases layoutRev with
    | nil => exact absurd hlaid id
    | cons field layoutRev =>
      obtain ⟨hfield, _⟩ := hlaid
      have hsize : ((Value.word target.pointerWord).eval (acc.env env)).toNat =
          target.pointerSize := target.pointerWord_toNat
      have hyields := alignSize_yields env hok hbase hfield.accum.known
        hfield.accum.fresh (Value.known_word _ target.pointerWord)
        (by rw [hsize]; exact target.isSize)
        (by rw [hsize, hfield.accum.eval]; exact hfit)
      rw [hfield.accum.eval, hsize] at hyields
      have hstable := hyields.ext.eval hfield.accum.known env
      have hwords : (∀ value ∈ size :: sizesRev, value.IsWord) →
          (alignSize acc field.accumSize (.word target.pointerWord)).1.IsWord := by
        intro hall
        obtain ⟨word, hword⟩ := (hfield.words hall).2.exists
        rw [hword, alignSize_words]
        trivial
      rw [alignAccumSizeRev]
      exact {
        ext := hyields.ext
        indexes := rfl
        finish := hyields.names hbase
        words := hwords
        noGap := by
          intro hdiffer
          have heq := mayDiffer_eq_false hdiffer
            ((alignSize acc field.accumSize (.word target.pointerWord)).2.env env)
          have hnat := congrArg BitVec.toNat heq
          rw [hstable, hfield.accum.eval, hyields.eval] at hnat
          exact hnat.symm
        padded := by
          intro hall hgap
          apply mayDiffer_words
            ((alignSize acc field.accumSize (.word target.pointerWord)).2.env env)
            (hfield.words hall).2 (hwords hall)
          apply BitVec.eq_of_toNat_eq
          rw [hstable, hfield.accum.eval, hyields.eval]
          exact hgap.symm }

/-- The words of the bitmap lie one after the other. -/
structure BitmapIndexesSpec (acc : Accum) (env : Env) (start : Nat)
    (words : List Word32) (result : (Value × List BitmapWord) × Accum) : Prop where
  ext : Extends acc result.2
  known : result.1.1.Known result.2.next
  total : (result.1.1.eval (result.2.env env)).toNat =
    start + bitmapWordSize * words.length
  indexKnown : ∀ word ∈ result.1.2, word.index.Known result.2.next
  indexes : result.1.2.map (fun word => numberIn result.2 env word.index) =
    (List.range words.length).map fun i => start + bitmapWordSize * i
  bitmaps : result.1.2.map (fun word => word.bitmap.eval (result.2.env env)) = words

theorem computeBitmapIndexes_spec {acc : Accum} {base : Nat} {env : Env}
    {start : Nat} {index : Value} {words : List Value} {expected : List Word32}
    (hok : acc.Ok) (hindex : index.Known acc.next)
    (hstart : (index.eval (acc.env env)).toNat = start)
    (hwords : WordsOk acc base env words expected)
    (hfit : start + bitmapWordSize * expected.length < 2 ^ 32) :
    BitmapIndexesSpec acc env start expected (computeBitmapIndexes acc index words) := by
  induction words generalizing acc start index expected with
  | nil =>
    have heval := hwords.eval
    rw [evalWords, List.map_nil] at heval
    subst heval
    exact {
      ext := Extends.refl hok
      known := hindex
      total := hstart
      indexKnown := fun word hword => absurd hword List.not_mem_nil
      indexes := rfl
      bitmaps := rfl }
  | cons word words ih =>
    have heval := hwords.eval
    rw [evalWords, List.map_cons] at heval
    subst heval
    have hrest : WordsOk acc base env words
        (words.map (Value.eval (acc.env env))) :=
      ⟨fun value hvalue => hwords.known value (List.mem_cons_of_mem word hvalue),
        fun value hvalue => hwords.fresh value (List.mem_cons_of_mem word hvalue),
        rfl⟩
    have hword := hwords.known word List.mem_cons_self
    rw [List.length_cons] at hfit
    have hnext := compute_computed .add hok env
      (separate_word_right index (BitVec.ofNat 32 bitmapWordSize)) hindex
      (Value.known_word _ _)
    rw [computeBitmapIndexes]
    generalize compute acc (.op .add index (.word (BitVec.ofNat 32 bitmapWordSize))) =
      nextIndex at *
    have hnextStart : (nextIndex.1.eval (nextIndex.2.env env)).toNat =
        start + bitmapWordSize := by
      have hfour : ((Value.word (BitVec.ofNat 32 bitmapWordSize)).eval
          (acc.env env)).toNat = bitmapWordSize := rfl
      rw [hnext.eval, evalOp2, BitVec.toNat_add, hstart, hfour]
      apply Nat.mod_eq_of_lt
      rw [Nat.mul_succ] at hfit
      omega
    have hspec := ih hnext.ext.ok hnext.known hnextStart (hrest.extend hnext.ext)
      (by rw [Nat.mul_succ] at hfit; omega)
    generalize computeBitmapIndexes nextIndex.2 nextIndex.1 words = rest at *
    have hext := hnext.ext.trans hspec.ext
    exact {
      ext := hext
      known := hspec.known
      total := by
        rw [hspec.total, List.length_cons, Nat.mul_succ]
        omega
      indexKnown := by
        intro value hvalue
        rcases List.mem_cons.mp hvalue with rfl | hold
        · exact hext.known hindex
        · exact hspec.indexKnown value hold
      indexes := by
        have hfirst : numberIn rest.2 env index = start := by
          rw [numberIn, hext.eval hindex, hstart]
        rw [List.map_cons, hspec.indexes, hfirst, List.length_cons,
          List.range_succ_eq_map, List.map_cons, List.map_map]
        apply congrArg (List.cons start)
        apply List.map_congr_left
        intro i _
        simp only [Function.comp_apply, Nat.mul_succ]
        omega
      bitmaps := by
        rw [List.map_cons, hspec.bitmaps]
        apply congrArg (· :: _)
        exact hext.eval hword env }

theorem computeBitmapIndexes_runs {acc : Accum} {env : Env} (hruns : acc.Runs env)
    (index : Value) (words : List Value) :
    (computeBitmapIndexes acc index words).2.Runs env := by
  induction words generalizing acc index with
  | nil => exact hruns
  | cons word words ih => exact ih (compute_runs hruns fun _ => rfl) _

end RecordLayout

end SmlSharp
