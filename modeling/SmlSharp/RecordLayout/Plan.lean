/-
The layout of a record in the natural numbers, from the first field on, and
what makes a computed record right.  How wide the compiler takes each field to
be in the bitmap is read off the constant sizes alone.
-/
import SmlSharp.Lib.BitWords
import SmlSharp.RecordLayout.Layout

namespace SmlSharp

namespace RecordLayout

/-- The indexes of the fields, after the given end of the fields before. -/
def layoutFrom : Nat → List Nat → List Nat
  | _, [] => []
  | finish, size :: sizes =>
    alignUp finish size :: layoutFrom (alignUp finish size + size) sizes

def endFrom : Nat → List Nat → Nat
  | finish, [] => finish
  | finish, size :: sizes => endFrom (alignUp finish size + size) sizes

theorem length_layoutFrom (finish : Nat) (sizes : List Nat) :
    (layoutFrom finish sizes).length = sizes.length := by
  induction sizes generalizing finish with
  | nil => rfl
  | cons size sizes ih => simp [layoutFrom, ih]

theorem endFrom_endRev (before sizes : List Nat) :
    endFrom (endRev before) sizes = endRev (sizes.reverse ++ before) := by
  induction sizes generalizing before with
  | nil => rfl
  | cons size sizes ih =>
    rw [endFrom, List.reverse_cons, List.append_assoc]
    exact ih (size :: before)

theorem endFrom_ge {sizes : List Nat} (hsizes : ∀ size ∈ sizes, IsSize size)
    (finish : Nat) : finish ≤ endFrom finish sizes := by
  induction sizes generalizing finish with
  | nil => exact Nat.le_refl _
  | cons size sizes ih =>
    have hle := le_alignUp (hsizes size List.mem_cons_self).pos finish
    have hrest := ih (fun value hvalue => hsizes value (List.mem_cons_of_mem size hvalue))
      (alignUp finish size + size)
    rw [endFrom]
    omega

theorem endFrom_append (finish : Nat) (before after : List Nat) :
    endFrom finish (before ++ after) = endFrom (endFrom finish before) after := by
  induction before generalizing finish with
  | nil => rfl
  | cons size before ih => exact ih (alignUp finish size + size)

/-- Every field starts at a multiple of its size, after the fields before, and
ends before the fields after. -/
theorem layoutFrom_bounds {sizes : List Nat} (hsizes : ∀ size ∈ sizes, IsSize size)
    (finish : Nat) : ∀ entry ∈ sizes.zip (layoutFrom finish sizes),
      entry.1 ∣ entry.2 ∧ finish ≤ entry.2 ∧
        entry.2 + entry.1 ≤ endFrom finish sizes := by
  induction sizes generalizing finish with
  | nil => exact fun entry hentry => absurd hentry List.not_mem_nil
  | cons size sizes ih =>
    intro entry hentry
    have hrest : ∀ value ∈ sizes, IsSize value := fun value hvalue =>
      hsizes value (List.mem_cons_of_mem size hvalue)
    have hle := le_alignUp (hsizes size List.mem_cons_self).pos finish
    rw [layoutFrom, List.zip_cons_cons] at hentry
    rcases List.mem_cons.mp hentry with rfl | hentry
    · exact ⟨dvd_alignUp finish size, hle, endFrom_ge hrest _⟩
    · obtain ⟨hdvd, hstart, hend⟩ := ih hrest _ entry hentry
      exact ⟨hdvd, by omega, hend⟩

theorem layoutFrom_disjoint {sizes : List Nat}
    (hsizes : ∀ size ∈ sizes, IsSize size) (finish : Nat) :
    (sizes.zip (layoutFrom finish sizes)).Pairwise
      fun low high => low.2 + low.1 ≤ high.2 := by
  induction sizes generalizing finish with
  | nil => exact List.Pairwise.nil
  | cons size sizes ih =>
    have hrest : ∀ value ∈ sizes, IsSize value := fun value hvalue =>
      hsizes value (List.mem_cons_of_mem size hvalue)
    rw [layoutFrom, List.zip_cons_cons]
    refine List.pairwise_cons.mpr ⟨?_, ih hrest _⟩
    intro entry hentry
    exact (layoutFrom_bounds hrest _ entry hentry).2.1

/-- One field of the layout. -/
theorem layoutFrom_get (before sizes after : List Nat) (size : Nat) :
    (layoutFrom (endRev before) (sizes ++ size :: after))[sizes.length]? =
      some (indexRev size (sizes.reverse ++ before)) := by
  induction sizes generalizing before with
  | nil => rfl
  | cons first sizes ih =>
    rw [List.cons_append, layoutFrom, List.length_cons, List.getElem?_cons_succ,
      List.reverse_cons, List.append_assoc]
    exact ih (first :: before)

theorem noGap_append {before after : List Nat} (hgap : NoGap (after ++ before)) :
    NoGap before := by
  induction after with
  | nil => exact hgap
  | cons size after ih => exact ih hgap.2

/-- Without gaps, the fields and the end are the partial sums of the sizes. -/
theorem layoutFrom_noGap (before sizes : List Nat)
    (hgap : NoGap (sizes.reverse ++ before)) :
    layoutFrom (endRev before) sizes ++ [endFrom (endRev before) sizes] =
      sizes.scanl (· + ·) (endRev before) := by
  induction sizes generalizing before with
  | nil => rfl
  | cons size sizes ih =>
    rw [List.reverse_cons, List.append_assoc] at hgap
    have hhead : indexRev size before = endRev before := (noGap_append hgap).1
    have hrest := ih (size :: before) hgap
    have hend : endRev (size :: before) = endRev before + size := by
      rw [endRev_cons, hhead]
    have halign : alignUp (endRev before) size = endRev before := hhead
    rw [hend] at hrest
    rw [layoutFrom, endFrom, halign, List.scanl_cons, List.cons_append, hrest]

/-! ## Pointer words -/

/-- The next field, or the end of the record, is at most `maxShift` pointer
words further: a field never leaves the aligned block of `maxSize` bytes it
starts in. -/
theorem pointerWords_le (target : Target) {index size next : Nat}
    (hsize : IsSize size) (hnext : IsSize next) (hdvd : size ∣ index) :
    alignUp (index + size) next / target.pointerSize - index / target.pointerSize ≤
      maxSize / target.pointerSize := by
  have hblock : index + size ≤ 8 * (index / 8) + 8 := by
    obtain ⟨factor, rfl⟩ := hdvd
    rcases hsize.cases with rfl | rfl | rfl | rfl <;> omega
  have hbound : alignUp (index + size) next ≤ 8 * (index / 8) + 8 := by
    apply alignUp_le_of_dvd hnext.pos hblock
    rcases hnext.cases with rfl | rfl | rfl | rfl <;> omega
  unfold maxSize
  rcases target.supported with heq | heq <;> rw [heq] <;> omega

theorem pointerWords_lt (target : Target) {index size : Nat} (hsize : IsSize size) :
    index / target.pointerSize <
      alignUp (index + size) target.pointerSize / target.pointerSize := by
  have hle := le_alignUp target.pos (index + size)
  have hpos := hsize.pos
  obtain ⟨factor, hfactor⟩ := dvd_alignUp (index + size) target.pointerSize
  rw [hfactor] at hle ⊢
  rw [Nat.mul_div_cancel_left _ target.pos]
  apply Nat.div_lt_of_lt_mul
  omega

/-! ## The widths as the compiler knows them -/

def Value.word? : Value → Option Nat
  | .word n => some n.toNat
  | .var _ => none

/-- The pointer words in which the fields start and the record ends, as far as
the sizes before are constants. -/
def bitPositions (target : Target) : Option Nat → List Value → List (Option Nat)
  | finish, [] =>
    [finish.map fun position =>
      alignUp position target.pointerSize / target.pointerSize]
  | finish, size :: sizes =>
    let index := finish.bind fun position => size.word?.map (alignUp position)
    index.map (· / target.pointerSize) ::
      bitPositions target (index.bind fun position => size.word?.map (position + ·))
        sizes

/-- The width of a field in bits: exact where both positions are constants,
otherwise the most it can be. -/
def estimatedWidth (target : Target) : Option Nat → Option Nat → Nat
  | some low, some high => high - low
  | _, _ => maxSize / target.pointerSize

def estimatedWidths (target : Target) : List (Option Nat) → List Nat
  | low :: high :: positions =>
    estimatedWidth target low high :: estimatedWidths target (high :: positions)
  | _ => []

/-- After every field that has a width, the rest of the record has at most as
many bits as two words have. -/
def WithinTwoWords : List Nat → Prop
  | [] => True
  | width :: widths =>
    (width = 0 ∨ widths.sum ≤ 2 * bitmapWordBits) ∧ WithinTwoWords widths

instance decidableWithinTwoWords : (widths : List Nat) →
    Decidable (WithinTwoWords widths)
  | [] => inferInstanceAs (Decidable True)
  | width :: widths =>
    have := decidableWithinTwoWords widths
    inferInstanceAs (Decidable
      ((width = 0 ∨ widths.sum ≤ 2 * bitmapWordBits) ∧ WithinTwoWords widths))

/-- A shift carries bits over by the rest of a word, so the field before must have a
width, given the estimated widths, the positions and the tags of the fields: unless
it is known to have none, or no bit is carried over since one word has room for all,
or the tags of the fields after it are the constant zero. -/
def CarriesDefined (target : Target) : List Nat → List Nat → List Value → Prop
  | width :: widths, position :: next :: positions, _ :: tags =>
    (width = 0 ∨ position / target.pointerSize < next / target.pointerSize ∨
      width + widths.sum ≤ bitmapWordBits ∨ ∀ tag ∈ tags, tag = .word 0) ∧
      CarriesDefined target widths (next :: positions) tags
  | _, _, _ => True

instance decidableCarriesDefined (target : Target) :
    (widths positions : List Nat) → (tags : List Value) →
      Decidable (CarriesDefined target widths positions tags)
  | width :: widths, position :: next :: positions, _ :: tags =>
    have := decidableCarriesDefined target widths (next :: positions) tags
    inferInstanceAs (Decidable ((width = 0 ∨
      position / target.pointerSize < next / target.pointerSize ∨
      width + widths.sum ≤ bitmapWordBits ∨ ∀ tag ∈ tags, tag = .word 0) ∧
      CarriesDefined target widths (next :: positions) tags))
  | [], _, _ => inferInstanceAs (Decidable True)
  | _ :: _, [], _ => inferInstanceAs (Decidable True)
  | _ :: _, [_], _ => inferInstanceAs (Decidable True)
  | _ :: _, _ :: _ :: _, [] => inferInstanceAs (Decidable True)

/-- The widths of the fields of a record, estimated from the sizes. -/
def fieldWidths (target : Target) (sizes : List Value) : List Nat :=
  estimatedWidths target (bitPositions target (some 0) sizes)

/-- What is known of a position is what it is. -/
def Agrees (known : Option Nat) (position : Nat) : Prop :=
  ∀ value, known = some value → value = position

theorem Agrees.index {finish : Option Nat} {position : Nat} {size : Value}
    {number : Nat} (hfinish : Agrees finish position) (hsize : Agrees size.word? number) :
    Agrees (finish.bind fun position => size.word?.map (alignUp position))
      (alignUp position number) := by
  intro value hvalue
  obtain ⟨known, hknown, hmap⟩ := Option.bind_eq_some_iff.mp hvalue
  obtain ⟨word, hword, heq⟩ := Option.map_eq_some_iff.mp hmap
  rw [← heq, hfinish known hknown, hsize word hword]

theorem Agrees.finish {index : Option Nat} {position : Nat} {size : Value}
    {number : Nat} (hindex : Agrees index position) (hsize : Agrees size.word? number) :
    Agrees (index.bind fun position => size.word?.map (position + ·))
      (position + number) := by
  intro value hvalue
  obtain ⟨known, hknown, hmap⟩ := Option.bind_eq_some_iff.mp hvalue
  obtain ⟨word, hword, heq⟩ := Option.map_eq_some_iff.mp hmap
  rw [← heq, hindex known hknown, hsize word hword]

theorem Agrees.map {known : Option Nat} {position : Nat} (change : Nat → Nat)
    (hknown : Agrees known position) : Agrees (known.map change) (change position) := by
  intro value hvalue
  obtain ⟨word, hword, heq⟩ := Option.map_eq_some_iff.mp hvalue
  rw [← heq, hknown word hword]

theorem estimatedWidth_bounds {target : Target} {low high : Option Nat}
    {lowWord highWord : Nat} (hlow : Agrees low lowWord) (hhigh : Agrees high highWord)
    (hmax : highWord - lowWord ≤ maxSize / target.pointerSize) :
    highWord - lowWord ≤ estimatedWidth target low high ∧
      estimatedWidth target low high ≤ maxSize / target.pointerSize := by
  unfold estimatedWidth
  split
  · next known1 known2 =>
      rw [hlow known1 rfl, hhigh known2 rfl]
      exact ⟨Nat.le_refl _, hmax⟩
  · exact ⟨hmax, Nat.le_refl _⟩

/-- The estimates are enough for all the fields and never above `maxShift`. -/
theorem estimatedWidths_bounds (target : Target) {number : Value → Nat}
    (size : Value) (sizes : List Value) {known : Option Nat} {finish : Nat}
    (hfinish : Agrees known finish)
    (hnumber : ∀ value ∈ size :: sizes, Agrees value.word? (number value))
    (hlegal : ∀ value ∈ size :: sizes, IsSize (number value)) :
    let widths := estimatedWidths target (bitPositions target known (size :: sizes))
    (∀ width ∈ widths, width ≤ maxSize / target.pointerSize) ∧
      alignUp (endFrom finish ((size :: sizes).map number)) target.pointerSize /
          target.pointerSize -
        alignUp finish (number size) / target.pointerSize ≤ widths.sum := by
  induction sizes generalizing size known finish with
  | nil =>
    have hword := hnumber size List.mem_cons_self
    have hindex := hfinish.index hword
    have hend := (hindex.finish hword).map fun position =>
      alignUp position target.pointerSize / target.pointerSize
    have hstart := hindex.map (· / target.pointerSize)
    obtain ⟨hle, hmax⟩ := estimatedWidth_bounds hstart hend
      (pointerWords_le target (hlegal size List.mem_cons_self) target.isSize
        (dvd_alignUp finish (number size)))
    constructor
    · intro width hwidth
      rw [List.mem_singleton.mp hwidth]
      exact hmax
    · simpa [bitPositions, estimatedWidths, endFrom] using hle
  | cons next sizes ih =>
    have hword := hnumber size List.mem_cons_self
    have hnextMem : next ∈ size :: next :: sizes :=
      List.mem_cons_of_mem size List.mem_cons_self
    have hindex := hfinish.index hword
    have hend := hindex.finish hword
    have hnext := (hend.index (hnumber next hnextMem)).map (· / target.pointerSize)
    have hstart := hindex.map (· / target.pointerSize)
    obtain ⟨hle, hmax⟩ := estimatedWidth_bounds hstart hnext
      (pointerWords_le target (hlegal size List.mem_cons_self)
        (hlegal next hnextMem) (dvd_alignUp finish (number size)))
    obtain ⟨hrestMax, hrestLe⟩ := ih next hend
      (fun value hvalue => hnumber value (List.mem_cons_of_mem size hvalue))
      (fun value hvalue => hlegal value (List.mem_cons_of_mem size hvalue))
    constructor
    · intro width hwidth
      rcases List.mem_cons.mp hwidth with rfl | hrest
      · exact hmax
      · exact hrestMax width hrest
    · have hsum : (estimatedWidths target
          (bitPositions target known (size :: next :: sizes))).sum = _ :=
        List.sum_cons
      rw [hsum]
      rw [List.map_cons, endFrom]
      refine Nat.le_trans ?_ (Nat.add_le_add hle hrestLe)
      omega

/-- The widths of the record in which every size has become a constant are not
above the estimates. -/
theorem estimatedWidths_exact (target : Target) {number : Value → Nat}
    {constant : Value → Value} (size : Value) (sizes : List Value)
    {known : Option Nat} {finish : Nat} (hfinish : Agrees known finish)
    (hnumber : ∀ value ∈ size :: sizes, Agrees value.word? (number value))
    (hconstant : ∀ value ∈ size :: sizes, (constant value).word? = some (number value))
    (hlegal : ∀ value ∈ size :: sizes, IsSize (number value)) :
    List.Forall₂ (fun exact estimate => exact ≤ estimate)
      (estimatedWidths target
        (bitPositions target (some finish) ((size :: sizes).map constant)))
      (estimatedWidths target (bitPositions target known (size :: sizes))) := by
  induction sizes generalizing size known finish with
  | nil =>
    have hword := hnumber size List.mem_cons_self
    have hexact := hconstant size List.mem_cons_self
    have hindex := hfinish.index hword
    have hend := (hindex.finish hword).map fun position =>
      alignUp position target.pointerSize / target.pointerSize
    have hstart := hindex.map (· / target.pointerSize)
    obtain ⟨hle, _⟩ := estimatedWidth_bounds hstart hend
      (pointerWords_le target (hlegal size List.mem_cons_self) target.isSize
        (dvd_alignUp finish (number size)))
    refine List.Forall₂.cons ?_ List.Forall₂.nil
    rw [hexact]
    exact hle
  | cons next sizes ih =>
    have hword := hnumber size List.mem_cons_self
    have hexact := hconstant size List.mem_cons_self
    have hnextMem : next ∈ size :: next :: sizes :=
      List.mem_cons_of_mem size List.mem_cons_self
    have hindex := hfinish.index hword
    have hend := hindex.finish hword
    have hnext := (hend.index (hnumber next hnextMem)).map (· / target.pointerSize)
    have hstart := hindex.map (· / target.pointerSize)
    obtain ⟨hle, _⟩ := estimatedWidth_bounds hstart hnext
      (pointerWords_le target (hlegal size List.mem_cons_self)
        (hlegal next hnextMem) (dvd_alignUp finish (number size)))
    have hrest := ih next hend
      (fun value hvalue => hnumber value (List.mem_cons_of_mem size hvalue))
      (fun value hvalue => hconstant value (List.mem_cons_of_mem size hvalue))
      (fun value hvalue => hlegal value (List.mem_cons_of_mem size hvalue))
    rw [List.map_cons, bitPositions, hexact]
    refine List.Forall₂.cons ?_ hrest
    rw [hconstant next hnextMem]
    exact hle

/-- Where every size is a constant, a field without width is known to have none. -/
theorem carriesDefined_exact (target : Target) (number : Value → Nat) (sizes : List Value)
    (hconstant : ∀ value ∈ sizes, value.word? = some (number value)) (finish : Nat)
    (tags : List Value) :
    CarriesDefined target (estimatedWidths target (bitPositions target (some finish) sizes))
      (layoutFrom finish (sizes.map number)) tags := by
  induction sizes generalizing finish tags with
  | nil => trivial
  | cons size sizes ih =>
    obtain ⟨hsize, hsizes⟩ := List.forall_mem_cons.mp hconstant
    cases sizes with
    | nil => trivial
    | cons next sizes =>
      cases tags with
      | nil => trivial
      | cons tag tags =>
        have hrest := ih hsizes (alignUp finish (number size) + number size) tags
        have hnext := hsizes next List.mem_cons_self
        simp only [bitPositions, hsize, hnext, Option.bind_some, Option.map_some]
          at hrest ⊢
        refine ⟨?_, hrest⟩
        rw [estimatedWidth]
        omega

theorem WithinTwoWords.mono {exact estimates : List Nat}
    (hle : List.Forall₂ (fun exact estimate => exact ≤ estimate) exact estimates)
    (hfew : WithinTwoWords estimates) : WithinTwoWords exact := by
  have hsum : ∀ {exact estimates : List Nat},
      List.Forall₂ (fun exact estimate => exact ≤ estimate) exact estimates →
        exact.sum ≤ estimates.sum := by
    intro exact estimates hle
    induction hle with
    | nil => exact Nat.le_refl _
    | cons hhead hrest ih =>
      rw [List.sum_cons, List.sum_cons]
      exact Nat.add_le_add hhead ih
  induction hle with
  | nil => trivial
  | cons hhead hrest ih =>
    obtain ⟨hfirst, hfew⟩ := hfew
    refine ⟨?_, ih hfew⟩
    rcases hfirst with hzero | hsmall
    · exact Or.inl (Nat.le_zero.mp (hzero ▸ hhead))
    · exact Or.inr (Nat.le_trans (hsum hrest) hsmall)

theorem WithinTwoWords.sum_le {widths : List Nat} {most : Nat}
    (hwidths : WithinTwoWords widths) (hmost : ∀ width ∈ widths, width ≤ most) :
    widths.sum ≤ most + 2 * bitmapWordBits := by
  induction widths with
  | nil => exact Nat.zero_le _
  | cons width widths ih =>
    obtain ⟨hhead, hrest⟩ := hwidths
    have hwidth := hmost width List.mem_cons_self
    have hsum := ih hrest fun value hvalue =>
      hmost value (List.mem_cons_of_mem width hvalue)
    rw [List.sum_cons]
    rcases hhead with hzero | hfew
    · omega
    · omega

/-- The widths of a record within two words do not add up to much more. -/
theorem fieldWidths_sum_le {target : Target} (number : Value → Nat)
    {sizes : List Value} (hfew : WithinTwoWords (fieldWidths target sizes))
    (hnumber : ∀ value ∈ sizes, Agrees value.word? (number value))
    (hlegal : ∀ value ∈ sizes, IsSize (number value)) :
    (fieldWidths target sizes).sum ≤ 66 := by
  have hbits : bitmapWordBits = 32 := rfl
  have hshift : maxSize / target.pointerSize ≤ 2 := by
    rcases target.supported with heq | heq <;> rw [heq] <;> decide
  cases sizes with
  | nil => exact Nat.zero_le _
  | cons size sizes =>
    have hknown : Agrees (some 0) 0 := fun value hvalue => (Option.some.inj hvalue).symm
    obtain ⟨hmax, _⟩ := estimatedWidths_bounds target size sizes hknown hnumber hlegal
    have hsum := hfew.sum_le hmax
    omega

/-- A record within two words is small, so no sum in its layout wraps around. -/
theorem endFrom_le_of_withinTwoWords {target : Target} (number : Value → Nat)
    {sizes : List Value} (hfew : WithinTwoWords (fieldWidths target sizes))
    (hnumber : ∀ value ∈ sizes, Agrees value.word? (number value))
    (hlegal : ∀ value ∈ sizes, IsSize (number value)) :
    endFrom 0 (sizes.map number) ≤ 1024 := by
  have hsum := fieldWidths_sum_le number hfew hnumber hlegal
  cases sizes with
  | nil => exact Nat.zero_le _
  | cons size sizes =>
    have hknown : Agrees (some 0) 0 := fun value hvalue => (Option.some.inj hvalue).symm
    obtain ⟨_, htotal⟩ := estimatedWidths_bounds target size sizes hknown hnumber hlegal
    have hzero : alignUp 0 (number size) = 0 :=
      alignUp_of_dvd (hlegal size List.mem_cons_self).pos (Nat.dvd_zero _)
    have hend := le_alignUp target.pos (endFrom 0 ((size :: sizes).map number))
    obtain ⟨factor, hfactor⟩ :=
      dvd_alignUp (endFrom 0 ((size :: sizes).map number)) target.pointerSize
    rw [hzero, Nat.zero_div, Nat.sub_zero, hfactor,
      Nat.mul_div_cancel_left _ target.pos] at htotal
    unfold fieldWidths at hsum
    have hfew : factor ≤ 66 := Nat.le_trans htotal hsum
    rw [hfactor] at hend
    refine Nat.le_trans hend ?_
    rcases target.supported with heq | heq <;> rw [heq] <;> omega

end RecordLayout

end SmlSharp
