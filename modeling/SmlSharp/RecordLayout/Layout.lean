/-
The indexes of the fields of a record: `alignSize` and the recursion that runs
over the fields in reverse.
-/
import SmlSharp.Lib.Align
import SmlSharp.RecordLayout.Compute

namespace SmlSharp

namespace RecordLayout

/-- The size of the largest type that can be a field. -/
def maxSize : Nat := 8

/-- The pointer sizes that the compiler accepts of a target machine. -/
structure Target where
  pointerSize : Nat
  supported : pointerSize = 4 ∨ pointerSize = 8

/-- The values a size variable can take. -/
def IsSize (size : Nat) : Prop := size ≤ maxSize ∧ ∃ exponent, size = 2 ^ exponent

theorem IsSize.cases {size : Nat} (hsize : IsSize size) :
    size = 1 ∨ size = 2 ∨ size = 4 ∨ size = 8 := by
  obtain ⟨hle, exponent, rfl⟩ := hsize
  have hexp : exponent < 4 := by
    by_contra hnot
    have hpow : 2 ^ 4 ≤ 2 ^ exponent :=
      Nat.pow_le_pow_right (by decide) (Nat.not_lt.mp hnot)
    unfold maxSize at hle
    omega
  interval_cases exponent <;> simp

theorem IsSize.pos {size : Nat} (hsize : IsSize size) : 0 < size := by
  rcases hsize.cases with rfl | rfl | rfl | rfl <;> decide

theorem isSize_four : IsSize 4 := ⟨by decide, 2, rfl⟩
theorem isSize_eight : IsSize 8 := ⟨by decide, 3, rfl⟩

theorem Target.isSize (target : Target) : IsSize target.pointerSize := by
  rcases target.supported with heq | heq
  · rw [heq]
    exact isSize_four
  · rw [heq]
    exact isSize_eight

theorem Target.pos (target : Target) : 0 < target.pointerSize :=
  target.isSize.pos

def Target.pointerWord (target : Target) : Word32 :=
  BitVec.ofNat 32 target.pointerSize

theorem Target.pointerWord_toNat (target : Target) :
    target.pointerWord.toNat = target.pointerSize := by
  rcases target.supported with heq | heq <;>
    simp [Target.pointerWord, heq]

structure FieldLayout where
  fieldIndex : Value
  accumSize : Value
deriving DecidableEq, Repr

structure IndexRev where
  padded : Bool
  fieldIndex : Value
  layoutRev : List FieldLayout
deriving DecidableEq, Repr

/-- `(accumSize + nextFieldSize - 1) & (0 - nextFieldSize)` -/
def alignSize (acc : Accum) (accumSize nextFieldSize : Value) : Value × Accum :=
  let tmp1 := compute acc (.op .add accumSize nextFieldSize)
  let tmp2 := compute tmp1.2 (.op .sub tmp1.1 (.word 1))
  let tmp3 := compute tmp2.2 (.op .sub (.word 0) nextFieldSize)
  compute tmp3.2 (.op .and tmp2.1 tmp3.1)

def getAccumSizeRev : List FieldLayout → Value
  | [] => .word 0
  | field :: _ => field.accumSize

/-- Whether two positions may differ: only equal constants surely do not. -/
def mayDiffer : Value → Value → Bool
  | .word accumSize, .word fieldIndex => accumSize ≠ fieldIndex
  | _, _ => true

/-- The body of `computeIndexRev`, on the layout of the fields before. -/
def indexAfter (lastFieldSize : Value) (layout : (Bool × List FieldLayout) × Accum) :
    IndexRev × Accum :=
  let accumSize := getAccumSizeRev layout.1.2
  let fieldIndex := alignSize layout.2 accumSize lastFieldSize
  (⟨layout.1.1 || mayDiffer accumSize fieldIndex.1, fieldIndex.1, layout.1.2⟩,
    fieldIndex.2)

def computeLayoutRev (acc : Accum) :
    List Value → (Bool × List FieldLayout) × Accum
  | [] => ((false, []), acc)
  | size :: fieldsRev =>
    let index := indexAfter size (computeLayoutRev acc fieldsRev)
    let accumSize := compute index.2 (.op .add index.1.fieldIndex size)
    ((index.1.padded, ⟨index.1.fieldIndex, accumSize.1⟩ :: index.1.layoutRev),
      accumSize.2)

def computeIndexRev (acc : Accum) (lastFieldSize : Value) (fieldsRev : List Value) :
    IndexRev × Accum :=
  indexAfter lastFieldSize (computeLayoutRev acc fieldsRev)

/-- Align the size of the record to the word boundary. -/
def alignAccumSizeRev (target : Target) (acc : Accum) :
    List FieldLayout → (Bool × List FieldLayout) × Accum
  | [] => ((false, []), acc)
  | field :: fieldsRev =>
    let accumSize := alignSize acc field.accumSize (.word target.pointerWord)
    ((mayDiffer field.accumSize accumSize.1,
      { field with accumSize := accumSize.1 } :: fieldsRev), accumSize.2)

/-! ## The layout in the natural numbers -/

/-- The end of a record, of the sizes of its fields in reverse. -/
def endRev : List Nat → Nat
  | [] => 0
  | size :: sizesRev => alignUp (endRev sizesRev) size + size

/-- The index of a field, after the fields of the given sizes in reverse. -/
def indexRev (size : Nat) (sizesRev : List Nat) : Nat :=
  alignUp (endRev sizesRev) size

theorem endRev_cons (size : Nat) (sizesRev : List Nat) :
    endRev (size :: sizesRev) = indexRev size sizesRev + size := rfl

theorem endRev_le_indexRev {size : Nat} (hpos : 0 < size) (sizesRev : List Nat) :
    endRev sizesRev ≤ indexRev size sizesRev :=
  le_alignUp hpos _

theorem endRev_mono {size : Nat} (hpos : 0 < size) (sizesRev : List Nat) :
    endRev sizesRev ≤ endRev (size :: sizesRev) :=
  Nat.le_trans (endRev_le_indexRev hpos sizesRev) (Nat.le_add_right _ _)

/-! ## Aligning -/

/-- The machine form of `alignUp`, where the sum does not wrap around. -/
theorem alignWord_toNat {position size : Word32} (hsize : IsSize size.toNat)
    (hfit : position.toNat + size.toNat ≤ 2 ^ 32) :
    ((position + size - 1) &&& (0 - size)).toNat =
      alignUp position.toNat size.toNat := by
  have hone : (1 : Word32).toNat = 1 := rfl
  have hsum : (position + size - 1).toNat = position.toNat + size.toNat - 1 := by
    have hpos := hsize.pos
    rw [BitVec.toNat_sub, BitVec.toNat_add, hone]
    omega
  have hneg : (0 : Word32) - size = -size := BitVec.zero_sub size
  obtain ⟨hle, exponent, hpow⟩ := hsize
  have hexp : exponent < 32 := by
    by_contra hnot
    have hbig : 2 ^ 32 ≤ 2 ^ exponent :=
      Nat.pow_le_pow_right (by decide) (Nat.not_lt.mp hnot)
    unfold maxSize at hle
    omega
  have hword : size = BitVec.twoPow 32 exponent := by
    apply BitVec.eq_of_toNat_eq
    rw [hpow, BitVec.toNat_twoPow_of_lt hexp]
  rw [hneg]
  calc
    ((position + size - 1) &&& -size).toNat =
        ((position + size - 1) &&& -BitVec.twoPow 32 exponent).toNat := by
      rw [← hword]
    _ = (position + size - 1).toNat / 2 ^ exponent * 2 ^ exponent :=
      Word.toNat_and_neg_twoPow hexp _
    _ = alignUp position.toNat size.toNat := by
      rw [hsum, ← hpow]
      rfl

def Value.IsWord : Value → Prop
  | .word _ => True
  | .var _ => False

variable {value : Value} {acc : Accum} {base : Nat} {env : Env} {sizesRev : List Value}

theorem Value.IsWord.exists (hword : value.IsWord) :
    ∃ word, value = .word word := by
  cases value with
  | var x => exact absurd hword id
  | word n => exact ⟨n, rfl⟩

theorem Value.exists_var (hword : ¬ value.IsWord) : ∃ x, value = .var x := by
  cases value with
  | var x => exact ⟨x, rfl⟩
  | word n => exact absurd trivial hword

theorem compute_not_isWord {exp : Exp}
    (hnormal : ∀ value, normalizeExp exp ≠ .value value) :
    ¬ (compute acc exp).1.IsWord := by
  unfold compute
  cases hcase : normalizeExp exp with
  | value value => exact absurd hcase (hnormal value)
  | op op left right =>
    cases hfind : acc.find exp with
    | none => exact id
    | some var => exact id

/-- Aligning to a variable size never gives a constant. -/
theorem alignSize_var (acc : Accum) (accumSize : Value) (x : Var) :
    ¬ (alignSize acc accumSize (.var x)).1.IsWord := by
  have htmp3 : ∀ acc, ¬ (compute acc (.op .sub (.word 0) (.var x))).1.IsWord :=
    fun acc => compute_not_isWord (by simp [normalizeExp, normalizeSub])
  unfold alignSize
  apply compute_not_isWord
  intro value
  obtain ⟨y, hy⟩ := Value.exists_var
    (htmp3 (compute (compute acc (.op .add accumSize (.var x))).2
      (.op .sub (compute acc (.op .add accumSize (.var x))).1 (.word 1))).2)
  have hand : ∀ left, normalizeExp (.op .and left (.var y)) =
      commute .and left (.var y) := by
    intro left
    cases left <;> rfl
  rw [hy, hand]
  exact commute_ne_value _ _ _ _

/-- What is known of a result: it names nothing old, and its value. -/
structure Yields (acc : Accum) (env : Env) (number : Nat) (result : Value × Accum) :
    Prop where
  ext : Extends acc result.2
  known : result.1.Known result.2.next
  fresh : result.1.Fresh acc.next
  eval : (result.1.eval (result.2.env env)).toNat = number

theorem sub_one_fresh (hok : acc.Ok) (value : Value) :
    (compute acc (.op .sub value (.word 1))).1.Fresh acc.next := by
  apply compute_fresh_of hok
  intro result hresult
  cases value with
  | var x => simp [normalizeExp, normalizeSub] at hresult
  | word n =>
    cases hresult
    trivial

theorem zero_sub_fresh (hok : acc.Ok) (value : Value) :
    (compute acc (.op .sub (.word 0) value)).1.Fresh acc.next := by
  apply compute_fresh_of hok
  intro result hresult
  cases value with
  | var x => simp [normalizeExp, normalizeSub] at hresult
  | word n =>
    cases hresult
    trivial

/-- `alignSize` aligns.  The position must have been computed after every size
was made, so that the two are not the same variable. -/
theorem alignSize_yields {accumSize size : Value}
    (env : Env) (hok : acc.Ok) (hbase : base ≤ acc.next)
    (hknown : accumSize.Known acc.next) (hfresh : accumSize.Fresh base)
    (hsize : size.Known base) (hlegal : IsSize (size.eval (acc.env env)).toNat)
    (hfit : (accumSize.eval (acc.env env)).toNat +
      (size.eval (acc.env env)).toNat ≤ 2 ^ 32) : Yields acc env
      (alignUp (accumSize.eval (acc.env env)).toNat (size.eval (acc.env env)).toNat)
      (alignSize acc accumSize size) := by
  have hsizeAcc : size.Known acc.next := hsize.mono hbase
  have hext1 := compute_extends .add hok
    (separate_of_fresh_known hfresh hsize)
  have hknown1 := compute_known .add hok hknown hsizeAcc
  have heval1 := compute_eval .add accumSize size hok env
  unfold alignSize
  generalize compute acc (.op .add accumSize size) = tmp1 at *
  have hext2 := compute_extends .sub hext1.ok
    (separate_word_right tmp1.1 1)
  have hknown2 := compute_known .sub hext1.ok hknown1
    (Value.known_word _ 1)
  have hfresh2 := sub_one_fresh hext1.ok tmp1.1
  have heval2 := compute_eval .sub tmp1.1 (.word 1) hext1.ok env
  simp only [] at *
  generalize compute tmp1.2 (.op .sub tmp1.1 (.word 1)) = tmp2 at *
  have hext12 := hext1.trans hext2
  have hsize2 : size.Known tmp2.2.next := hext12.known hsizeAcc
  have hext3 := compute_extends .sub hext2.ok (separate_word_left 0 size)
  have hknown3 := compute_known .sub hext2.ok (Value.known_word _ 0) hsize2
  have hfresh3 := zero_sub_fresh hext2.ok size
  have heval3 := compute_eval .sub (.word 0) size hext2.ok env
  generalize compute tmp2.2 (.op .sub (.word 0) size) = tmp3 at *
  have hext4 := compute_extends .and hext3.ok
    (separate_of_known_fresh hknown2 hfresh3)
  have hknown4 := compute_known .and hext3.ok (hext3.known hknown2) hknown3
  have hfresh4 := compute_fresh .and hext3.ok
    (Nat.le_trans hext12.le hext3.le) (hfresh2.mono hext1.le)
    (hfresh3.mono hext12.le)
  have heval4 := compute_eval .and tmp2.1 tmp3.1
    hext3.ok env
  refine ⟨hext12.trans (hext3.trans hext4), hknown4, hfresh4, ?_⟩
  rw [heval4, hext3.eval hknown2 env, heval3, heval2, heval1,
    hext12.eval hsizeAcc env]
  exact alignWord_toNat hlegal hfit

@[simp] theorem alignSize_words (acc : Accum) (word1 word2 : Word32) :
    alignSize acc (.word word1) (.word word2) =
      (.word ((word1 + word2 - 1) &&& (0 - word2)), acc) := by
  simp [alignSize, evalOp2]

theorem alignSize_runs {accumSize size : Value} (hruns : acc.Runs env) :
    (alignSize acc accumSize size).2.Runs env := by
  have htmp1 : (compute acc (.op .add accumSize size)).2.Runs env :=
    compute_runs hruns fun _ => rfl
  exact compute_runs (compute_runs (compute_runs htmp1 fun _ => rfl) fun _ => rfl)
    fun _ => rfl

/-! ## The computed layout -/

theorem mayDiffer_eq_false {left right : Value} (hnot : mayDiffer left right = false)
    (env : Env) : left.eval env = right.eval env := by
  cases left with
  | var x => exact absurd hnot (by simp [mayDiffer])
  | word m =>
    cases right with
    | var x => exact absurd hnot (by simp [mayDiffer])
    | word n => simpa [mayDiffer] using hnot

theorem mayDiffer_words (env : Env) {left right : Value} (hleft : left.IsWord)
    (hright : right.IsWord) (heq : left.eval env = right.eval env) :
    mayDiffer left right = false := by
  obtain ⟨word1, rfl⟩ := hleft.exists
  obtain ⟨word2, rfl⟩ := hright.exists
  simpa [mayDiffer] using heq

/-- A result that was computed since `base` and stands for a number. -/
structure Names (acc : Accum) (base : Nat) (env : Env) (value : Value)
    (number : Nat) : Prop where
  known : value.Known acc.next
  fresh : value.Fresh base
  eval : (value.eval (acc.env env)).toNat = number

theorem Names.extend {acc' : Accum}
    {number : Nat} (hnames : Names acc base env value number)
    (hext : Extends acc acc') : Names acc' base env value number :=
  ⟨hext.known hnames.known, hnames.fresh, by
    rw [hext.eval hnames.known env, hnames.eval]⟩

theorem Names.word (acc : Accum) (base : Nat) (env : Env) (word : Word32) :
    Names acc base env (.word word) word.toNat :=
  ⟨trivial, trivial, rfl⟩

theorem Yields.names {number : Nat}
    {result : Value × Accum} (hyields : Yields acc env number result)
    (hbase : base ≤ acc.next) : Names result.2 base env result.1 number :=
  ⟨hyields.known, hyields.fresh.mono hbase, hyields.eval⟩

/-- The layout of one field, after the fields of the given sizes in reverse. -/
structure FieldOk (acc : Accum) (base : Nat) (env : Env) (number : Value → Nat)
    (size : Value) (sizesRev : List Value) (field : FieldLayout) : Prop where
  index : Names acc base env field.fieldIndex
    (indexRev (number size) (sizesRev.map number))
  accum : Names acc base env field.accumSize
    (endRev ((size :: sizesRev).map number))
  words : (∀ value ∈ size :: sizesRev, value.IsWord) →
    field.fieldIndex.IsWord ∧ field.accumSize.IsWord

def LaidOut (acc : Accum) (base : Nat) (env : Env) (number : Value → Nat) :
    List Value → List FieldLayout → Prop
  | [], [] => True
  | size :: sizesRev, field :: fieldsRev =>
    FieldOk acc base env number size sizesRev field ∧
      LaidOut acc base env number sizesRev fieldsRev
  | _, _ => False

theorem LaidOut.extend {acc acc' : Accum} {base : Nat} {env : Env}
    {number : Value → Nat} {sizesRev : List Value} {fieldsRev : List FieldLayout}
    (hlaid : LaidOut acc base env number sizesRev fieldsRev)
    (hext : Extends acc acc') : LaidOut acc' base env number sizesRev fieldsRev := by
  induction sizesRev generalizing fieldsRev with
  | nil =>
    cases fieldsRev with
    | nil => trivial
    | cons field fieldsRev => exact absurd hlaid id
  | cons size sizesRev ih =>
    cases fieldsRev with
    | nil => exact absurd hlaid id
    | cons field fieldsRev =>
      obtain ⟨hfield, hrest⟩ := hlaid
      exact ⟨⟨hfield.index.extend hext, hfield.accum.extend hext, hfield.words⟩,
        ih hrest⟩

theorem computeLayoutRev_runs (hruns : acc.Runs env) (sizesRev : List Value) :
    (computeLayoutRev acc sizesRev).2.Runs env := by
  induction sizesRev with
  | nil => exact hruns
  | cons size sizesRev ih => exact compute_runs (alignSize_runs ih) fun _ => rfl

theorem alignAccumSizeRev_runs (target : Target) (hruns : acc.Runs env)
    (layoutRev : List FieldLayout) :
    (alignAccumSizeRev target acc layoutRev).2.Runs env := by
  cases layoutRev with
  | nil => exact hruns
  | cons field fieldsRev => exact alignSize_runs hruns

/-- The end of the fields laid out so far. -/
theorem LaidOut.accumSize {number : Value → Nat} {fieldsRev : List FieldLayout}
    (hlaid : LaidOut acc base env number sizesRev fieldsRev) :
    Names acc base env (getAccumSizeRev fieldsRev) (endRev (sizesRev.map number)) ∧
      ((∀ value ∈ sizesRev, value.IsWord) → (getAccumSizeRev fieldsRev).IsWord) := by
  cases sizesRev with
  | nil =>
    cases fieldsRev with
    | nil => exact ⟨Names.word acc base env 0, fun _ => trivial⟩
    | cons field fieldsRev => exact absurd hlaid id
  | cons size sizesRev =>
    cases fieldsRev with
    | nil => exact absurd hlaid id
    | cons field fieldsRev => exact ⟨hlaid.1.accum, fun hwords => (hlaid.1.words hwords).2⟩

/-- No field starts after the end of the one before. -/
def NoGap : List Nat → Prop
  | [] => True
  | size :: sizesRev => indexRev size sizesRev = endRev sizesRev ∧ NoGap sizesRev

/-- What is assumed of the sizes a layout is computed from. -/
structure Sizes (acc : Accum) (env : Env) (number : Value → Nat)
    (sizes : List Value) : Prop where
  known : ∀ size ∈ sizes, size.Known acc.next
  eval : ∀ size ∈ sizes, (size.eval (acc.env env)).toNat = number size
  legal : ∀ size ∈ sizes, IsSize (number size)

theorem Sizes.tail {number : Value → Nat} {size : Value}
    {sizes : List Value} (hsizes : Sizes acc env number (size :: sizes)) :
    Sizes acc env number sizes where
  known := fun value hvalue => hsizes.known value (List.mem_cons_of_mem size hvalue)
  eval := fun value hvalue => hsizes.eval value (List.mem_cons_of_mem size hvalue)
  legal := fun value hvalue => hsizes.legal value (List.mem_cons_of_mem size hvalue)

structure LayoutSpec (acc : Accum) (env : Env) (number : Value → Nat)
    (sizesRev : List Value) (result : (Bool × List FieldLayout) × Accum) : Prop where
  ext : Extends acc result.2
  laid : LaidOut result.2 acc.next env number sizesRev result.1.2
  noGap : result.1.1 = false → NoGap (sizesRev.map number)
  padded : (∀ value ∈ sizesRev, value.IsWord) → NoGap (sizesRev.map number) →
    result.1.1 = false

structure IndexSpec (acc : Accum) (env : Env) (number : Value → Nat)
    (size : Value) (sizesRev : List Value) (result : IndexRev × Accum) : Prop where
  ext : Extends acc result.2
  laid : LaidOut result.2 acc.next env number sizesRev result.1.layoutRev
  index : Names result.2 acc.next env result.1.fieldIndex
    (indexRev (number size) (sizesRev.map number))
  words : (∀ value ∈ size :: sizesRev, value.IsWord) → result.1.fieldIndex.IsWord
  var : ¬ size.IsWord → ¬ result.1.fieldIndex.IsWord
  noGap : result.1.padded = false → NoGap ((size :: sizesRev).map number)
  padded : (∀ value ∈ size :: sizesRev, value.IsWord) →
    NoGap ((size :: sizesRev).map number) → result.1.padded = false

theorem indexAfter_spec {number : Value → Nat} {size : Value}
    {layout : (Bool × List FieldLayout) × Accum}
    (hlayout : LayoutSpec acc env number sizesRev layout)
    (hsizes : Sizes acc env number (size :: sizesRev))
    (hfit : endRev ((size :: sizesRev).map number) ≤ 2 ^ 32) :
    IndexSpec acc env number size sizesRev (indexAfter size layout) := by
  obtain ⟨haccum, haccumWord⟩ := hlayout.laid.accumSize
  have hsize := hsizes.known size List.mem_cons_self
  have hlegal := hsizes.legal size List.mem_cons_self
  have hnumber : (size.eval (layout.2.env env)).toNat = number size := by
    rw [hlayout.ext.eval hsize env]
    exact hsizes.eval size List.mem_cons_self
  have hend : endRev (sizesRev.map number) + number size ≤ 2 ^ 32 := by
    have hle := endRev_le_indexRev hlegal.pos (sizesRev.map number)
    rw [List.map_cons, endRev_cons] at hfit
    omega
  have hyields := alignSize_yields env hlayout.ext.ok hlayout.ext.le
    haccum.known haccum.fresh hsize (by rw [hnumber]; exact hlegal)
    (by rw [haccum.eval, hnumber]; exact hend)
  rw [haccum.eval, hnumber] at hyields
  have hwords : (∀ value ∈ size :: sizesRev, value.IsWord) →
      (alignSize layout.2 (getAccumSizeRev layout.1.2) size).1.IsWord := by
    intro hall
    obtain ⟨word1, hword1⟩ := (haccumWord fun value hvalue =>
      hall value (List.mem_cons_of_mem size hvalue)).exists
    obtain ⟨word2, hword2⟩ := (hall size List.mem_cons_self).exists
    rw [hword1, hword2, alignSize_words]
    trivial
  have hstable : (getAccumSizeRev layout.1.2).eval
      ((alignSize layout.2 (getAccumSizeRev layout.1.2) size).2.env env) =
      (getAccumSizeRev layout.1.2).eval (layout.2.env env) :=
    hyields.ext.eval haccum.known env
  exact {
    ext := hlayout.ext.trans hyields.ext
    laid := hlayout.laid.extend hyields.ext
    index := hyields.names hlayout.ext.le
    words := hwords
    var := by
      intro hvar
      obtain ⟨x, rfl⟩ := Value.exists_var hvar
      exact alignSize_var _ _ x
    noGap := by
      intro hpadded
      obtain ⟨hbefore, hdiffer⟩ := Bool.or_eq_false_iff.mp hpadded
      have heq := mayDiffer_eq_false hdiffer
        ((alignSize layout.2 (getAccumSizeRev layout.1.2) size).2.env env)
      have hnat := congrArg BitVec.toNat heq
      rw [hstable, haccum.eval, hyields.eval] at hnat
      exact ⟨hnat.symm, hlayout.noGap hbefore⟩
    padded := by
      intro hall hgap
      have hbefore := hlayout.padded
        (fun value hvalue => hall value (List.mem_cons_of_mem size hvalue)) hgap.2
      refine Bool.or_eq_false_iff.mpr ⟨hbefore, ?_⟩
      apply mayDiffer_words
        ((alignSize layout.2 (getAccumSizeRev layout.1.2) size).2.env env)
        (haccumWord fun value hvalue =>
          hall value (List.mem_cons_of_mem size hvalue)) (hwords hall)
      apply BitVec.eq_of_toNat_eq
      rw [hstable, haccum.eval, hyields.eval]
      exact hgap.1.symm }

theorem computeLayoutRev_spec (hok : acc.Ok) {number : Value → Nat}
    (hsizes : Sizes acc env number sizesRev)
    (hfit : endRev (sizesRev.map number) < 2 ^ 32) :
    LayoutSpec acc env number sizesRev (computeLayoutRev acc sizesRev) := by
  induction sizesRev with
  | nil => exact ⟨Extends.refl hok, trivial, fun _ => trivial, fun _ _ => rfl⟩
  | cons size sizesRev ih =>
    have hlegal := hsizes.legal size List.mem_cons_self
    have hmono := endRev_mono hlegal.pos (sizesRev.map number)
    have hlayout := ih hsizes.tail (Nat.lt_of_le_of_lt hmono hfit)
    have hindex := indexAfter_spec hlayout hsizes hfit.le
    have hsize := hsizes.known size List.mem_cons_self
    rw [computeLayoutRev]
    generalize indexAfter size (computeLayoutRev acc sizesRev) = index at *
    have hsep : Separate index.1.fieldIndex size :=
      separate_of_fresh_known hindex.index.fresh hsize
    have hext := compute_extends .add hindex.ext.ok hsep
    have hknown := compute_known .add hindex.ext.ok hindex.index.known
      (hindex.ext.known hsize)
    have heval := compute_eval .add index.1.fieldIndex size
      hindex.ext.ok env
    have hfresh : (compute index.2 (.op .add index.1.fieldIndex size)).1.Fresh
        acc.next := by
      cases hcase : size with
      | word n =>
        exact compute_fresh .add hindex.ext.ok hindex.ext.le hindex.index.fresh
          (Value.fresh_word _ n)
      | var x =>
        -- The index is a variable too, so the sum is a new one.
        have hvar : ¬ index.1.fieldIndex.IsWord := hindex.var (by
          rw [hcase]
          exact id)
        obtain ⟨y, hy⟩ := Value.exists_var hvar
        apply Value.Fresh.mono _ hindex.ext.le
        apply compute_fresh_of hindex.ext.ok
        intro value hvalue
        rw [hy] at hvalue
        exact absurd hvalue (commute_ne_value _ _ _ _)
    have hsum : ((compute index.2 (.op .add index.1.fieldIndex size)).1.eval
        ((compute index.2 (.op .add index.1.fieldIndex size)).2.env env)).toNat =
        endRev ((size :: sizesRev).map number) := by
      have hnumber : (size.eval (index.2.env env)).toNat = number size := by
        rw [hindex.ext.eval hsize env]
        exact hsizes.eval size List.mem_cons_self
      rw [heval]
      simp only [evalOp2]
      rw [BitVec.toNat_add, hindex.index.eval, hnumber, List.map_cons, endRev_cons]
      rw [List.map_cons, endRev_cons] at hfit
      exact Nat.mod_eq_of_lt hfit
    exact {
      ext := hindex.ext.trans hext
      laid := ⟨{
          index := hindex.index.extend hext
          accum := ⟨hknown, hfresh, hsum⟩
          words := by
            intro hall
            have hword := hindex.words hall
            obtain ⟨word1, hword1⟩ := hword.exists
            obtain ⟨word2, hword2⟩ := (hall size List.mem_cons_self).exists
            refine ⟨hword, ?_⟩
            rw [hword1, hword2, compute_words]
            trivial },
        hindex.laid.extend hext⟩
      noGap := hindex.noGap
      padded := hindex.padded }

end RecordLayout

end SmlSharp
