/-
The bitmap of a record: the widths of the fields in bits, and the words that
are built from the last field to the first by shifting and setting the lowest
bit.
-/
import SmlSharp.Lib.BitWords
import SmlSharp.RecordLayout.Layout

namespace SmlSharp

namespace RecordLayout

/-- A field as `computeBitIndex` takes it. -/
structure BitSource where
  tag : Value
  index : Value
  accumSize : Value
deriving DecidableEq, Repr

structure Bit where
  tag : Value
  bitWidth : Value
deriving DecidableEq, Repr

structure Bitmap where
  maxNumBits : Nat
  words : List Value
deriving DecidableEq, Repr

def Target.maxShift (target : Target) : Nat := maxSize / target.pointerSize

def estimateMaxShift (target : Target) : Value → Nat
  | .word word => word.toNat
  | .var _ => target.maxShift

/-- The declarations made to estimate the width of the last field are dropped
again; the identifiers they took stay taken. -/
def computeBitIndex (target : Target) (acc : Accum) :
    List BitSource → (Value × List Bit) × Accum
  | [] => ((.word 0, []), acc)
  | [source] =>
    let bitIndex := compute acc (.op .div source.index (.word target.pointerWord))
    let totalBits := compute bitIndex.2
      (.op .div source.accumSize (.word target.pointerWord))
    let tmpBitWidth := compute totalBits.2 (.op .sub totalBits.1 bitIndex.1)
    let bitWidth := Value.word
      (BitVec.ofNat 32 (estimateMaxShift target tmpBitWidth.1))
    ((bitIndex.1, [⟨source.tag, bitWidth⟩]),
      { bitIndex.2 with next := tmpBitWidth.2.next })
  | source :: sources =>
    let next := computeBitIndex target acc sources
    let bitIndex := compute next.2 (.op .div source.index (.word target.pointerWord))
    let bitWidth := compute bitIndex.2 (.op .sub next.1.1 bitIndex.1)
    ((bitIndex.1, ⟨source.tag, bitWidth.1⟩ :: next.1.2), bitWidth.2)

def emptyBitmap : Bitmap := ⟨0, []⟩

def setBitmapBit (acc : Accum) (bitmap : Bitmap) (bit : Value) : Bitmap × Accum :=
  match bitmap.words with
  | [] => (⟨1, [bit]⟩, acc)
  | word :: words =>
    let low := compute acc (.op .or word bit)
    (⟨bitmap.maxNumBits, low.1 :: words⟩, low.2)

/-- The loop over the words.  The first row binds a `word` of its own; in the
second row `word` is the one of the enclosing function, the first word of the
whole bitmap, in every iteration. -/
def shiftLoop (maxShift : Nat) (lshift rshift word : Value) (acc : Accum) :
    Value → List Value → Int → (Value × List Value) × Accum
  | word, [], numBits =>
    if numBits + maxShift ≤ bitmapWordBits then
      let low := compute acc (.op .lshift word lshift)
      ((low.1, []), low.2)
    else
      let low := compute acc (.op .lshift word lshift)
      let high := compute low.2 (.op .rshift word rshift)
      ((low.1, [high.1]), high.2)
  | _, word2 :: words, numBits =>
    let rest := shiftLoop maxShift lshift rshift word acc word2 words
      (numBits - bitmapWordBits)
    let word1 := compute rest.2 (.op .lshift word lshift)
    let carry := compute word1.2 (.op .rshift word rshift)
    let word2 := compute carry.2 (.op .or rest.1.1 carry.1)
    ((word1.1, word2.1 :: rest.1.2), word2.2)

/-- `lshift` must be less than `bitmapWordBits`. -/
def shiftBitmap (target : Target) (acc : Accum) (bitmap : Bitmap) (lshift : Value) :
    Bitmap × Accum :=
  if lshift = .word 0 then (bitmap, acc)
  else
    match bitmap.words with
    | [] => (⟨estimateMaxShift target lshift, [.word 0]⟩, acc)
    | word :: words =>
      let maxShift := estimateMaxShift target lshift
      let rshift := compute acc
        (.op .sub (.word (BitVec.ofNat 32 bitmapWordBits)) lshift)
      let shifted := shiftLoop maxShift lshift rshift.1 word rshift.2 word words
        bitmap.maxNumBits
      (⟨bitmap.maxNumBits + maxShift, shifted.1.1 :: shifted.1.2⟩, shifted.2)

def computeRecordBitmap (target : Target) (acc : Accum) :
    List Bit → Bitmap × Accum
  | [] => (emptyBitmap, acc)
  | bit :: bits =>
    let bitmap := computeRecordBitmap target acc bits
    let shifted := shiftBitmap target bitmap.2 bitmap.1 bit.bitWidth
    setBitmapBit shifted.2 shifted.1 bit.tag

/-! ## Shifting -/

theorem Target.maxShift_pos (target : Target) : 0 < target.maxShift := by
  rcases target.supported with heq | heq <;> simp [Target.maxShift, maxSize, heq]

theorem Target.maxShift_le (target : Target) : target.maxShift ≤ 2 := by
  rcases target.supported with heq | heq <;> simp [Target.maxShift, maxSize, heq]

/-- The values of a list of values. -/
def evalWords (acc : Accum) (env : Env) (words : List Value) : List Word32 :=
  words.map (Value.eval (acc.env env))

theorem Extends.evalWords {acc acc' : Accum} (hext : Extends acc acc')
    {words : List Value} (hknown : ∀ word ∈ words, word.Known acc.next) (env : Env) :
    evalWords acc' env words = evalWords acc env words :=
  List.map_congr_left fun word hword => hext.eval (hknown word hword) env

/-- Words computed since `base`, with their values. -/
structure WordsOk (acc : Accum) (base : Nat) (env : Env) (words : List Value)
    (expected : List Word32) : Prop where
  known : ∀ word ∈ words, word.Known acc.next
  fresh : ∀ word ∈ words, word.Fresh base
  eval : RecordLayout.evalWords acc env words = expected

variable {acc acc' : Accum} {base : Nat} {env : Env} {expected : List Word32}
  {lshift result : Value} {bitmap : Bitmap} {target : Target} {source : BitSource}
  {sources : List BitSource}

theorem WordsOk.extend {words : List Value}
    (hwords : WordsOk acc base env words expected) (hext : Extends acc acc') :
    WordsOk acc' base env words expected where
  known := fun word hword => hext.known (hwords.known word hword)
  fresh := hwords.fresh
  eval := by rw [hext.evalWords hwords.known, hwords.eval]

theorem WordsOk.nil (acc : Accum) (base : Nat) (env : Env) :
    WordsOk acc base env [] [] :=
  ⟨fun _ hword => absurd hword List.not_mem_nil,
    fun _ hword => absurd hword List.not_mem_nil, rfl⟩

theorem WordsOk.cons {word : Value} {words : List Value} {first : Word32}
    (hknown : word.Known acc.next) (hfresh : word.Fresh base)
    (heval : word.eval (acc.env env) = first)
    (hwords : WordsOk acc base env words expected) :
    WordsOk acc base env (word :: words) (first :: expected) where
  known := by
    intro value hvalue
    rcases List.mem_cons.mp hvalue with rfl | hrest
    · exact hknown
    · exact hwords.known value hrest
  fresh := by
    intro value hvalue
    rcases List.mem_cons.mp hvalue with rfl | hrest
    · exact hfresh
    · exact hwords.fresh value hrest
  eval := by
    have heq := hwords.eval
    rw [RecordLayout.evalWords] at heq ⊢
    rw [List.map_cons, heval, heq]

theorem WordsOk.length {acc : Accum} {base : Nat} {env : Env} {words : List Value}
    {expected : List Word32} (hwords : WordsOk acc base env words expected) :
    expected.length = words.length := by
  rw [← hwords.eval, RecordLayout.evalWords, List.length_map]

/-- The operands of the shifts of one bitmap: `lshift` is older than the bitmap,
`rshift` is younger than its words. -/
structure ShiftOperands (acc : Accum) (base bound : Nat) (env : Env) (amount : Nat)
    (lshift rshift : Value) : Prop where
  ok : acc.Ok
  base_le : base ≤ bound
  bound_le : bound ≤ acc.next
  lshift_known : lshift.Known base
  lshift_eval : (lshift.eval (acc.env env)).toNat = amount
  rshift_known : rshift.Known acc.next
  rshift_fresh : rshift.Fresh bound
  rshift_eval : (rshift.eval (acc.env env)).toNat = bitmapWordBits - amount
  amount_lt : amount < bitmapWordBits

theorem ShiftOperands.extend {bound : Nat}
    {amount : Nat} {rshift : Value}
    (hops : ShiftOperands acc base bound env amount lshift rshift)
    (hext : Extends acc acc') :
    ShiftOperands acc' base bound env amount lshift rshift where
  ok := hext.ok
  base_le := hops.base_le
  bound_le := Nat.le_trans hops.bound_le hext.le
  lshift_known := hops.lshift_known
  lshift_eval := by
    rw [hext.eval (hops.lshift_known.mono (Nat.le_trans hops.base_le hops.bound_le)),
      hops.lshift_eval]
  rshift_known := hext.known hops.rshift_known
  rshift_fresh := hops.rshift_fresh
  rshift_eval := by rw [hext.eval hops.rshift_known, hops.rshift_eval]
  amount_lt := hops.amount_lt

/-- A word of the bitmap before the shift. -/
structure OldWord (acc : Accum) (base bound : Nat) (env : Env) (word : Value)
    (value : Word32) : Prop where
  known : word.Known bound
  fresh : word.Fresh base
  eval : word.eval (acc.env env) = value

theorem OldWord.extend {bound : Nat}
    {word : Value} {value : Word32} (hword : OldWord acc base bound env word value)
    (hbound : bound ≤ acc.next) (hext : Extends acc acc') :
    OldWord acc' base bound env word value where
  known := hword.known
  fresh := hword.fresh
  eval := by rw [hext.eval (hword.known.mono hbound), hword.eval]

section Shift

variable {acc : Accum} {base bound : Nat} {env : Env} {amount : Nat}
  {lshift rshift word : Value} {value : Word32}

theorem normalizeLshift_value {left right : Value}
    (hresult : normalizeLshift left right = .value result) :
    left = result ∨ ∃ word, .word word = result := by
  revert hresult
  fun_cases normalizeLshift left right with
  | case5 left =>
    intro hresult
    rcases normalizeAdd_value hresult with heq | heq | hword
    · exact Or.inl heq
    · exact Or.inl heq
    · exact Or.inr hword
  | _ =>
    intro hresult
    cases hresult <;> simp

/-- Shifting by an amount that is not zero leaves no old variable. -/
theorem normalizeRshift_fresh {left right : Value} (hne : right ≠ .word 0)
    (hresult : normalizeRshift left right = .value result) :
    ∃ word, .word word = result := by
  revert hresult
  fun_cases normalizeRshift left right with
  | case4 => exact absurd rfl hne
  | _ =>
    intro hresult
    cases hresult <;> simp

theorem shift_low (hops : ShiftOperands acc base bound env amount lshift rshift)
    (hword : OldWord acc base bound env word value) :
    Computed acc env (value <<< amount) (compute acc (.op .lshift word lshift)) ∧
      (compute acc (.op .lshift word lshift)).1.Fresh base := by
  have hle := Nat.le_trans hops.base_le hops.bound_le
  constructor
  · have hcomputed := compute_computed .lshift hops.ok env
      (separate_of_fresh_known hword.fresh hops.lshift_known)
      (hword.known.mono hops.bound_le) (hops.lshift_known.mono hle)
    rw [hword.eval] at hcomputed
    simp only [evalOp2] at hcomputed
    rwa [hops.lshift_eval] at hcomputed
  · rcases compute_cases hops.ok .lshift word lshift with
      ⟨result, hnormal, hcompute⟩ | ⟨_, hcompute⟩
    · rw [hcompute]
      rcases normalizeLshift_value hnormal with rfl | ⟨n, rfl⟩
      · exact hword.fresh
      · trivial
    · rw [hcompute]
      exact hle

theorem shift_high (hops : ShiftOperands acc base bound env amount lshift rshift)
    (hword : OldWord acc base bound env word value) :
    Computed acc env (value >>> (bitmapWordBits - amount))
        (compute acc (.op .rshift word rshift)) ∧
      (compute acc (.op .rshift word rshift)).1.Fresh acc.next := by
  constructor
  · have hcomputed := compute_computed .rshift hops.ok env
      (separate_of_known_fresh hword.known hops.rshift_fresh)
      (hword.known.mono hops.bound_le) hops.rshift_known
    rw [hword.eval] at hcomputed
    simp only [evalOp2] at hcomputed
    rwa [hops.rshift_eval] at hcomputed
  · apply compute_fresh_of hops.ok
    intro result hresult
    have hne : rshift ≠ .word 0 := by
      intro heq
      have heval := hops.rshift_eval
      have hlt := hops.amount_lt
      rw [heq] at heval
      have hzero : (0 : Nat) = bitmapWordBits - amount := heval
      omega
    obtain ⟨n, rfl⟩ := normalizeRshift_fresh hne hresult
    trivial

theorem shift_low_runs (word : Value)
    (hops : ShiftOperands acc base bound env amount lshift rshift)
    (hruns : acc.Runs env) : (compute acc (.op .lshift word lshift)).2.Runs env := by
  apply compute_runs hruns
  intro _
  rw [Op2.isDefined, hops.lshift_eval]
  exact decide_eq_true hops.amount_lt

theorem compute_lshift_zero (acc : Accum) (amount : Value) :
    compute acc (.op .lshift (.word 0) amount) = (.word 0, acc) := by
  cases amount with
  | word n => simp [evalOp2]
  | var x => rfl

theorem compute_rshift_zero (acc : Accum) (amount : Value) :
    compute acc (.op .rshift (.word 0) amount) = (.word 0, acc) := by
  cases amount with
  | word n => simp [evalOp2]
  | var x => rfl

/-- The bits that are carried over come from a shift by the rest of the word, which
is the whole word where the field before has no width. -/
theorem shift_high_runs (word : Value)
    (hops : ShiftOperands acc base bound env amount lshift rshift)
    (hruns : acc.Runs env) (hcarry : 0 < amount ∨ word = .word 0) :
    (compute acc (.op .rshift word rshift)).2.Runs env := by
  rcases hcarry with hpos | rfl
  · apply compute_runs hruns
    intro _
    have hlt := hops.amount_lt
    rw [Op2.isDefined, hops.rshift_eval]
    apply decide_eq_true
    omega
  · rw [compute_rshift_zero]
    exact hruns

/-- The last word: its high bits go into a word of their own unless the bits
counted so far leave room for them. -/
theorem shiftLoop_last (maxShift : Nat) (outer : Value) (numBits : Int)
    (hops : ShiftOperands acc base bound env amount lshift rshift)
    (hword : OldWord acc base bound env word value) :
    let result := shiftLoop maxShift lshift rshift outer acc word [] numBits
    Extends acc result.2 ∧
      WordsOk result.2 base env (result.1.1 :: result.1.2)
        (if numBits + maxShift ≤ bitmapWordBits then [value <<< amount]
          else [value <<< amount, value >>> (bitmapWordBits - amount)]) ∧
      (acc.Runs env →
        numBits + maxShift ≤ bitmapWordBits ∨ 0 < amount ∨ word = .word 0 →
          result.2.Runs env) := by
  intro result
  obtain ⟨hlow, hlowFresh⟩ := shift_low hops hword
  by_cases hroom : numBits + maxShift ≤ bitmapWordBits
  · have hresult : result = (((compute acc (.op .lshift word lshift)).1, []),
        (compute acc (.op .lshift word lshift)).2) := by
      simp only [result, shiftLoop, if_pos hroom]
    rw [hresult, if_pos hroom]
    exact ⟨hlow.ext, WordsOk.cons hlow.known hlowFresh hlow.eval (WordsOk.nil _ _ _),
      fun hruns _ => shift_low_runs _ hops hruns⟩
  · have hresult : result = (((compute acc (.op .lshift word lshift)).1,
          [(compute (compute acc (.op .lshift word lshift)).2
            (.op .rshift word rshift)).1]),
        (compute (compute acc (.op .lshift word lshift)).2
          (.op .rshift word rshift)).2) := by
      simp only [result, shiftLoop, if_neg hroom]
    obtain ⟨hhigh, hhighFresh⟩ := shift_high (hops.extend hlow.ext)
      (hword.extend hops.bound_le hlow.ext)
    have hbase : base ≤ (compute acc (.op .lshift word lshift)).2.next :=
      Nat.le_trans hops.base_le (Nat.le_trans hops.bound_le hlow.ext.le)
    rw [hresult, if_neg hroom]
    refine ⟨hlow.ext.trans hhigh.ext, ?_, fun hruns hcarry => ?_⟩
    · apply WordsOk.cons (hhigh.ext.known hlow.known) hlowFresh
      · rw [hhigh.ext.eval hlow.known, hlow.eval]
      · exact WordsOk.cons hhigh.known (hhighFresh.mono hbase) hhigh.eval
          (WordsOk.nil _ _ _)
    · exact shift_high_runs _ (hops.extend hlow.ext) (shift_low_runs _ hops hruns)
        (hcarry.resolve_left hroom)

/-- Two words: the row that mixes up the words is right where the word it takes
is the first one. -/
theorem shiftLoop_two (maxShift : Nat) (numBits : Int) {word2 : Value}
    {value2 : Word32}
    (hops : ShiftOperands acc base bound env amount lshift rshift)
    (hword : OldWord acc base bound env word value)
    (hword2 : OldWord acc base bound env word2 value2) :
    let result := shiftLoop maxShift lshift rshift word acc word [word2] numBits
    Extends acc result.2 ∧
      WordsOk result.2 base env (result.1.1 :: result.1.2)
        (value <<< amount ::
          (value2 <<< amount ||| value >>> (bitmapWordBits - amount)) ::
          (if numBits - bitmapWordBits + maxShift ≤ bitmapWordBits then []
            else [value2 >>> (bitmapWordBits - amount)])) ∧
      (acc.Runs env → 0 < amount ∨ word = .word 0 ∧ word2 = .word 0 →
        result.2.Runs env) := by
  intro result
  obtain ⟨hrest, hrestWords, hrestRuns⟩ :=
    shiftLoop_last maxShift word (numBits - bitmapWordBits) hops hword2
  generalize hloop : shiftLoop maxShift lshift rshift word acc word2 []
    (numBits - bitmapWordBits) = rest at hrest hrestWords hrestRuns
  have hsplit : ∃ high, rest.1.1.Known rest.2.next ∧ rest.1.1.Fresh base ∧
      rest.1.1.eval (rest.2.env env) = value2 <<< amount ∧
      WordsOk rest.2 base env rest.1.2 high ∧
      high = (if numBits - bitmapWordBits + maxShift ≤ bitmapWordBits then []
        else [value2 >>> (bitmapWordBits - amount)]) := by
    have heval := hrestWords.eval
    refine ⟨evalWords rest.2 env rest.1.2,
      hrestWords.known _ List.mem_cons_self, hrestWords.fresh _ List.mem_cons_self,
      ?_, ⟨fun w hw => hrestWords.known w (List.mem_cons_of_mem _ hw),
        fun w hw => hrestWords.fresh w (List.mem_cons_of_mem _ hw), rfl⟩, ?_⟩
    · rw [evalWords, List.map_cons] at heval
      split at heval
      · exact (List.cons.inj heval).1
      · exact (List.cons.inj heval).1
    · rw [evalWords, List.map_cons] at heval
      split at heval
      · next hroom =>
          rw [if_pos hroom]
          exact (List.cons.inj heval).2
      · next hroom =>
          rw [if_neg hroom]
          exact (List.cons.inj heval).2
  obtain ⟨high, hknown, hfresh, heval, hhigh, hhighEq⟩ := hsplit
  have hresult : result =
      (((compute rest.2 (.op .lshift word lshift)).1,
        (compute (compute (compute rest.2 (.op .lshift word lshift)).2
          (.op .rshift word rshift)).2
          (.op .or rest.1.1 (compute (compute rest.2 (.op .lshift word lshift)).2
            (.op .rshift word rshift)).1)).1 :: rest.1.2),
        (compute (compute (compute rest.2 (.op .lshift word lshift)).2
          (.op .rshift word rshift)).2
          (.op .or rest.1.1 (compute (compute rest.2 (.op .lshift word lshift)).2
            (.op .rshift word rshift)).1)).2) := by
    simp only [result, shiftLoop.eq_def maxShift lshift rshift word acc word [word2],
      hloop]
  have hops1 := hops.extend hrest
  have hword1 := hword.extend hops.bound_le hrest
  obtain ⟨hlow, hlowFresh⟩ := shift_low hops1 hword1
  have hlowRuns := shift_low_runs word hops1
  generalize compute rest.2 (.op .lshift word lshift) = low at *
  have hops2 := hops1.extend hlow.ext
  have hword2' := hword1.extend hops1.bound_le hlow.ext
  obtain ⟨hcarry, hcarryFresh⟩ := shift_high hops2 hword2'
  have hcarryRuns := shift_high_runs word hops2
  generalize compute low.2 (.op .rshift word rshift) = carry at *
  have hbase2 : base ≤ low.2.next := Nat.le_trans hops2.base_le hops2.bound_le
  have hext2 := hlow.ext.trans hcarry.ext
  have hor := compute_computed .or hcarry.ext.ok env
    (separate_of_known_fresh (hlow.ext.known hknown) hcarryFresh)
    (hext2.known hknown) hcarry.known
  have horFresh := compute_fresh .or hcarry.ext.ok
    (Nat.le_trans hbase2 hcarry.ext.le) hfresh (hcarryFresh.mono hbase2)
  rw [hext2.eval hknown, heval, hcarry.eval] at hor
  have horRuns : carry.2.Runs env →
      (compute carry.2 (.op .or rest.1.1 carry.1)).2.Runs env :=
    fun hruns => compute_runs hruns fun _ => rfl
  generalize compute carry.2 (.op .or rest.1.1 carry.1) = combined at *
  rw [hresult]
  have hext3 := hcarry.ext.trans hor.ext
  refine ⟨hrest.trans (hlow.ext.trans hext3), ?_, fun hruns hzero => ?_⟩
  · apply WordsOk.cons (hext3.known hlow.known) hlowFresh
    · rw [hext3.eval hlow.known, hlow.eval]
    · apply WordsOk.cons hor.known horFresh hor.eval
      rw [← hhighEq]
      exact (hhigh.extend hext2).extend hor.ext
  · exact horRuns (hcarryRuns
      (hlowRuns (hrestRuns hruns (Or.inr (hzero.imp_right And.right))))
      (hzero.imp_right And.left))

end Shift

/-! ## The bitmap of a record -/

/-- A bitmap of at least one word, with as many words as its number of bits
calls for and no bit beyond that number. -/
structure BitmapOk (acc : Accum) (base : Nat) (env : Env) (bitmap : Bitmap)
    (words : List Word32) : Prop where
  wordsOk : WordsOk acc base env bitmap.words words
  pos : 1 ≤ words.length
  bits_le : bitmap.maxNumBits ≤ 32 * words.length
  lt_bits : 32 * (words.length - 1) < bitmap.maxNumBits
  bound : ∀ i, BitWords.bitAt words i = true → i < bitmap.maxNumBits

/-- What a shift gives: the bits move up, the number of bits grows by what the
amount is estimated at. -/
structure ShiftSpec (acc : Accum) (base : Nat) (env : Env) (bitmap : Bitmap)
    (words : List Word32) (amount maxShift : Nat) (result : Bitmap × Accum)
    (shifted : List Word32) : Prop where
  ext : Extends acc result.2
  ok : BitmapOk result.2 base env result.1 shifted
  maxNumBits : result.1.maxNumBits = bitmap.maxNumBits + maxShift
  bits : ∀ i, BitWords.bitAt shifted i =
    (decide (amount ≤ i) && BitWords.bitAt words (i - amount))
  runs : acc.Runs env → bitmap.maxNumBits + maxShift ≤ bitmapWordBits ∨ 0 < amount ∨
    (∀ word ∈ bitmap.words, word = .word 0) → result.2.Runs env

theorem shiftOperands_of (env : Env)
    (hok : acc.Ok) (hbase : base ≤ acc.next) (hlshift : lshift.Known base)
    (hamount : (lshift.eval (acc.env env)).toNat < bitmapWordBits) :
    let rshift := compute acc (.op .sub (.word (BitVec.ofNat 32 bitmapWordBits)) lshift)
    Extends acc rshift.2 ∧
      ShiftOperands rshift.2 base acc.next env (lshift.eval (acc.env env)).toNat
        lshift rshift.1 := by
  intro rshift
  have hcomputed : Computed acc env _ rshift :=
    compute_computed .sub hok env (separate_word_left _ lshift)
      (Value.known_word _ _) (hlshift.mono hbase)
  have hfresh : rshift.1.Fresh acc.next := by
    apply compute_fresh_of hok
    intro value hvalue
    cases lshift with
    | word n =>
      cases hvalue
      trivial
    | var x => exact absurd hvalue (by simp [normalizeExp, normalizeSub])
  refine ⟨hcomputed.ext, ?_⟩
  exact {
    ok := hcomputed.ext.ok
    base_le := hbase
    bound_le := hcomputed.ext.le
    lshift_known := hlshift
    lshift_eval := by rw [hcomputed.ext.eval (hlshift.mono hbase)]
    rshift_known := hcomputed.known
    rshift_fresh := hfresh
    rshift_eval := by
      have hconst : ((Value.word (BitVec.ofNat 32 bitmapWordBits)).eval
          (acc.env env)).toNat = bitmapWordBits := rfl
      rw [hcomputed.eval, evalOp2, BitVec.toNat_sub, hconst]
      unfold bitmapWordBits bitmapWordSize at *
      omega
    amount_lt := hamount }

/-- The words of a shift: the shifted string has one word more, which is left
out where the number of bits does not reach it. -/
theorem ShiftSpec.of_words {words shifted : List Word32} {amount maxShift : Nat}
    {values : List Value} (hbitmap : BitmapOk acc base env bitmap words)
    (hext : Extends acc acc') (hvalues : WordsOk acc' base env values shifted)
    (hle : amount ≤ maxShift) (hmax : maxShift ≤ 32)
    (hshifted : (bitmap.maxNumBits + maxShift ≤ 32 * words.length ∧
        ∃ last, shifted ++ [last] = BitWords.shiftLeft amount 0 words) ∨
      (32 * words.length < bitmap.maxNumBits + maxShift ∧
        shifted = BitWords.shiftLeft amount 0 words))
    (hruns : acc.Runs env → bitmap.maxNumBits + maxShift ≤ bitmapWordBits ∨
      0 < amount ∨ (∀ word ∈ bitmap.words, word = .word 0) → acc'.Runs env) :
    ShiftSpec acc base env bitmap words amount maxShift
      (⟨bitmap.maxNumBits + maxShift, values⟩, acc') shifted := by
  have hpos := hbitmap.pos
  have hbitsLe := hbitmap.bits_le
  have hltBits := hbitmap.lt_bits
  have hall := BitWords.bitAt_shiftLeft_zero (hle.trans hmax) words
  have hlength := BitWords.length_shiftLeft amount 0 words
  have hmoved : ∀ i, (decide (amount ≤ i) && BitWords.bitAt words (i - amount)) = true →
      i < bitmap.maxNumBits + maxShift := by
    intro i hbit
    obtain ⟨hi, hbit⟩ := Bool.and_eq_true_iff.mp hbit
    have hlt := hbitmap.bound _ hbit
    have hi := of_decide_eq_true hi
    omega
  have hbits : ∀ i, BitWords.bitAt shifted i =
      (decide (amount ≤ i) && BitWords.bitAt words (i - amount)) := by
    rcases hshifted with ⟨hroom, last, hlast⟩ | ⟨_, rfl⟩
    · have hsame : shifted.length = words.length := by
        have hlen := congrArg List.length hlast
        rw [List.length_append, hlength] at hlen
        simpa using hlen
      intro i
      rw [← hall i, ← hlast]
      refine (BitWords.bitAt_append_of_bound ?_ i).symm
      intro j hbit
      rw [hlast, hall j] at hbit
      have hj := hmoved j hbit
      rw [hsame]
      omega
    · exact hall
  have hlen : (shifted.length = words.length ∧
        bitmap.maxNumBits + maxShift ≤ 32 * words.length) ∨
      (shifted.length = words.length + 1 ∧
        32 * words.length < bitmap.maxNumBits + maxShift) := by
    rcases hshifted with ⟨hroom, last, hlast⟩ | ⟨hover, rfl⟩
    · left
      have hlen := congrArg List.length hlast
      rw [List.length_append, hlength] at hlen
      exact ⟨by simpa using hlen, hroom⟩
    · exact Or.inr ⟨hlength, hover⟩
  exact {
    ext := hext
    ok := {
      wordsOk := hvalues
      pos := by omega
      bits_le := by
        show bitmap.maxNumBits + maxShift ≤ 32 * shifted.length
        omega
      lt_bits := by
        show 32 * (shifted.length - 1) < bitmap.maxNumBits + maxShift
        omega
      bound := fun i hbit => hmoved i ((hbits i).symm.trans hbit) }
    maxNumBits := rfl
    bits := hbits
    runs := hruns }

/-- Shifting a bitmap of at most two words is right. -/
theorem shiftBitmap_spec {words : List Word32}
    (hok : acc.Ok) (hbase : base ≤ acc.next)
    (hbitmap : BitmapOk acc base env bitmap words) (hlen : words.length ≤ 2)
    (hlshift : lshift.Known base) (hne : lshift ≠ .word 0)
    (hle : (lshift.eval (acc.env env)).toNat ≤ estimateMaxShift target lshift)
    (hmax : estimateMaxShift target lshift ≤ 2) :
    ∃ shifted, ShiftSpec acc base env bitmap words (lshift.eval (acc.env env)).toNat
      (estimateMaxShift target lshift) (shiftBitmap target acc bitmap lshift)
      shifted := by
  have hbits : bitmapWordBits = 32 := rfl
  obtain ⟨hext, hops⟩ := shiftOperands_of env hok hbase hlshift (by omega)
  have hsubRuns : acc.Runs env →
      (compute acc (.op .sub (.word (BitVec.ofNat 32 bitmapWordBits)) lshift)).2.Runs
        env := fun hruns => compute_runs hruns fun _ => rfl
  generalize hamountEq : (lshift.eval (acc.env env)).toNat = amount at *
  generalize hmaxEq : estimateMaxShift target lshift = maxShift at *
  have hlength := hbitmap.wordsOk.length
  have hpos := hbitmap.pos
  have heval := hbitmap.wordsOk.eval
  have hor : ∀ word : Word32, word ||| 0 = word := fun word => BitVec.or_zero
  unfold shiftBitmap
  rw [if_neg hne]
  generalize hrshift : compute acc
    (.op .sub (.word (BitVec.ofNat 32 bitmapWordBits)) lshift) = rshift at *
  have hold : ∀ word ∈ bitmap.words,
      OldWord rshift.2 base acc.next env word (word.eval (acc.env env)) := by
    intro word hword
    refine ⟨hbitmap.wordsOk.known word hword, hbitmap.wordsOk.fresh word hword, ?_⟩
    rw [hext.eval (hbitmap.wordsOk.known word hword)]
  match hwords : bitmap.words with
  | [] =>
    rw [hwords] at hlength
    simp only [List.length_nil] at hlength
    omega
  | [word] =>
    rw [hwords, evalWords, List.map_cons, List.map_nil] at heval
    obtain ⟨hloop, hloopWords, hloopRuns⟩ := shiftLoop_last maxShift word bitmap.maxNumBits
      hops (hold word (by rw [hwords]; exact List.mem_cons_self))
    simp only [hmaxEq]
    refine ⟨_, ShiftSpec.of_words hbitmap (hext.trans hloop) hloopWords hle
      (by omega) ?_ ?_⟩
    · rw [← heval]
      simp only [BitWords.shiftLeft, hor, hbits, List.length_singleton]
      by_cases hroom : (bitmap.maxNumBits : Int) + maxShift ≤ (32 : Nat)
      · rw [if_pos hroom]
        exact Or.inl ⟨by omega, _, rfl⟩
      · rw [if_neg hroom]
        exact Or.inr ⟨by omega, rfl⟩
    · rintro hruns (hroom | hpos | hzero)
      · exact hloopRuns (hsubRuns hruns) (Or.inl (by omega))
      · exact hloopRuns (hsubRuns hruns) (Or.inr (Or.inl hpos))
      · exact hloopRuns (hsubRuns hruns)
          (Or.inr (Or.inr (hzero word (by simp [hwords]))))
  | [word1, word2] =>
    rw [hwords, evalWords, List.map_cons, List.map_cons, List.map_nil] at heval
    obtain ⟨hloop, hloopWords, hloopRuns⟩ := shiftLoop_two maxShift bitmap.maxNumBits
      hops (hold word1 (by rw [hwords]; exact List.mem_cons_self))
      (hold word2 (by
        rw [hwords]
        exact List.mem_cons_of_mem _ List.mem_cons_self))
    simp only [hmaxEq]
    refine ⟨_, ShiftSpec.of_words hbitmap (hext.trans hloop) hloopWords hle
      (by omega) ?_ ?_⟩
    · rw [← heval]
      simp only [BitWords.shiftLeft, hor, hbits, List.length_cons, List.length_nil]
      by_cases hroom : (bitmap.maxNumBits : Int) - (32 : Nat) + maxShift ≤ (32 : Nat)
      · rw [if_pos hroom]
        exact Or.inl ⟨by omega, _, rfl⟩
      · rw [if_neg hroom]
        exact Or.inr ⟨by omega, rfl⟩
    · rintro hruns (hroom | hpos | hzero)
      · -- two words hold more bits than there would be room for
        have hlt := hbitmap.lt_bits
        rw [hwords, List.length_cons, List.length_singleton] at hlength
        omega
      · exact hloopRuns (hsubRuns hruns) (Or.inl hpos)
      · exact hloopRuns (hsubRuns hruns) (Or.inr
          ⟨hzero word1 (by simp [hwords]), hzero word2 (by simp [hwords])⟩)
  | _ :: _ :: _ :: _ =>
    rw [hwords] at hlength
    simp only [List.length_cons] at hlength
    omega

theorem normalizeOr_value {left right : Value}
    (hresult : normalizeOr left right = .value result) :
    left = result ∨ ∃ word, .word word = result := by
  revert hresult
  fun_cases normalizeOr left right <;> intro hresult <;>
    first
      | exact absurd hresult (commute_ne_value _ _ _ _)
      | (cases hresult; simp)

/-- Setting the lowest bit of a bitmap. -/
theorem setBitmapBit_spec
    {words : List Word32} {bit : Value} (hok : acc.Ok) (hbase : base ≤ acc.next)
    (hbitmap : BitmapOk acc base env bitmap words) (hbit : bit.Known base)
    (hvalue : bit.eval (acc.env env) = 0 ∨ bit.eval (acc.env env) = 1) :
    ∃ set, Extends acc (setBitmapBit acc bitmap bit).2 ∧
      BitmapOk (setBitmapBit acc bitmap bit).2 base env
        (setBitmapBit acc bitmap bit).1 set ∧
      (setBitmapBit acc bitmap bit).1.maxNumBits = bitmap.maxNumBits ∧
      ∀ i, BitWords.bitAt set i = (BitWords.bitAt words i ||
        (decide (i = 0) && decide (bit.eval (acc.env env) = 1))) := by
  have hlength := hbitmap.wordsOk.length
  have hpos := hbitmap.pos
  have hltBits := hbitmap.lt_bits
  have heval := hbitmap.wordsOk.eval
  unfold setBitmapBit
  match hwords : bitmap.words with
  | [] =>
    rw [hwords] at hlength
    simp only [List.length_nil] at hlength
    omega
  | word :: rest =>
    have hmem : word ∈ bitmap.words := by
      rw [hwords]
      exact List.mem_cons_self
    have hknown := hbitmap.wordsOk.known word hmem
    have hfresh := hbitmap.wordsOk.fresh word hmem
    rw [hwords, evalWords, List.map_cons] at heval
    have hlow := compute_computed .or hok env
      (separate_of_fresh_known hfresh hbit) hknown (hbit.mono hbase)
    have hlowFresh : (compute acc (.op .or word bit)).1.Fresh base := by
      rcases compute_cases hok .or word bit with
        ⟨result, hnormal, hcompute⟩ | ⟨_, hcompute⟩
      · rw [hcompute]
        rcases normalizeOr_value hnormal with rfl | ⟨n, rfl⟩
        · exact hfresh
        · trivial
      · rw [hcompute]
        exact hbase
    have hrest : WordsOk acc base env rest (rest.map (Value.eval (acc.env env))) := by
      refine ⟨fun value hvalue => ?_, fun value hvalue => ?_, rfl⟩
      · exact hbitmap.wordsOk.known value (by
          rw [hwords]
          exact List.mem_cons_of_mem word hvalue)
      · exact hbitmap.wordsOk.fresh value (by
          rw [hwords]
          exact List.mem_cons_of_mem word hvalue)
    have hbits := BitWords.bitAt_or_low (by decide) (word.eval (acc.env env)) _
      (rest.map (Value.eval (acc.env env))) hvalue
    have hset := WordsOk.cons hlow.known hlowFresh hlow.eval
      (hrest.extend hlow.ext)
    rw [heval] at hbits
    refine ⟨_, hlow.ext, ⟨hset, ?_, ?_, ?_, ?_⟩, rfl, hbits⟩
    · simp
    · have hle := hbitmap.bits_le
      rw [← heval] at hle
      simpa using hle
    · rw [← heval] at hltBits
      simpa using hltBits
    · intro i hbit
      have hor := (hbits i).symm.trans hbit
      rcases Bool.or_eq_true_iff.mp hor with hold | hnew
      · exact hbitmap.bound i hold
      · have hzero := of_decide_eq_true (Bool.and_eq_true_iff.mp hnew).1
        show i < bitmap.maxNumBits
        omega

theorem setBitmapBit_runs {bit : Value} (hruns : acc.Runs env) :
    (setBitmapBit acc bitmap bit).2.Runs env := by
  unfold setBitmapBit
  split
  · exact hruns
  · exact compute_runs hruns fun _ => rfl

/-! ### Bitmaps of zeros -/

theorem shiftLoop_zero (maxShift : Nat) (lshift rshift : Value) (acc : Accum)
    {words : List Value} (hwords : ∀ word ∈ words, word = .word 0) (numBits : Int) :
    let result := shiftLoop maxShift lshift rshift (.word 0) acc (.word 0) words numBits
    ∀ word ∈ result.1.1 :: result.1.2, word = .word 0 := by
  induction words generalizing numBits with
  | nil =>
    simp only [shiftLoop, compute_lshift_zero, compute_rshift_zero]
    split <;> simp
  | cons word words ih =>
    obtain rfl := hwords word List.mem_cons_self
    have hrest := ih (fun word hword => hwords word (List.mem_cons_of_mem _ hword))
      (numBits - bitmapWordBits)
    rw [List.forall_mem_cons] at hrest
    simp only [shiftLoop, compute_lshift_zero, compute_rshift_zero, hrest.1,
      compute_words, List.forall_mem_cons]
    exact ⟨trivial, rfl, hrest.2⟩

theorem shiftBitmap_zero (target : Target) (acc : Accum) (lshift : Value)
    (hwords : ∀ word ∈ bitmap.words, word = .word 0) :
    ∀ word ∈ (shiftBitmap target acc bitmap lshift).1.words, word = .word 0 := by
  unfold shiftBitmap
  split
  · exact hwords
  · split
    · simp
    · next word words heq =>
      rw [heq, List.forall_mem_cons] at hwords
      obtain ⟨rfl, hwords⟩ := hwords
      exact shiftLoop_zero _ _ _ _ hwords _

/-- Fields with the tag 0 give words that are known to be zero. -/
theorem computeRecordBitmap_zero {bits : List Bit} (hbits : ∀ bit ∈ bits, bit.tag = .word 0) :
    ∀ word ∈ (computeRecordBitmap target acc bits).1.words, word = .word 0 := by
  induction bits with
  | nil => simp [computeRecordBitmap, emptyBitmap]
  | cons bit bits ih =>
    obtain ⟨htag, hbits⟩ := List.forall_mem_cons.mp hbits
    have hshifted := shiftBitmap_zero target (computeRecordBitmap target acc bits).2 bit.bitWidth
      (ih hbits)
    rw [computeRecordBitmap, setBitmapBit, htag]
    generalize shiftBitmap target _ _ bit.bitWidth = shifted at *
    split
    · simp
    · next word words heq =>
      rw [heq, List.forall_mem_cons] at hshifted
      obtain ⟨rfl, hwords⟩ := hshifted
      simpa [evalOp2] using hwords

/-! ## The widths of the fields -/

/-- The number of the pointer word a position is in. -/
def bitIndexOf (target : Target) (number : Value → Nat) (position : Value) : Nat :=
  number position / target.pointerSize

/-- The position a field ends at for the bitmap: the start of the next field, or
the end of the record. -/
def nextPosition (finish : Value) : List BitSource → Value
  | [] => finish
  | source :: _ => source.index

/-- The width of one field, between two positions.  The last width is never
used for a shift, so only its estimate matters. -/
structure WidthOk (target : Target) (acc : Accum) (env : Env) (number : Value → Nat)
    (low high : Value) (last : Prop) (bitWidth : Value) : Prop where
  known : bitWidth.Known acc.next
  eval : ¬ last → (bitWidth.eval (acc.env env)).toNat =
    bitIndexOf target number high - bitIndexOf target number low
  bound : bitIndexOf target number high - bitIndexOf target number low ≤
    estimateMaxShift target bitWidth
  words : low.IsWord → high.IsWord → bitWidth = .word (BitVec.ofNat 32
    (bitIndexOf target number high - bitIndexOf target number low))
  estimate : estimateMaxShift target bitWidth ≤ target.maxShift

def Widths (target : Target) (acc : Accum) (env : Env) (number : Value → Nat)
    (finish : Value) : List BitSource → List Bit → Prop
  | [], [] => True
  | source :: sources, bit :: bits =>
    bit.tag = source.tag ∧
      WidthOk target acc env number source.index (nextPosition finish sources)
        (sources = []) bit.bitWidth ∧
      Widths target acc env number finish sources bits
  | _, _ => False

theorem Widths.cons {number : Value → Nat} {finish : Value} {bits : List Bit}
    (hwidths : Widths target acc env number finish (source :: sources) bits) :
    ∃ bit rest, bits = bit :: rest ∧ bit.tag = source.tag ∧
      WidthOk target acc env number source.index (nextPosition finish sources)
        (sources = []) bit.bitWidth ∧
      Widths target acc env number finish sources rest := by
  cases bits with
  | nil => exact hwidths.elim
  | cons bit rest => exact ⟨bit, rest, rfl, hwidths⟩

theorem Widths.single {number : Value → Nat} {finish : Value} {bits : List Bit}
    (hwidths : Widths target acc env number finish [source] bits) :
    ∃ bit, bits = [bit] ∧ bit.tag = source.tag ∧
      WidthOk target acc env number source.index (nextPosition finish [])
        (([] : List BitSource) = []) bit.bitWidth := by
  obtain ⟨bit, rest, rfl, htag, hwidth, hrest⟩ := hwidths.cons
  cases rest with
  | nil => exact ⟨bit, rfl, htag, hwidth⟩
  | cons next rest => exact hrest.elim

theorem Widths.tags {number : Value → Nat} {finish : Value} {bits : List Bit}
    (hwidths : Widths target acc env number finish sources bits) :
    bits.map Bit.tag = sources.map BitSource.tag := by
  induction sources generalizing bits with
  | nil =>
    cases bits with
    | nil => rfl
    | cons bit bits => exact absurd hwidths id
  | cons source sources ih =>
    obtain ⟨bit, rest, rfl, htag, -, hrest⟩ := hwidths.cons
    rw [List.map_cons, List.map_cons, htag, ih hrest]

theorem Widths.extend {number : Value → Nat} {finish : Value}
    {bits : List Bit} (hwidths : Widths target acc env number finish sources bits)
    (hext : Extends acc acc') : Widths target acc' env number finish sources bits := by
  induction sources generalizing bits with
  | nil =>
    cases bits with
    | nil => trivial
    | cons bit bits => exact absurd hwidths id
  | cons source sources ih =>
    cases bits with
    | nil => exact absurd hwidths id
    | cons bit bits =>
      obtain ⟨htag, hwidth, hrest⟩ := hwidths
      refine ⟨htag, { hwidth with known := hext.known hwidth.known, eval := ?_ },
        ih hrest⟩
      intro hlast
      rw [hext.eval hwidth.known, hwidth.eval hlast]

/-- What is assumed of the positions of the fields. -/
structure Positions (target : Target) (acc : Accum) (env : Env)
    (number : Value → Nat) (low high : Value) : Prop where
  low_known : low.Known acc.next
  high_known : high.Known acc.next
  low_eval : (low.eval (acc.env env)).toNat = number low
  high_eval : (high.eval (acc.env env)).toNat = number high
  le : bitIndexOf target number low ≤ bitIndexOf target number high
  width : bitIndexOf target number high - bitIndexOf target number low ≤
    target.maxShift

theorem Positions.extend {number : Value → Nat} {low high : Value}
    (hpos : Positions target acc env number low high) (hext : Extends acc acc') :
    Positions target acc' env number low high :=
  { hpos with
    low_known := hext.known hpos.low_known
    high_known := hext.known hpos.high_known
    low_eval := by rw [hext.eval hpos.low_known, hpos.low_eval]
    high_eval := by rw [hext.eval hpos.high_known, hpos.high_eval] }

section Width

variable {acc : Accum} {env : Env} {number : Value → Nat}

/-- Dividing a position by the pointer size gives a new variable or a constant. -/
theorem divide_spec (target : Target) {position : Value} (hok : acc.Ok)
    (hknown : position.Known acc.next)
    (heval : (position.eval (acc.env env)).toNat = number position) :
    let result := compute acc (.op .div position (.word target.pointerWord))
    Yields acc env (bitIndexOf target number position) result ∧
      (position.IsWord → result.1.IsWord ∧ result.2 = acc) := by
  intro result
  have hcomputed : Computed acc env _ result :=
    compute_computed .div hok env (separate_word_right position _) hknown
      (Value.known_word _ _)
  have hfresh : result.1.Fresh acc.next := by
    apply compute_fresh_of hok
    intro value hvalue
    cases position with
    | word n =>
      cases hvalue
      trivial
    | var x =>
      have hop : ∃ op left right,
          normalizeExp (.op .div (.var x) (.word target.pointerWord)) =
            .op op left right := by
        rcases target.supported with heq | heq
        · rw [Target.pointerWord, heq]
          exact ⟨_, _, _, rfl⟩
        · rw [Target.pointerWord, heq]
          exact ⟨_, _, _, rfl⟩
      obtain ⟨op, left, right, hop⟩ := hop
      rw [hop] at hvalue
      cases hvalue
  constructor
  · refine ⟨hcomputed.ext, hcomputed.known, hfresh, ?_⟩
    rw [hcomputed.eval, evalOp2, BitVec.toNat_udiv, heval, Value.eval_word,
      target.pointerWord_toNat]
    rfl
  · intro hword
    obtain ⟨n, rfl⟩ := hword.exists
    have hwords : result = (.word (evalOp2 .div n target.pointerWord), acc) :=
      compute_words acc .div n target.pointerWord
    rw [hwords]
    exact ⟨trivial, rfl⟩

/-- The difference of two computed bit indexes. -/
theorem width_spec {low high : Value} {lowIndex highIndex : Value}
    (hok : acc.Ok) (hpos : Positions target acc env number low high)
    (hlowKnown : lowIndex.Known acc.next) (hhighKnown : highIndex.Known acc.next)
    (hsep : Separate highIndex lowIndex)
    (hlowEval : (lowIndex.eval (acc.env env)).toNat = bitIndexOf target number low)
    (hhighEval : (highIndex.eval (acc.env env)).toNat = bitIndexOf target number high)
    (hlowWord : low.IsWord → lowIndex.IsWord)
    (hhighWord : high.IsWord → highIndex.IsWord) :
    let result := compute acc (.op .sub highIndex lowIndex)
    Extends acc result.2 ∧
      ∀ last, WidthOk target result.2 env number low high last result.1 := by
  intro result
  have hcomputed : Computed acc env _ result :=
    compute_computed .sub hok env hsep hhighKnown hlowKnown
  have heval : (result.1.eval (result.2.env env)).toNat =
      bitIndexOf target number high - bitIndexOf target number low := by
    have hle := hpos.le
    have hlt := (highIndex.eval (acc.env env)).isLt
    rw [hcomputed.eval, evalOp2, BitVec.toNat_sub, hlowEval, hhighEval]
    rw [hhighEval] at hlt
    omega
  have hestimate : estimateMaxShift target result.1 =
      bitIndexOf target number high - bitIndexOf target number low ∨
      estimateMaxShift target result.1 = target.maxShift := by
    cases hcase : result.1 with
    | var x => exact Or.inr rfl
    | word n =>
      left
      rw [hcase] at heval
      exact heval
  refine ⟨hcomputed.ext, fun last => ?_⟩
  exact {
    known := hcomputed.known
    eval := fun _ => heval
    bound := by
      have hwidth := hpos.width
      omega
    words := by
      intro hlow hhigh
      obtain ⟨word1, hword1⟩ := (hhighWord hhigh).exists
      obtain ⟨word2, hword2⟩ := (hlowWord hlow).exists
      have hfolded : result = (.word (evalOp2 .sub word1 word2), acc) := by
        show compute acc (.op .sub highIndex lowIndex) = _
        rw [hword1, hword2, compute_words]
      rw [hfolded] at heval ⊢
      rw [← heval]
      apply congrArg Value.word
      apply BitVec.eq_of_toNat_eq
      rw [BitVec.toNat_ofNat, Nat.mod_eq_of_lt (BitVec.isLt _)]
      rfl
    estimate := by
      have hwidth := hpos.width
      omega }

end Width

/-- The positions of the fields: each field starts before it ends. -/
def PositionsOk (target : Target) (acc : Accum) (env : Env) (number : Value → Nat)
    (finish : Value) : List BitSource → Prop
  | [] => True
  | source :: sources =>
    Positions target acc env number source.index (nextPosition finish sources) ∧
      PositionsOk target acc env number finish sources

theorem PositionsOk.extend {target : Target} {acc acc' : Accum} {env : Env}
    {number : Value → Nat} {finish : Value} {sources : List BitSource}
    (hpositions : PositionsOk target acc env number finish sources)
    (hext : Extends acc acc') :
    PositionsOk target acc' env number finish sources := by
  induction sources with
  | nil => trivial
  | cons source sources ih => exact ⟨hpositions.1.extend hext, ih hpositions.2⟩

theorem computeBitIndex_cons (target : Target) (acc : Accum)
    (source next : BitSource) (sources : List BitSource) :
    computeBitIndex target acc (source :: next :: sources) =
      let rest := computeBitIndex target acc (next :: sources)
      let bitIndex := compute rest.2 (.op .div source.index (.word target.pointerWord))
      let bitWidth := compute bitIndex.2 (.op .sub rest.1.1 bitIndex.1)
      ((bitIndex.1, ⟨source.tag, bitWidth.1⟩ :: rest.1.2), bitWidth.2) := rfl

theorem computeBitIndex_runs (hruns : acc.Runs env) (sources : List BitSource) :
    (computeBitIndex target acc sources).2.Runs env := by
  have hdivide : ∀ (position : Value) {acc : Accum}, acc.Runs env →
      (compute acc (.op .div position (.word target.pointerWord))).2.Runs env := by
    intro position acc hruns
    refine compute_runs hruns fun _ => ?_
    rcases target.supported with heq | heq <;>
      simp [Op2.isDefined, Target.pointerWord, heq]
  induction sources with
  | nil => exact hruns
  | cons source sources ih =>
    cases sources with
    | nil => exact hdivide source.index hruns
    | cons next sources => exact compute_runs (hdivide source.index ih) fun _ => rfl

/-- What `computeBitIndex` makes of the fields. -/
structure BitIndexSpec (target : Target) (acc : Accum) (env : Env)
    (number : Value → Nat) (finish : Value) (source : BitSource)
    (sources : List BitSource) (result : (Value × List Bit) × Accum) : Prop where
  ext : Extends acc result.2
  known : result.1.1.Known result.2.next
  eval : (result.1.1.eval (result.2.env env)).toNat =
    bitIndexOf target number source.index
  word : source.index.IsWord → result.1.1.IsWord
  widths : Widths target result.2 env number finish (source :: sources) result.1.2

theorem computeBitIndex_spec {number : Value → Nat} {finish : Value} (hok : acc.Ok)
    (source : BitSource) (sources : List BitSource)
    (hpositions : PositionsOk target acc env number finish (source :: sources))
    (hfinish : ∀ last ∈ (source :: sources).getLast?, last.accumSize = finish) :
    BitIndexSpec target acc env number finish source sources
      (computeBitIndex target acc (source :: sources)) := by
  induction sources generalizing source with
  | nil =>
    obtain ⟨hpos, -⟩ := hpositions
    have hlast : source.accumSize = finish := hfinish source rfl
    have hpos : Positions target acc env number source.index source.accumSize := by
      rw [hlast]
      exact hpos
    obtain ⟨hindex, hindexWord⟩ :=
      divide_spec target hok hpos.low_known hpos.low_eval
    rw [computeBitIndex]
    generalize compute acc (.op .div source.index (.word target.pointerWord)) =
      bitIndex at *
    have hpos1 := hpos.extend hindex.ext
    obtain ⟨htotal, htotalWord⟩ :=
      divide_spec target hindex.ext.ok hpos1.high_known hpos1.high_eval
    generalize compute bitIndex.2
      (.op .div source.accumSize (.word target.pointerWord)) = totalBits at *
    obtain ⟨hwidthExt, hwidth⟩ := width_spec htotal.ext.ok
      (hpos1.extend htotal.ext) (htotal.ext.known hindex.known) htotal.known
      (separate_of_fresh_known htotal.fresh hindex.known)
      (by rw [htotal.ext.eval hindex.known, hindex.eval]) htotal.eval
      (fun hword => (hindexWord hword).1) (fun hword => (htotalWord hword).1)
    have hwidth := hwidth True
    generalize compute totalBits.2 (.op .sub totalBits.1 bitIndex.1) =
      tmpBitWidth at *
    have hsmall : estimateMaxShift target tmpBitWidth.1 < 2 ^ 32 := by
      have hle := hwidth.estimate
      have hmax := target.maxShift_le
      omega
    have hestimate : estimateMaxShift target (.word (BitVec.ofNat 32
        (estimateMaxShift target tmpBitWidth.1))) =
        estimateMaxShift target tmpBitWidth.1 := by
      show (BitVec.ofNat 32 (estimateMaxShift target tmpBitWidth.1)).toNat = _
      rw [BitVec.toNat_ofNat, Nat.mod_eq_of_lt hsmall]
    -- The declarations of the estimate are dropped, the identifiers are not.
    have hnext := Nat.le_trans htotal.ext.le hwidthExt.le
    exact {
      ext := ⟨hindex.ext.ok, Nat.le_trans hindex.ext.le hnext, hindex.ext.env⟩
      known := hindex.known.mono hnext
      eval := hindex.eval
      word := fun hword => (hindexWord hword).1
      widths := ⟨rfl, {
          known := trivial
          eval := fun hnot => absurd rfl hnot
          bound := by
            rw [hestimate]
            simp only [nextPosition]
            rw [← hlast]
            exact hwidth.bound
          words := by
            intro hlow hhigh
            simp only [nextPosition] at hhigh ⊢
            rw [← hlast] at hhigh ⊢
            have hword := hwidth.words hlow hhigh
            rw [hword]
            apply congrArg Value.word
            apply BitVec.eq_of_toNat_eq
            simp [estimateMaxShift]
          estimate := by
            rw [hestimate]
            exact hwidth.estimate },
        trivial⟩ }
  | cons next sources ih =>
    obtain ⟨hpos, hrest⟩ := hpositions
    have hnext := ih next hrest (fun last hlast => hfinish last hlast)
    rw [computeBitIndex_cons]
    dsimp only
    generalize computeBitIndex target acc (next :: sources) = rest at *
    have hpos1 := hpos.extend hnext.ext
    obtain ⟨hindex, hindexWord⟩ :=
      divide_spec target hnext.ext.ok hpos1.low_known hpos1.low_eval
    generalize compute rest.2 (.op .div source.index (.word target.pointerWord)) =
      bitIndex at *
    obtain ⟨hwidthExt, hwidth⟩ := width_spec hindex.ext.ok
      (hpos1.extend hindex.ext) hindex.known (hindex.ext.known hnext.known)
      (separate_of_known_fresh hnext.known hindex.fresh) hindex.eval
      (by rw [hindex.ext.eval hnext.known, hnext.eval]; rfl)
      (fun hword => (hindexWord hword).1) hnext.word
    generalize compute bitIndex.2 (.op .sub rest.1.1 bitIndex.1) = bitWidth at *
    exact {
      ext := hnext.ext.trans (hindex.ext.trans hwidthExt)
      known := hwidthExt.known hindex.known
      eval := by rw [hwidthExt.eval hindex.known, hindex.eval]
      word := fun hword => (hindexWord hword).1
      widths := ⟨rfl, hwidth _,
        hnext.widths.extend (hindex.ext.trans hwidthExt)⟩ }

/-! ## All the fields -/

/-- The number of bits the widths are estimated at. -/
def totalBits (target : Target) (bits : List Bit) : Nat :=
  (bits.map fun bit => estimateMaxShift target bit.bitWidth).sum

/-- Every shift that is made finds at most two words. -/
def ShiftsOk (target : Target) : List Bit → Prop
  | [] => True
  | bit :: bits =>
    (bit.bitWidth = .word 0 ∨ totalBits target bits ≤ 64) ∧ ShiftsOk target bits

/-- Where a field has no width under the valuation, no word is shifted by a whole
word: no shift is made at all, no bit is carried over, or there is none to carry. -/
def CarriesOk (target : Target) (acc : Accum) (env : Env) : List Bit → Prop
  | [] => True
  | bit :: bits =>
    (bit.bitWidth = .word 0 ∨ 0 < (bit.bitWidth.eval (acc.env env)).toNat ∨
      totalBits target (bit :: bits) ≤ bitmapWordBits ∨
        ∀ later ∈ bits, later.tag = .word 0) ∧ CarriesOk target acc env bits

/-- What the bitmap of the fields from one field on holds: the bit at the
distance of each field with the tag 1. -/
structure RecordBitmapSpec (target : Target) (acc : Accum) (env : Env)
    (number : Value → Nat) (finish : Value) (source : BitSource)
    (sources : List BitSource) (bits : List Bit) (result : Bitmap × Accum)
    (words : List Word32) : Prop where
  ext : Extends acc result.2
  ok : BitmapOk result.2 acc.next env result.1 words
  maxNumBits : result.1.maxNumBits = totalBits target bits
  runs : acc.Runs env → CarriesOk target acc env bits → result.2.Runs env
  finish_le : bitIndexOf target number finish ≤
    bitIndexOf target number source.index + result.1.maxNumBits
  le : ∀ field ∈ source :: sources, bitIndexOf target number source.index ≤
    bitIndexOf target number field.index
  bits : ∀ i, BitWords.bitAt words i = true ↔
    ∃ field ∈ source :: sources, field.tag.eval (acc.env env) = 1 ∧
      bitIndexOf target number field.index =
        bitIndexOf target number source.index + i

/-- What is assumed of the tags: they are older than the bitmap, and bits. -/
def TagsOk (acc : Accum) (env : Env) (sources : List BitSource) : Prop :=
  ∀ source ∈ sources, source.tag.Known acc.next ∧
    (source.tag.eval (acc.env env) = 0 ∨ source.tag.eval (acc.env env) = 1)

/-- The string after the shift and the new lowest bit, in terms of the fields. -/
theorem recordBits_step {next : BitSource}
    (index : BitSource → Nat) (tagged : BitSource → Prop) {bits bits' : Nat → Bool}
    {width : Nat} (hwidth : width = index next - index source)
    (hle : index source ≤ index next)
    (hnext : ∀ field ∈ next :: sources, index next ≤ index field)
    (hbits : ∀ i, bits i = true ↔
      ∃ field ∈ next :: sources, tagged field ∧ index field = index next + i)
    (hbits' : ∀ i, bits' i = true ↔
      (width ≤ i ∧ bits (i - width) = true) ∨ (i = 0 ∧ tagged source)) (i : Nat) :
    bits' i = true ↔ ∃ field ∈ source :: next :: sources,
      tagged field ∧ index field = index source + i := by
  rw [hbits' i]
  constructor
  · rintro (⟨hi, hbit⟩ | ⟨rfl, htag⟩)
    · obtain ⟨field, hfield, htag, hindex⟩ := (hbits _).mp hbit
      exact ⟨field, List.mem_cons_of_mem source hfield, htag, by omega⟩
    · exact ⟨source, List.mem_cons_self, htag, rfl⟩
  · rintro ⟨field, hfield, htag, hindex⟩
    rcases List.mem_cons.mp hfield with rfl | hrest
    · exact Or.inr ⟨by omega, htag⟩
    · have hfar := hnext field hrest
      exact Or.inl ⟨by omega, (hbits _).mpr ⟨field, hrest, htag, by omega⟩⟩

/-- The shift of one step: none at all where the width is the constant zero. -/
theorem shiftBitmap_step {rest : Bitmap × Accum} {words : List Word32} {bitWidth : Value}
    (hext : Extends acc rest.2) (hbitmap : BitmapOk rest.2 acc.next env rest.1 words)
    (hknown : bitWidth.Known acc.next)
    (hle : (bitWidth.eval (acc.env env)).toNat ≤ estimateMaxShift target bitWidth)
    (hmax : estimateMaxShift target bitWidth ≤ 2)
    (hshift : bitWidth = .word 0 ∨ rest.1.maxNumBits ≤ 64) :
    ∃ shifted, ShiftSpec rest.2 acc.next env rest.1 words
      (bitWidth.eval (acc.env env)).toNat (estimateMaxShift target bitWidth)
      (shiftBitmap target rest.2 rest.1 bitWidth) shifted := by
  by_cases hzero : bitWidth = .word 0
  · subst hzero
    refine ⟨words, ?_⟩
    rw [shiftBitmap, if_pos rfl]
    exact ⟨Extends.refl hext.ok, hbitmap, rfl, fun i => by simp, fun hruns _ => hruns⟩
  · have hbits := hshift.resolve_left hzero
    have hltBits := hbitmap.lt_bits
    rw [← hext.eval hknown] at hle ⊢
    exact shiftBitmap_spec hext.ok hext.le hbitmap (by omega) hknown hzero hle hmax

theorem computeRecordBitmap_spec {number : Value → Nat} {finish : Value} (hok : acc.Ok)
    (source : BitSource) (sources : List BitSource) (bits : List Bit)
    (hwidths : Widths target acc env number finish (source :: sources) bits)
    (hpositions : PositionsOk target acc env number finish (source :: sources))
    (htags : TagsOk acc env (source :: sources))
    (hfinish : ∀ last ∈ (source :: sources).getLast?,
      bitIndexOf target number last.index < bitIndexOf target number finish)
    (hshifts : ShiftsOk target bits) :
    ∃ words, RecordBitmapSpec target acc env number finish source sources bits
      (computeRecordBitmap target acc bits) words := by
  induction sources generalizing source bits with
  | nil =>
    obtain ⟨bit, rfl, htag, hwidth⟩ := hwidths.single
    have hlast := hfinish source rfl
    have hbound := hwidth.bound
    simp only [nextPosition] at hbound
    have hne : bit.bitWidth ≠ .word 0 := by
      intro heq
      rw [heq] at hbound
      have hzero : estimateMaxShift target (.word 0) = 0 := rfl
      omega
    have hempty : BitmapOk acc acc.next env
        ⟨estimateMaxShift target bit.bitWidth, [.word 0]⟩ [0] := by
      have hestimate := hwidth.estimate
      have hmax := target.maxShift_le
      refine ⟨WordsOk.cons trivial trivial rfl (WordsOk.nil _ _ _), by simp, ?_, ?_, ?_⟩
      · show estimateMaxShift target bit.bitWidth ≤ 32 * 1
        omega
      · show 32 * 0 < estimateMaxShift target bit.bitWidth
        omega
      · intro i hi
        simp [BitWords.bitAt] at hi
    obtain ⟨hknown, hvalue⟩ := htags source List.mem_cons_self
    rw [← htag] at hknown hvalue
    obtain ⟨words, hext, hset, hbits, hat⟩ :=
      setBitmapBit_spec hok (Nat.le_refl _) hempty hknown hvalue
    have hcompute : computeRecordBitmap target acc [bit] =
        setBitmapBit acc ⟨estimateMaxShift target bit.bitWidth, [.word 0]⟩ bit.tag := by
      simp only [computeRecordBitmap, emptyBitmap, shiftBitmap, if_neg hne]
    rw [hcompute]
    refine ⟨words, hext, hset, ?_, fun hruns _ => setBitmapBit_runs hruns, ?_, ?_, ?_⟩
    · rw [hbits]
      simp [totalBits]
    · rw [hbits]
      show bitIndexOf target number finish ≤
        bitIndexOf target number source.index + estimateMaxShift target bit.bitWidth
      omega
    · intro field hfield
      rw [List.mem_singleton.mp hfield]
    · intro i
      rw [hat i, htag]
      simp [BitWords.bitAt, and_comm]
  | cons next sources ih =>
    obtain ⟨bit, bits, rfl, htag, hwidth, hrest⟩ := hwidths.cons
    obtain ⟨hpos, hpositions⟩ := hpositions
    obtain ⟨hshift, hshifts⟩ := hshifts
    obtain ⟨words, hspec⟩ := ih next bits hrest hpositions
      (fun field hfield => htags field (List.mem_cons_of_mem source hfield))
      (fun last hlast => hfinish last hlast) hshifts
    simp only [nextPosition] at hpos hwidth
    have hamount := hwidth.eval (List.cons_ne_nil _ _)
    obtain ⟨shiftedWords, hshifted⟩ := shiftBitmap_step hspec.ext hspec.ok
      hwidth.known (by rw [hamount]; exact hwidth.bound)
      (Nat.le_trans hwidth.estimate target.maxShift_le)
      (by rw [hspec.maxNumBits]; exact hshift)
    have hshiftedRuns : acc.Runs env → CarriesOk target acc env (bit :: bits) →
        (shiftBitmap target (computeRecordBitmap target acc bits).2
          (computeRecordBitmap target acc bits).1 bit.bitWidth).2.Runs env := by
      rintro hruns ⟨hcarry, hcarries⟩
      have hrestRuns := hspec.runs hruns hcarries
      rcases hcarry with hnone | hpos | hroom | htags
      · rw [hnone, shiftBitmap, if_pos rfl]
        exact hrestRuns
      · exact hshifted.runs hrestRuns (Or.inr (Or.inl hpos))
      · refine hshifted.runs hrestRuns (Or.inl ?_)
        simp only [totalBits, List.map_cons, List.sum_cons] at hroom
        rw [hspec.maxNumBits, totalBits]
        omega
      · exact hshifted.runs hrestRuns (Or.inr (Or.inr (computeRecordBitmap_zero htags)))
    rw [hamount] at hshifted
    rw [computeRecordBitmap]
    generalize computeRecordBitmap target acc bits = rest at *
    generalize shiftBitmap target rest.2 rest.1 bit.bitWidth = shifted at *
    have hext := hspec.ext.trans hshifted.ext
    obtain ⟨hknown, hvalue⟩ := htags source List.mem_cons_self
    rw [← htag] at hknown hvalue
    have hvalue' : bit.tag.eval (shifted.2.env env) = 0 ∨
        bit.tag.eval (shifted.2.env env) = 1 := by
      rw [hext.eval hknown]
      exact hvalue
    obtain ⟨setWords, hsetExt, hset, hbits, hat⟩ :=
      setBitmapBit_spec hext.ok hext.le hshifted.ok hknown hvalue'
    rw [hext.eval hknown] at hat
    have hle := hpos.le
    have hnextLe := hspec.finish_le
    have hbound := hwidth.bound
    refine ⟨setWords, hext.trans hsetExt, hset, ?_,
      fun hruns hcarries => setBitmapBit_runs (hshiftedRuns hruns hcarries), ?_, ?_, ?_⟩
    · rw [hbits, hshifted.maxNumBits, hspec.maxNumBits]
      simp only [totalBits, List.map_cons, List.sum_cons]
      omega
    · rw [hbits, hshifted.maxNumBits]
      omega
    · intro field hfield
      rcases List.mem_cons.mp hfield with rfl | hfield
      · exact Nat.le_refl _
      · exact Nat.le_trans hle (hspec.le field hfield)
    · refine recordBits_step (fun field => bitIndexOf target number field.index)
        (fun field => field.tag.eval (acc.env env) = 1) rfl hle hspec.le
        hspec.bits ?_
      intro i
      rw [hat i, hshifted.bits i, ← htag]
      simp

end RecordLayout

end SmlSharp
