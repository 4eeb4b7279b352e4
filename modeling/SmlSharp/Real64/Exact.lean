/-
The formatting of reals raises `Size`, or it writes every position of its buffer
once and the string denotes the number exactly.
-/
import SmlSharp.Real64.Numeral
import Mathlib.Tactic.Linarith
import Mathlib.Algebra.Order.GroupWithZero.Basic

namespace SmlSharp.Real64

open Int32Arith WriteBuffer

/-- Raise `Size`, or return with nothing wrapped. -/
abbrev Sized {α : Type} (x : Fmt α) (exact : Bool) (post : α → Prop) : Prop :=
  Keeps (fun failure => failure = .size) x exact post

/-- The same before `Overflow` is handled. -/
abbrev Checked {α : Type} (x : Fmt α) (exact : Bool) (post : α → Prop) : Prop :=
  Keeps (fun failure => failure = .overflow) x exact post

variable {n : Int} {errors : Failure → Prop} {i len : Int} {buf : Buffer} {decpt prec : Int}
  {sign : Bool} {int frac l : List Char}

section Arithmetic

variable {exact : Bool}

theorem checked_spec (n : Int) : Checked (checked n) exact fun r => r = n ∧ InRange n := by
  unfold checked
  split
  · next h => exact .pure ⟨rfl, h⟩
  · exact .throw rfl

theorem add_spec (x y : Int) : Checked (add x y) exact fun r => r = x + y :=
  (checked_spec _).mono fun _ hr => hr.1

theorem sub_spec (x y : Int) : Checked (sub x y) exact fun r => r = x - y :=
  (checked_spec _).mono fun _ hr => hr.1

theorem add_add_spec (x y z : Int) :
    Checked (do add (← add x y) z) exact fun r => r = x + y + z :=
  (add_spec x y).bind fun sum hsum => by
    rw [← hsum]
    exact add_spec sum z

theorem add_add_add_spec (x y z w : Int) :
    Checked (do add (← add (← add x y) z) w) exact fun r => r = x + y + z + w :=
  (add_spec x y).bind fun sum hsum => by
    rw [← hsum]
    exact add_add_spec sum z w

theorem orSize_spec {α : Type} {x : Fmt α} {post : α → Prop} (hx : Checked x exact post) :
    Sized (orSize x) exact post := by
  rcases hx with ⟨failure, rfl, hfail⟩ | ⟨value, hpost, hok⟩
  · refine Or.inl ⟨.size, rfl, ?_⟩
    rw [orSize, hfail]
  · refine Or.inr ⟨value, hpost, ?_⟩
    rw [orSize, hok]

theorem wrap_of_inRange (h : InRange n) : wrap n = n := by
  obtain ⟨hlow, hhigh⟩ := h
  rw [wrap, Int.bmod_def]
  split <;> omega

theorem unchecked_spec (h : InRange n) :
    Keeps errors (unchecked n) exact fun r => r = n := by
  refine Or.inr ⟨n, rfl, ?_⟩
  change Except.ok (wrap n, exact && decide (InRange n)) = _
  rw [wrap_of_inRange h, decide_eq_true h, Bool.and_true]

theorem addUnsafe_spec {x y : Int} (h : InRange (x + y)) :
    Keeps errors (addUnsafe x y) exact fun r => r = x + y := unchecked_spec h

theorem subUnsafe_spec {x y : Int} (h : InRange (x - y)) :
    Keeps errors (subUnsafe x y) exact fun r => r = x - y := unchecked_spec h

theorem stringAlloc_spec (size : Int) : Sized (stringAlloc size) exact fun buf =>
    buf.size = size ∧ buf.Upto [] ∧ 0 ≤ size ∧ size ≤ maxStringSize := by
  unfold stringAlloc
  split
  · next h => exact .pure ⟨rfl, upto_alloc size, h.1, h.2⟩
  · exact .throw rfl

end Arithmetic

section Writes

variable {exact : Bool} {buf : Buffer} {xs : List Char}

/-- The buffer has its size and holds these characters so far. -/
structure Holds (buf : Buffer) (size : Int) (xs : List Char) : Prop where
  size : buf.size = size
  upto : buf.Upto xs

theorem Holds.update {size : Int} (h : Holds buf size xs) {i : Int} (hi : i = xs.length)
    (c : Char) : Holds (buf.update i c) size (xs ++ [c]) :=
  ⟨h.size, h.upto.update hi c⟩

theorem storeSign_holds {size : Int} (h : Holds buf size []) (sign : Bool) :
    Holds (storeSign buf sign) size (signChars sign) := by
  cases sign with
  | true => exact h.update rfl '~'
  | false => exact h

theorem copyUnsafe_spec {size : Int} (h : Holds buf size xs) {src : List Char} {si di : Int}
    (hsi : 0 ≤ si) (hlen : 0 ≤ len) (hsrc : si + len ≤ src.length) (hdi : di = xs.length) :
    Sized (copyUnsafe src si buf di len) exact fun buf' =>
      Holds buf' size (xs ++ (src.drop si.toNat).take len.toNat) := by
  rw [copyUnsafe, if_pos ⟨hsi, hlen, hsrc⟩]
  exact .pure ⟨h.size, h.upto.updateFrom hdi _⟩

theorem fillZeroLoop_spec {size : Int} (h : Holds buf size xs) {limit : Int} {fuel : Nat}
    (hi : i = xs.length) (hlimit : InRange limit) (hfuel : (limit - i).toNat ≤ fuel) :
    Sized (fillZeroLoop limit fuel buf i) exact fun buf' =>
      Holds buf' size (xs ++ List.replicate (limit - i).toNat '0') := by
  induction fuel generalizing buf xs i with
  | zero =>
    rw [fillZeroLoop, if_pos (by omega), show (limit - i).toNat = 0 by omega]
    exact .pure (by simpa using h)
  | succ fuel ih =>
    by_cases hdone : i ≥ limit
    · rw [fillZeroLoop, if_pos hdone, show (limit - i).toNat = 0 by omega]
      exact .pure (by simpa using h)
    · rw [fillZeroLoop, if_neg hdone]
      obtain ⟨_, hhigh⟩ := hlimit
      refine (addUnsafe_spec ⟨by omega, by omega⟩).bind fun next hnext => ?_
      refine (ih (h.update hi '0') ?_ ?_).mono fun buf' hbuf' => ?_
      · rw [hnext, hi, List.length_append]
        rfl
      · omega
      · rw [List.append_assoc, hnext] at hbuf'
        rw [show (limit - i).toNat = (limit - (i + 1)).toNat + 1 by omega, List.replicate_succ]
        exact hbuf'

theorem fillZero_spec {size : Int} (h : Holds buf size xs) {limit : Int} (hi : i = xs.length)
    (hlimit : InRange limit) : Sized (fillZero buf i limit) exact fun buf' =>
      Holds buf' size (xs ++ List.replicate (limit - i).toNat '0') :=
  fillZeroLoop_spec h hi hlimit (Nat.le_refl _)

end Writes

section Insert

variable {exact : Bool}

/-- The zeros that are missing for a precision. -/
theorem missing_spec (prec frac : Int) :
    Checked (if frac < prec then sub prec frac else pure 0) exact fun r =>
      r = max (prec - frac) 0 := by
  split
  · exact (checked_spec _).mono fun r hr => by omega
  · exact .pure (by omega)

theorem pointed_spec (frac : Int) :
    Checked (if 0 < frac then add frac 1 else pure 0) exact fun r =>
      r = if 0 < frac then frac + 1 else 0 := by
  split
  · exact (checked_spec _).mono fun r hr => hr.1
  · exact .pure rfl

/-- The characters of the buffer are the sign, digits, and a point with digits
if there are any; they denote the number, with the digits that are asked for. -/
structure Formatted (sign : Bool) (decpt : Int) (digits : List Char) (prec : Int)
    (buf : Buffer) (int frac : List Char) : Prop where
  holds : Holds buf (signChars sign ++ (int ++ fracChars frac)).length
    (signChars sign ++ (int ++ fracChars frac))
  int_ne : int ≠ []
  intDigits : AllDigits int
  fracDigits : AllDigits frac
  prec_le : prec ≤ frac.length
  value : ∃ k : Nat, digitsValue (int ++ frac) = digitsValue digits * 10 ^ k ∧
    (k : Int) = frac.length + decpt - digits.length

theorem length_signChars (sign : Bool) :
    ((signChars sign).length : Int) = if sign then 1 else 0 := by
  cases sign <;> rfl

/-- The characters are all in place when they fill the buffer. -/
theorem Holds.formatted {size : Int}
    {xs digits : List Char} {k : Nat} (h : Holds buf size xs)
    (hxs : xs = signChars sign ++ (int ++ fracChars frac)) (hsize : size = xs.length)
    (hne : int ≠ []) (hint : AllDigits int) (hfrac : AllDigits frac) (hprec : prec ≤ frac.length)
    (hvalue : digitsValue (int ++ frac) = digitsValue digits * 10 ^ k)
    (hk : (k : Int) = frac.length + decpt - digits.length) :
    Formatted sign decpt digits prec buf int frac := by
  subst hxs
  exact ⟨⟨h.size.trans hsize, h.upto⟩, hne, hint, hfrac, hprec, k, hvalue, hk⟩

variable {decpt prec : Int} {digits : List Char} (sign : Bool)

/-- No digit is before the point. -/
theorem insertSignAndDot_below (hne : digits ≠ []) (hdigits : AllDigits digits)
    (hdecpt : decpt ≤ 0) :
    Sized (insertSignAndDot sign decpt digits prec) exact fun buf =>
      ∃ int frac, Formatted sign decpt digits prec buf int frac := by
  have hplen := length_signChars sign
  have hslen : 0 < digits.length := List.length_pos_iff.2 hne
  rw [insertSignAndDot]
  simp only [if_pos hdecpt]
  generalize (if sign then 1 else 0 : Int) = plen at hplen ⊢
  refine (orSize_spec (sub_spec 0 decpt)).bind fun pzeroes hpzeroes => ?_
  refine (orSize_spec (add_spec _ _)).bind fun frac hfrac => ?_
  refine (orSize_spec (missing_spec _ _)).bind fun tzeroes htzeroes => ?_
  refine (orSize_spec (add_spec _ _)).bind fun frac' hfrac' => ?_
  refine (orSize_spec (pointed_spec _)).bind fun frac'' hfrac'' => ?_
  refine (orSize_spec (add_add_spec _ _ _)).bind fun buflen hbuflen => ?_
  refine (stringAlloc_spec buflen).bind fun buf hbuf => ?_
  obtain ⟨hsize, hupto, hlow, hhigh⟩ := hbuf
  have hmax : maxStringSize < 2 ^ 28 := by decide
  rw [if_pos (by omega)] at hfrac''
  have hnonneg : 0 ≤ plen ∧ 0 ≤ pzeroes ∧ 0 ≤ tzeroes := by omega
  have htotal : buflen = plen + 2 + pzeroes + digits.length + tzeroes := by omega
  have hprec : prec ≤ pzeroes + digits.length + tzeroes := by omega
  have hpoint : frac'' > 0 := by omega
  clear htzeroes hfrac hfrac' hfrac'' hbuflen hlow
  have hsigned := (storeSign_holds ⟨hsize, hupto⟩ sign).update hplen.symm '0'
  rw [if_pos hpoint]
  refine (addUnsafe_spec ⟨by omega, by omega⟩).bind fun point hpoint => ?_
  have hpointed := hsigned.update (i := point) (by simp; omega) '.'
  refine (addUnsafe_spec ⟨by omega, by omega⟩).bind fun start hstart => ?_
  refine (addUnsafe_spec ⟨by omega, by omega⟩).bind fun start' hstart' => ?_
  refine (addUnsafe_spec ⟨by omega, by omega⟩).bind fun stop hstop => ?_
  refine (fillZero_spec hpointed (by simp; omega) ⟨by omega, by omega⟩).bind fun buf1 hbuf1 => ?_
  refine (addUnsafe_spec ⟨by omega, by omega⟩).bind fun di' hdi' => ?_
  refine (addUnsafe_spec ⟨by omega, by omega⟩).bind fun di hdi => ?_
  refine (copyUnsafe_spec hbuf1 (by omega) (by omega) (by omega) (by simp; omega)).bind
    fun buf2 hbuf2 => ?_
  have hzeroes : (stop - start).toNat = pzeroes.toNat := by omega
  rw [hzeroes, Int.toNat_zero, List.drop_zero, Int.toNat_natCast, List.take_length] at hbuf2
  have hformatted : ∀ buf, Holds buf buflen (signChars sign ++ ['0'] ++ ['.'] ++
      List.replicate pzeroes.toNat '0' ++ digits ++ List.replicate tzeroes.toNat '0') →
      ∃ int frac, Formatted sign decpt digits prec buf int frac := by
    intro buf hbuf
    refine ⟨['0'], List.replicate pzeroes.toNat '0' ++ (digits ++ List.replicate tzeroes.toNat '0'),
      hbuf.formatted (k := tzeroes.toNat) ?_ ?_ (by simp) (AllDigits.zeroes 1)
        ((AllDigits.zeroes _).append (hdigits.append (AllDigits.zeroes _))) ?_ ?_ ?_⟩
    · rw [fracChars, if_neg (by simp [hne])]
      simp
    · simp
      omega
    · simp
      omega
    · have hpad := digitsValue_zeroes_append (1 + pzeroes.toNat)
        (digits ++ List.replicate tzeroes.toNat '0')
      rw [List.replicate_add, List.append_assoc] at hpad
      exact hpad.trans (digitsValue_append_zeroes _ _)
    · simp
      omega
  by_cases hpad : tzeroes > 0
  · rw [if_pos hpad]
    refine (addUnsafe_spec ⟨by omega, by omega⟩).bind fun from1 hfrom1 => ?_
    refine (addUnsafe_spec ⟨by omega, by omega⟩).bind fun from2 hfrom2 => ?_
    refine (addUnsafe_spec ⟨by omega, by omega⟩).bind fun from3 hfrom3 => ?_
    refine (fillZero_spec hbuf2 (by simp; omega) ⟨by omega, by omega⟩).mono fun buf3 hbuf3 => ?_
    rw [show (buflen - from3).toNat = tzeroes.toNat by omega] at hbuf3
    exact hformatted buf3 hbuf3
  · rw [if_neg hpad]
    refine .pure (hformatted buf2 ?_)
    rw [show tzeroes.toNat = 0 by omega, List.replicate_zero, List.append_nil]
    exact hbuf2

/-- All digits are before the point. -/
theorem insertSignAndDot_above (hne : digits ≠ []) (hdigits : AllDigits digits)
    (hpos : ¬ decpt ≤ 0) (hdecpt : (digits.length : Int) ≤ decpt) :
    Sized (insertSignAndDot sign decpt digits prec) exact fun buf =>
      ∃ int frac, Formatted sign decpt digits prec buf int frac := by
  have hplen := length_signChars sign
  have hslen : 0 < digits.length := List.length_pos_iff.2 hne
  rw [insertSignAndDot]
  simp only [if_neg hpos, if_pos hdecpt]
  generalize (if sign then 1 else 0 : Int) = plen at hplen ⊢
  refine (orSize_spec (sub_spec _ _)).bind fun zeroes hzeroes => ?_
  refine (orSize_spec (pointed_spec _)).bind fun frac hfrac => ?_
  refine (orSize_spec (add_add_add_spec _ _ _ _)).bind fun buflen hbuflen => ?_
  refine (stringAlloc_spec buflen).bind fun buf hbuf => ?_
  obtain ⟨hsize, hupto, hlow, hhigh⟩ := hbuf
  have hmax : maxStringSize < 2 ^ 28 := by decide
  have hfracNonneg : 0 ≤ frac := by
    rw [hfrac]
    split <;> omega
  have hnonneg : 0 ≤ plen ∧ 0 ≤ zeroes := by omega
  clear hlow
  have hsigned := storeSign_holds ⟨hsize, hupto⟩ sign
  refine (copyUnsafe_spec hsigned (by omega) (by omega) (by omega) hplen.symm).bind
    fun buf1 hbuf1 => ?_
  rw [Int.toNat_zero, List.drop_zero, Int.toNat_natCast, List.take_length] at hbuf1
  refine (addUnsafe_spec ⟨by omega, by omega⟩).bind fun start hstart => ?_
  refine (addUnsafe_spec ⟨by omega, by omega⟩).bind fun stop' hstop' => ?_
  refine (addUnsafe_spec ⟨by omega, by omega⟩).bind fun stop hstop => ?_
  refine (fillZero_spec hbuf1 (by simp; omega) ⟨by omega, by omega⟩).bind fun buf2 hbuf2 => ?_
  rw [show (stop - start).toNat = zeroes.toNat by omega] at hbuf2
  have hvalue : digitsValue ((digits ++ List.replicate zeroes.toNat '0') ++
      List.replicate prec.toNat '0') = digitsValue digits * 10 ^ (zeroes.toNat + prec.toNat) := by
    rw [List.append_assoc, ← List.replicate_add]
    exact digitsValue_append_zeroes _ _
  have hint : AllDigits (digits ++ List.replicate zeroes.toNat '0') :=
    hdigits.append (AllDigits.zeroes _)
  by_cases hpoint : frac > 0
  · rw [if_pos hpoint]
    have hprec : 0 < prec := by
      by_contra hnot
      rw [if_neg hnot] at hfrac
      omega
    rw [if_pos hprec] at hfrac
    refine (addUnsafe_spec ⟨by omega, by omega⟩).bind fun i' hi' => ?_
    refine (addUnsafe_spec ⟨by omega, by omega⟩).bind fun i hi => ?_
    have hpointed := hbuf2.update (i := i) (by simp; omega) '.'
    refine (addUnsafe_spec ⟨by omega, by omega⟩).bind fun start' hstart' => ?_
    refine (fillZero_spec hpointed (by simp; omega) ⟨by omega, by omega⟩).mono
      fun buf3 hbuf3 => ?_
    rw [show (buflen - start').toNat = prec.toNat by omega] at hbuf3
    refine ⟨_, _, hbuf3.formatted ?_ ?_ (by simp [hne]) hint (AllDigits.zeroes _) ?_ hvalue ?_⟩
    · rw [fracChars, if_neg (by simp; omega)]
      simp
    · simp
      omega
    · simp
    · simp
      omega
  · rw [if_neg hpoint]
    have hprec : ¬ 0 < prec := by
      intro hpos
      rw [if_pos hpos] at hfrac
      omega
    rw [if_neg hprec] at hfrac
    have hnone : prec.toNat = 0 := by omega
    rw [hnone, List.replicate_zero] at hvalue
    refine .pure ⟨_, _, hbuf2.formatted ?_ ?_ (by simp [hne]) hint (AllDigits.zeroes 0) ?_
      hvalue ?_⟩
    · simp [fracChars]
    · simp
      omega
    · simpa using hprec
    · simp
      omega

/-- The point is between the digits. -/
theorem insertSignAndDot_within (hdigits : AllDigits digits)
    (hpos : ¬ decpt ≤ 0) (hdecpt : ¬ (digits.length : Int) ≤ decpt) :
    Sized (insertSignAndDot sign decpt digits prec) exact fun buf =>
      ∃ int frac, Formatted sign decpt digits prec buf int frac := by
  have hplen := length_signChars sign
  rw [insertSignAndDot]
  simp only [if_neg hpos, if_neg hdecpt]
  generalize (if sign then 1 else 0 : Int) = plen at hplen ⊢
  refine (orSize_spec (sub_spec _ _)).bind fun frac hfrac => ?_
  refine (orSize_spec (missing_spec _ _)).bind fun zeroes hzeroes => ?_
  refine (orSize_spec (add_add_add_spec _ _ _ _)).bind fun buflen hbuflen => ?_
  refine (stringAlloc_spec buflen).bind fun buf hbuf => ?_
  obtain ⟨hsize, hupto, hlow, hhigh⟩ := hbuf
  have hmax : maxStringSize < 2 ^ 28 := by decide
  have hnonneg : 0 ≤ plen ∧ 0 ≤ zeroes := by omega
  have htotal : buflen = plen + digits.length + 1 + zeroes := by omega
  have hprec : prec ≤ digits.length - decpt + zeroes := by omega
  clear hzeroes hfrac hbuflen hlow
  have hsigned := storeSign_holds ⟨hsize, hupto⟩ sign
  refine (copyUnsafe_spec hsigned (by omega) (by omega) (by omega) hplen.symm).bind
    fun buf1 hbuf1 => ?_
  rw [Int.toNat_zero, List.drop_zero] at hbuf1
  have htake : (digits.take decpt.toNat).length = decpt.toNat := by
    rw [List.length_take]
    omega
  have hdrop : (digits.drop decpt.toNat).length = digits.length - decpt.toNat := List.length_drop
  refine (addUnsafe_spec ⟨by omega, by omega⟩).bind fun point hpoint => ?_
  have hpointed := hbuf1.update (i := point) (by rw [List.length_append]; omega) '.'
  refine (addUnsafe_spec ⟨by omega, by omega⟩).bind fun start' hstart' => ?_
  refine (addUnsafe_spec ⟨by omega, by omega⟩).bind fun start hstart => ?_
  refine (subUnsafe_spec ⟨by omega, by omega⟩).bind fun rest hrest => ?_
  refine (copyUnsafe_spec hpointed (by omega) (by omega) (by omega)
    (by simp only [List.length_append, List.length_singleton]; omega)).bind fun buf2 hbuf2 => ?_
  have hall : (digits.drop decpt.toNat).take rest.toNat = digits.drop decpt.toNat :=
    List.take_of_length_le (by omega)
  rw [hall] at hbuf2
  have hformatted : ∀ buf, Holds buf buflen (signChars sign ++ digits.take decpt.toNat ++ ['.'] ++
      digits.drop decpt.toNat ++ List.replicate zeroes.toNat '0') →
      ∃ int frac, Formatted sign decpt digits prec buf int frac := by
    intro buf hbuf
    refine ⟨digits.take decpt.toNat, digits.drop decpt.toNat ++ List.replicate zeroes.toNat '0',
      hbuf.formatted (k := zeroes.toNat) ?_ ?_ ?_ (hdigits.of_subset (List.take_subset _ _))
        ((hdigits.of_subset (List.drop_subset _ _)).append (AllDigits.zeroes _)) ?_ ?_ ?_⟩
    · rw [fracChars, if_neg]
      · simp
      · intro hnil
        rw [List.append_eq_nil_iff] at hnil
        rw [hnil.1, List.length_nil] at hdrop
        omega
    · simp only [List.length_append, htake, hdrop, List.length_singleton, List.length_replicate]
      omega
    · intro hnil
      rw [hnil, List.length_nil] at htake
      omega
    · simp only [List.length_append, hdrop, List.length_replicate]
      omega
    · rw [← List.append_assoc, List.take_append_drop]
      exact digitsValue_append_zeroes _ _
    · simp only [List.length_append, hdrop, List.length_replicate]
      omega
  by_cases hpad : zeroes > 0
  · rw [if_pos hpad]
    refine (addUnsafe_spec ⟨by omega, by omega⟩).bind fun from1 hfrom1 => ?_
    refine (addUnsafe_spec ⟨by omega, by omega⟩).bind fun from2 hfrom2 => ?_
    refine (fillZero_spec hbuf2 ?_ ⟨by omega, by omega⟩).mono fun buf3 hbuf3 => ?_
    · simp only [List.length_append, htake, hdrop, List.length_singleton]
      omega
    · rw [show (buflen - from2).toNat = zeroes.toNat by omega] at hbuf3
      exact hformatted buf3 hbuf3
  · rw [if_neg hpad]
    refine .pure (hformatted buf2 ?_)
    rw [show zeroes.toNat = 0 by omega, List.replicate_zero, List.append_nil]
    exact hbuf2

theorem insertSignAndDot_sized (hne : digits ≠ []) (hdigits : AllDigits digits) :
    Sized (insertSignAndDot sign decpt digits prec) exact fun buf =>
      ∃ int frac, Formatted sign decpt digits prec buf int frac := by
  by_cases hpos : decpt ≤ 0
  · exact insertSignAndDot_below sign hne hdigits hpos
  · by_cases hdecpt : (digits.length : Int) ≤ decpt
    · exact insertSignAndDot_above sign hne hdigits hpos hdecpt
    · exact insertSignAndDot_within sign hdigits hpos hdecpt

end Insert

section Exponent

variable {exact : Bool}

theorem digitsValue_cons (c : Char) (digits : List Char) :
    digitsValue (c :: digits) =
      (c.toNat - '0'.toNat) * 10 ^ digits.length + digitsValue digits := by
  have hstart : ∀ value : Nat,
      digits.foldl (fun value c => 10 * value + (c.toNat - '0'.toNat)) value =
        value * 10 ^ digits.length + digitsValue digits := by
    induction digits with
    | nil => simp [digitsValue]
    | cons d digits ih =>
      intro value
      rw [digitsValue, List.foldl_cons, List.foldl_cons, ih, ih (10 * 0 + _), List.length_cons,
        pow_succ]
      ring
  rw [digitsValue, List.foldl_cons, hstart]
  simp

theorem digitChar_isDigit {k : Nat} (hk : k < 10) :
    (digitChar (-(k : Int))).isDigit = true ∧ (digitChar (-(k : Int))).toNat - '0'.toNat = k := by
  have hall : ∀ k : Nat, k < 10 → (digitChar (-(k : Int))).isDigit = true ∧
      (digitChar (-(k : Int))).toNat - '0'.toNat = k := by decide
  exact hall k hk

theorem tdiv_tmod_ten (hn : n ≤ 0) :
    n.tdiv 10 = -((n.natAbs / 10 : Nat) : Int) ∧ n.tmod 10 = -((n.natAbs % 10 : Nat) : Int) := by
  obtain ⟨k, rfl⟩ : ∃ k : Nat, n = -k := ⟨n.natAbs, by omega⟩
  rw [Int.neg_tdiv, Int.neg_tmod, Int.natAbs_neg, Int.natAbs_natCast]
  exact ⟨rfl, rfl⟩

/-- The digits of a number up to zero, in front of others. -/
structure DigitsOf (n : Int) (z l : List Char) : Prop where
  digits : AllDigits l
  value : digitsValue l = n.natAbs * 10 ^ z.length + digitsValue z
  length_le : z.length ≤ l.length
  length_lt : n ≠ 0 → z.length < l.length

theorem intToCharsLoop_spec {z : List Char} (hn : n ≤ 0) (hz : AllDigits z) :
    Checked (intToCharsLoop n z len) exact fun result =>
      DigitsOf n z result.1 ∧ result.2 + z.length = len + result.1.length := by
  induction n, z, len using intToCharsLoop.induct with
  | case1 z len =>
    rw [intToCharsLoop, dif_pos rfl]
    exact .pure ⟨⟨hz, by simp, Nat.le_refl _, fun hne => absurd rfl hne⟩, rfl⟩
  | case2 n z len hne ih =>
    rw [intToCharsLoop, dif_neg hne]
    refine (add_spec len 1).bind fun len' hlen' => ?_
    obtain ⟨hdiv, hmod⟩ := tdiv_tmod_ten hn
    obtain ⟨hdigit, hvalue⟩ := digitChar_isDigit (Nat.mod_lt n.natAbs (by decide : 0 < 10))
    rw [← hmod] at hdigit hvalue
    have hz' : AllDigits (digitChar (n.tmod 10) :: z) := by
      intro c hc
      rcases List.mem_cons.1 hc with rfl | hc
      · exact hdigit
      · exact hz c hc
    refine (ih len' (by omega) hz').mono fun result hresult => ?_
    obtain ⟨⟨hdigits, hval, hle, _⟩, hlen⟩ := hresult
    rw [List.length_cons] at hle hlen
    refine ⟨⟨hdigits, ?_, by omega, fun _ => by omega⟩, by omega⟩
    have habs : n.natAbs = (n.tdiv 10).natAbs * 10 + n.natAbs % 10 := by omega
    rw [hval, digitsValue_cons, hvalue, List.length_cons, pow_succ]
    conv_rhs => rw [habs]
    ring

theorem readExp_digits (hl : AllDigits l) (hne : l ≠ []) :
    readExp ('E' :: l) = some (digitsValue l : Int) ∧
      readExp ('E' :: '~' :: l) = some (-(digitsValue l : Int)) := by
  have hall : l.all Char.isDigit = true := List.all_eq_true.2 hl
  have hsign : readSign l = (false, l) := by
    refine readSign_digits fun c rest heq => hl c ?_
    rw [heq]
    exact List.mem_cons_self
  constructor
  · simp only [readExp, hsign]
    rw [if_pos ⟨hne, hall⟩]
    rfl
  · simp only [readExp, readSign]
    rw [if_pos ⟨hne, hall⟩]
    rfl

theorem intToChars_spec {pos : Int} (hn : InRange n) :
    Checked (intToChars '~' n pos) exact fun result =>
      readExp ('E' :: result.1) = some n ∧ result.2 = pos + result.1.length := by
  have hnil : AllDigits [] := by simp [AllDigits]
  rw [intToChars]
  by_cases hzero : n = 0
  · rw [if_pos hzero]
    refine (add_spec pos 1).bind fun len hlen => .pure ⟨?_, hlen⟩
    rw [hzero]
    rfl
  · rw [if_neg hzero]
    by_cases hpos : 0 < n
    · rw [if_pos hpos]
      obtain ⟨hlow, hhigh⟩ := hn
      refine (subUnsafe_spec ⟨by omega, by omega⟩).bind fun negated hnegated => ?_
      refine (intToCharsLoop_spec (by omega) hnil).mono fun result hresult => ?_
      obtain ⟨⟨hdigits, hval, _, hlt⟩, hlen⟩ := hresult
      have hne : result.1 ≠ [] := List.length_pos_iff.1 (hlt (by omega))
      rw [(readExp_digits hdigits hne).1, hval]
      simp only [List.length_nil, pow_zero, digitsValue, List.foldl_nil] at hlen ⊢
      exact ⟨congrArg some (by omega), by omega⟩
    · rw [if_neg hpos]
      refine (add_spec pos 1).bind fun pos' hpos' => ?_
      refine (intToCharsLoop_spec (by omega) hnil).bind fun result hresult => ?_
      obtain ⟨⟨hdigits, hval, _, hlt⟩, hlen⟩ := hresult
      have hne : result.1 ≠ [] := List.length_pos_iff.1 (hlt hzero)
      refine .pure ⟨?_, ?_⟩
      · rw [(readExp_digits hdigits hne).2, hval]
        simp only [List.length_nil, pow_zero, digitsValue, List.foldl_nil]
        exact congrArg some (by omega)
      · simp only [List.length_nil, List.length_cons] at hlen ⊢
        omega

theorem copyChars_spec {size : Int} {xs : List Char}
    (h : Holds buf size xs) (hi : i = xs.length) (hrange : InRange (i + l.length)) :
    Sized (copyChars buf i l) exact fun buf' => Holds buf' size (xs ++ l) := by
  induction l generalizing buf xs i with
  | nil => exact .pure (by simpa using h)
  | cons c l ih =>
    rw [List.length_cons] at hrange
    obtain ⟨hlow, hhigh⟩ := hrange
    refine (addUnsafe_spec ⟨by omega, by omega⟩).bind fun next hnext => ?_
    refine (ih (h.update hi c) ?_ ⟨by omega, by omega⟩).mono fun buf' hbuf' => ?_
    · rw [hnext, hi, List.length_append]
      rfl
    · rwa [List.append_assoc] at hbuf'

theorem appendExponent_spec {str : List Char} {exp : Int} (hexp : InRange exp) :
    Sized (appendExponent str '~' exp) exact fun buf => ∃ l, readExp ('E' :: l) = some exp ∧
      Holds buf (str ++ 'E' :: l).length (str ++ 'E' :: l) := by
  rw [appendExponent]
  have hchars : Checked (do intToChars '~' exp (← add (str.length : Int) 1)) exact fun result =>
      readExp ('E' :: result.1) = some exp ∧
        result.2 = (str.length : Int) + 1 + result.1.length :=
    (add_spec _ _).bind fun pos hpos => by
      rw [← hpos]
      exact intToChars_spec hexp
  refine (orSize_spec hchars).bind fun result hresult => ?_
  obtain ⟨l, allocSize⟩ := result
  obtain ⟨hread, halloc⟩ := hresult
  simp only at hread halloc ⊢
  refine (stringAlloc_spec allocSize).bind fun buf hbuf => ?_
  obtain ⟨hsize, hupto, hlow, hhigh⟩ := hbuf
  have hmax : maxStringSize < 2 ^ 28 := by decide
  refine (copyUnsafe_spec ⟨hsize, hupto⟩ (by omega) (by omega) (by omega) rfl).bind
    fun buf1 hbuf1 => ?_
  rw [Int.toNat_zero, List.drop_zero, Int.toNat_natCast, List.take_length,
    List.nil_append] at hbuf1
  have hmarked := hbuf1.update rfl 'E'
  refine (addUnsafe_spec ⟨by omega, by omega⟩).bind fun start hstart => ?_
  refine (copyChars_spec hmarked (by simp; omega) ⟨by omega, by omega⟩).mono fun buf2 hbuf2 => ?_
  rw [List.append_assoc, List.singleton_append] at hbuf2
  refine ⟨l, hread, ?_, hbuf2.upto⟩
  rw [hbuf2.size, halloc]
  simp
  omega

end Exponent

/-- A string of decimal digits, as long as strings can be. -/
structure Digits where
  chars : List Char
  nonempty : chars ≠ []
  digits : AllDigits chars
  size_le : (chars.length : Int) ≤ maxStringSize

/-- Every position of the buffer has been written once, and the string denotes
the number and has the fractional digits that are asked for. -/
structure Correct (sign : Bool) (decpt : Int) (digits : List Char) (prec : Int)
    (buf : Buffer) : Prop where
  writtenOnce : buf.WrittenOnce
  denotes : ∃ numeral, readNumeral buf.contents = some numeral ∧
    numeral.value = decimalValue sign digits decpt ∧ prec ≤ numeral.frac.length

/-- `Size` is raised, or the result is correct and no operation of the unchecked
arithmetic has overflowed. -/
def SizeOrCorrect (x : Fmt Buffer) (sign : Bool) (decpt : Int) (digits : List Char)
    (prec : Int) : Prop :=
  x true = .error .size ∨ ∃ buf, x true = .ok (buf, true) ∧ Correct sign decpt digits prec buf

theorem Sized.sizeOrCorrect {x : Fmt Buffer}
    {digits : List Char} (h : Sized x true (Correct sign decpt digits prec)) :
    SizeOrCorrect x sign decpt digits prec := by
  rcases h with ⟨failure, rfl, hfail⟩ | ⟨buf, hcorrect, hok⟩
  · exact Or.inl hfail
  · exact Or.inr ⟨buf, hok, hcorrect⟩

theorem Formatted.correct {digits : List Char} (h : Formatted sign decpt digits prec buf int frac) :
    Correct sign decpt digits prec buf := by
  obtain ⟨k, hvalue, hk⟩ := h.value
  refine ⟨h.holds.upto.writtenOnce h.holds.size, ⟨sign, int, frac, 0⟩, ?_,
    Numeral.value_eq hvalue (by omega), h.prec_le⟩
  rw [h.holds.upto.contents h.holds.size]
  have hstops : Stops [] := by simp [Stops]
  have hread := readNumeral_chars sign h.int_ne h.intDigits h.fracDigits hstops (by simp) rfl
  rwa [List.append_nil] at hread

/-- The exponent after the digits moves the point. -/
theorem Formatted.correct_exp {digits : List Char}
    {str : Buffer} (h : Formatted sign 1 digits prec str int frac)
    (hread : readExp ('E' :: l) = some (decpt - 1))
    (hbuf : Holds buf (str.contents ++ 'E' :: l).length (str.contents ++ 'E' :: l)) :
    Correct sign decpt digits prec buf := by
  obtain ⟨k, hvalue, hk⟩ := h.value
  refine ⟨hbuf.upto.writtenOnce hbuf.size, ⟨sign, int, frac, decpt - 1⟩, ?_,
    Numeral.value_eq hvalue (by omega), h.prec_le⟩
  rw [hbuf.upto.contents hbuf.size, h.holds.upto.contents h.holds.size]
  have hstops : Stops ('E' :: l) := by
    intro c s heq
    cases heq
    rfl
  have hnumeral := readNumeral_chars sign h.int_ne h.intDigits h.fracDigits hstops
    (by simp) hread
  simpa using hnumeral

theorem fmtSCI'_sized {digits : List Char}
    (hne : digits ≠ []) (hdigits : AllDigits digits) (hexp : InRange (decpt - 1)) :
    Sized (fmtSCI' sign decpt digits prec) true (Correct sign decpt digits prec) := by
  refine (subUnsafe_spec hexp).bind fun exp hexp' => ?_
  refine (insertSignAndDot_sized sign hne hdigits).bind fun str hstr => ?_
  obtain ⟨int, frac, hformatted⟩ := hstr
  rw [hexp']
  refine (appendExponent_spec hexp).mono fun buf hbuf => ?_
  obtain ⟨l, hread, hholds⟩ := hbuf
  exact hformatted.correct_exp hread hholds

/-- For every sign, exponent, digit string and precision, the formatting raises
`Size` or is correct; with an exponent after the digits, this leaves out the
least integer, whose predecessor is not an integer of 32 bits. -/
theorem format_sizeOrCorrect (sign : Bool) (decpt prec : Int32) (digits : Digits) :
    SizeOrCorrect (insertSignAndDot sign decpt.toInt digits.chars prec.toInt)
        sign decpt.toInt digits.chars prec.toInt ∧
      (decpt ≠ Int32.minValue →
        SizeOrCorrect (fmtSCI' sign decpt.toInt digits.chars prec.toInt)
          sign decpt.toInt digits.chars prec.toInt) := by
  constructor
  · refine Sized.sizeOrCorrect
      ((insertSignAndDot_sized sign digits.nonempty digits.digits).mono ?_)
    rintro buf ⟨int, frac, hformatted⟩
    exact hformatted.correct
  · intro hdecpt
    refine Sized.sizeOrCorrect (fmtSCI'_sized digits.nonempty digits.digits ⟨?_, ?_⟩)
    · have hlow := decpt.le_toInt
      have hne : decpt.toInt ≠ -2 ^ 31 := fun heq => hdecpt (Int32.toInt_inj.1 heq)
      omega
    · have hhigh := decpt.toInt_lt
      omega

/-- The digits `12` at the exponent -3, with a precision of four. -/
theorem format_sizeOrCorrect_small :
    SizeOrCorrect (fmtSCI' true (-3) ['1', '2'] 4) true (-3) ['1', '2'] 4 :=
  (format_sizeOrCorrect true (-3) 4
    ⟨['1', '2'], by decide, by simp [AllDigits], by decide⟩).2 (by decide)

theorem intToCharsLoop_next {z : List Char} {exact : Bool} (hn : n ≠ 0)
    (hlen : InRange (len + 1)) : intToCharsLoop n z len exact =
      intToCharsLoop (n.tdiv 10) (digitChar (n.tmod 10) :: z) (len + 1) exact := by
  rw [intToCharsLoop, dif_neg hn, add, checked, if_pos hlen]
  rfl

theorem intToChars_greatest : intToChars '~' 2147483647 2 false =
      .ok ((['2', '1', '4', '7', '4', '8', '3', '6', '4', '7'], 12), false) := by
  have hloop : intToCharsLoop (-2147483647) [] 2 false =
      .ok ((['2', '1', '4', '7', '4', '8', '3', '6', '4', '7'], 12), false) := by
    iterate 10 rw [intToCharsLoop_next (by decide) (by decide)]
    rw [intToCharsLoop, dif_pos (by decide)]
    rfl
  rw [intToChars, if_neg (by decide), if_pos (by decide), stateT_bind_ok]
  exact ⟨-2147483647, false, rfl, hloop⟩

theorem appendExponent_greatest : appendExponent ['1'] '~' 2147483647 false =
      .ok (⟨12, writesFrom 0 ['1', 'E', '2', '1', '4', '7', '4', '8', '3', '6', '4', '7']⟩,
        false) := by
  have hchars : orSize (do intToChars '~' 2147483647 (← add (1 : Int) 1)) false =
      .ok ((['2', '1', '4', '7', '4', '8', '3', '6', '4', '7'], 12), false) := by
    have hrun : (do intToChars '~' 2147483647 (← add (1 : Int) 1) : Fmt _) false =
        .ok ((['2', '1', '4', '7', '4', '8', '3', '6', '4', '7'], 12), false) :=
      stateT_bind_ok.2 ⟨2, false, rfl, intToChars_greatest⟩
    rw [orSize, hrun]
  rw [appendExponent, stateT_bind_ok]
  exact ⟨_, _, hchars, rfl⟩

theorem one_le_value {exp : Int} (hexp : 0 ≤ exp) :
    1 ≤ (⟨false, ['1'], [], exp⟩ : Numeral).value := by
  have hpow : (1 : Rat) ≤ 10 ^ exp := one_le_zpow₀ (by norm_num) hexp
  simpa [Numeral.value, digitsValue] using hpow

theorem decimalValue_lt_one (hdecpt : decpt ≤ 0) :
    decimalValue false ['1'] decpt < 1 := by
  have hpow : (10 : Rat) ^ decpt ≤ 1 := zpow_le_one_of_nonpos₀ (by norm_num) hdecpt
  have hvalue : decimalValue false ['1'] decpt = 1 / 10 * 10 ^ decpt := by
    simp [decimalValue, digitsValue]
  rw [hvalue]
  linarith

/-- The exponent of the least integer wraps around: the string denotes a number
above one. -/
theorem fmtSCI'_least_incorrect :
    ∃ buf exact, fmtSCI' false (-2 ^ 31) ['1'] 0 true = .ok (buf, exact) ∧
      ¬ Correct false (-2 ^ 31) ['1'] 0 buf := by
  let chars := ['1', 'E', '2', '1', '4', '7', '4', '8', '3', '6', '4', '7']
  have hrun : fmtSCI' false (-2 ^ 31) ['1'] 0 true = .ok (⟨12, writesFrom 0 chars⟩, false) := by
    rw [fmtSCI', stateT_bind_ok]
    refine ⟨2147483647, false, rfl, ?_⟩
    rw [stateT_bind_ok]
    exact ⟨⟨1, [(0, '1')]⟩, false, rfl, appendExponent_greatest⟩
  refine ⟨_, _, hrun, fun hcorrect => ?_⟩
  obtain ⟨numeral, hread, hvalue, _⟩ := hcorrect.denotes
  have hcontents : (⟨12, writesFrom 0 chars⟩ : Buffer).contents = chars :=
    Upto.contents rfl rfl
  have hnumeral : readNumeral chars = some ⟨false, ['1'], [], 2147483647⟩ := by decide
  rw [hcontents, hnumeral, Option.some.injEq] at hread
  subst hread
  have hbig : 1 ≤ (⟨false, ['1'], [], 2147483647⟩ : Numeral).value := one_le_value (by decide)
  rw [hvalue] at hbig
  exact absurd hbig (not_le.2 (decimalValue_lt_one (by decide)))

end SmlSharp.Real64
