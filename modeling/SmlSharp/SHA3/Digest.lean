/-
`keccak` computes the sponge of FIPS 202: the padding that `readBlock` writes is
the suffix of the function followed by `pad10*1`.
-/
import SmlSharp.SHA3.Words

namespace SmlSharp

namespace SHA3

open BitString ElementArray

/-- The byte `padH` holds the suffix of the message and the first bit of the
padding. -/
structure Setting.Suffix (setting : Setting) (suffix : List Bool) : Prop where
  length_le : suffix.length ≤ 6
  bits : ofWord setting.padH =
    suffix ++ true :: List.replicate (7 - suffix.length) false

/-- The blocks of the message from an index on, as `readBlock` pads them. -/
def padded (setting : Setting) (suffix : List Bool) (w : List Word8) (i : Nat) : List Bool :=
  ofWords (w.drop i) ++ suffix ++
    Sponge.pad (8 * setting.rate) (8 * (w.length - i) + suffix.length)

theorem ofWord_or_padL (v : Word8) : ofWord (v ||| padL) = (ofWord v).take 7 ++ [true] := by
  simp [ofWord, padL, List.ofFn_succ]

section Reading

variable {setting : Setting} {suffix : List Bool} {w : List Word8} {i l : Nat}

theorem array_ok {n : Nat} (hle : n ≤ Word8Array.maxLen) (w : Word8) :
    Word8Array.array n w = .ok (List.replicate n w) := by
  rw [Word8Array.array, if_pos ⟨Int.natCast_nonneg n, Int.ofNat_le.mpr hle⟩, Int.toNat_natCast]

/-- The new block after the copy of the message. -/
theorem copyVec_ok {s : List Word8} (hle : s.length ≤ 200) :
    copyVec (List.replicate 200 0) 0 s = .ok (s ++ List.replicate (200 - s.length) 0) := by
  rw [copyVec, if_pos (by rw [List.length_replicate]; omega), splice, List.take_zero,
    List.nil_append, List.drop_replicate, Nat.zero_add]

theorem array_update_ok {s t : List Word8} {x y : Word8} :
    Word8Array.update (s ++ x :: t) s.length y = .ok (s ++ y :: t) := by
  rw [Word8Array.update, if_pos (by simp), List.set_append_right _ _ (Nat.le_refl _),
    Nat.sub_self, List.set_cons_zero]

theorem slice_ok {n : Nat} (hfit : i + n ≤ w.length) :
    slice w i n = .ok ((w.drop i).take n) := by
  rw [slice, if_pos (by omega)]

/-- A full block of the message. -/
theorem readBlock_full (hlen : i + l = w.length) (hle : setting.rate ≤ l) :
    ∃ b, readBlock setting w i l =
        .ok (b, .INPUT w (i + setting.rate) (l - setting.rate)) ∧ b.length = 200 ∧
      ofWords b = ofWords ((w.drop i).take setting.rate) ++
        List.replicate (1600 - 8 * setting.rate) false := by
  have hrate := setting.rate_le
  have hblock : ((w.drop i).take setting.rate).length = setting.rate := by
    rw [List.length_take, List.length_drop]
    omega
  have hcopy := copyVec_ok (Nat.le_trans (Nat.le_of_eq hblock) hrate)
  have harray : Word8Array.array 200 0 = .ok (List.replicate 200 0) :=
    array_ok (n := 200) (by decide) 0
  rw [hblock] at hcopy
  refine ⟨(w.drop i).take setting.rate ++ List.replicate (200 - setting.rate) 0, ?_, ?_, ?_⟩
  · simp only [readBlock, harray, except_ok_bind, if_neg (Nat.not_lt.mpr hle),
      slice_ok (show i + setting.rate ≤ w.length by omega), hcopy, ge_iff_le, if_pos hle]
    rfl
  · rw [List.length_append, hblock, List.length_replicate]
    omega
  · rw [ofWords_append, ofWords_replicate_zero, Nat.mul_sub]

/-- The last block before the padding. -/
theorem readBlock_rest (hlen : i + l = w.length) (hlt : l < setting.rate) :
    readBlock setting w i l =
      (if l = setting.rate - 1 then do
        let a ← Word8Array.update (w.drop i ++ List.replicate (200 - l) 0) l
          (setting.padH ||| padL)
        return (a, .EOF)
      else do
        let a ← Word8Array.update (w.drop i ++ List.replicate (200 - l) 0) l setting.padH
        let a ← Word8Array.update a (setting.rate - 1) padL
        return (a, .EOF)) := by
  have hrest : (w.drop i).length = l := by
    rw [List.length_drop]
    omega
  have hrate := setting.rate_le
  have hcopy := copyVec_ok (s := w.drop i) (by omega)
  have harray : Word8Array.array 200 0 = .ok (List.replicate 200 0) :=
    array_ok (n := 200) (by decide) 0
  rw [hrest] at hcopy
  simp only [readBlock, harray, except_ok_bind, if_pos hlt, slice_ok (Nat.le_of_eq hlen),
    List.take_of_length_le (Nat.le_of_eq hrest), hcopy, ge_iff_le,
    if_neg (Nat.not_le.mpr hlt)]

/-- The last block of the message, with the padding. -/
theorem readBlock_last (hsuffix : setting.Suffix suffix) (hlen : i + l = w.length)
    (hlt : l < setting.rate) :
    ∃ b, readBlock setting w i l = .ok (b, .EOF) ∧ b.length = 200 ∧
      ofWords b = padded setting suffix w i ++
        List.replicate (1600 - 8 * setting.rate) false := by
  have hrest : (w.drop i).length = l := by
    rw [List.length_drop]
    omega
  have hrate := setting.rate_le
  have hsuffixLen := hsuffix.length_le
  have hleft : w.length - i = l := by omega
  have hpad := Sponge.pad_of_le
    (show 8 * l + suffix.length + 2 ≤ 8 * setting.rate by omega)
  have hzeros : ∀ k, List.replicate (k + 1) (0 : Word8) = 0 :: List.replicate k 0 :=
    fun k => List.replicate_succ
  rw [readBlock_rest hlen hlt, padded, hleft, hpad]
  by_cases hfull : l = setting.rate - 1
  · refine ⟨w.drop i ++ (setting.padH ||| padL) :: List.replicate (199 - l) 0, ?_, ?_, ?_⟩
    · have hupdate := @array_update_ok (w.drop i) (List.replicate (199 - l) 0) 0
        (setting.padH ||| padL)
      rw [hrest, ← hzeros, show 199 - l + 1 = 200 - l by omega] at hupdate
      rw [if_pos hfull, hupdate]
      rfl
    · simp [hrest]
      omega
    · have htake : (suffix ++ true :: List.replicate (7 - suffix.length) false).take 7 =
          suffix ++ true :: List.replicate (6 - suffix.length) false := by
        have hsucc : 7 - suffix.length = 6 - suffix.length + 1 := by omega
        rw [List.take_append, List.take_of_length_le (by omega), hsucc, List.take_succ_cons,
          List.take_replicate, Nat.min_eq_left (by omega)]
      have hgap : 8 * setting.rate - (8 * l + suffix.length + 2) = 6 - suffix.length := by
        omega
      have hend : 8 * (199 - l) = 1600 - 8 * setting.rate := by omega
      rw [ofWords_append, ofWords_cons, ofWord_or_padL, hsuffix.bits, htake,
        ofWords_replicate_zero, hgap, hend]
      simp
  · refine ⟨w.drop i ++ setting.padH :: List.replicate (setting.rate - 2 - l) 0 ++
      padL :: List.replicate (200 - setting.rate) 0, ?_, ?_, ?_⟩
    · have hfirst := @array_update_ok (w.drop i) (List.replicate (199 - l) 0) 0 setting.padH
      rw [hrest, ← hzeros, show 199 - l + 1 = 200 - l by omega] at hfirst
      have hsecond := @array_update_ok
        (w.drop i ++ setting.padH :: List.replicate (setting.rate - 2 - l) 0)
        (List.replicate (200 - setting.rate) 0) 0 padL
      have hindex : (w.drop i ++ setting.padH ::
          List.replicate (setting.rate - 2 - l) 0).length = setting.rate - 1 := by
        rw [List.length_append, hrest, List.length_cons, List.length_replicate]
        omega
      have hsplit : w.drop i ++ setting.padH :: List.replicate (setting.rate - 2 - l) 0 ++
          0 :: List.replicate (200 - setting.rate) 0 =
          w.drop i ++ setting.padH :: List.replicate (199 - l) 0 := by
        rw [← hzeros, List.append_assoc, List.cons_append, List.replicate_append_replicate]
        congr 3
        omega
      rw [hindex, hsplit] at hsecond
      rw [if_neg hfull, hfirst, except_ok_bind, hsecond]
      rfl
    · simp [hrest]
      omega
    · have hpadL : ofWord padL = List.replicate 7 false ++ [true] := by decide
      have hgap : 8 * setting.rate - (8 * l + suffix.length + 2) =
          7 - suffix.length + (8 * (setting.rate - 2 - l) + 7) := by omega
      have hend : 8 * (200 - setting.rate) = 1600 - 8 * setting.rate := by omega
      rw [ofWords_append, ofWords_append, ofWords_cons, ofWords_cons, hsuffix.bits, hpadL,
        ofWords_replicate_zero, ofWords_replicate_zero, hgap, hend, List.replicate_add,
        List.replicate_add (8 * (setting.rate - 2 - l))]
      simp only [List.append_assoc, List.cons_append, List.nil_append]

/-- The padded message splits at a full block. -/
theorem padded_full (hlen : i + l = w.length) (hle : setting.rate ≤ l) :
    padded setting suffix w i = ofWords ((w.drop i).take setting.rate) ++
        padded setting suffix w (i + setting.rate) := by
  have hsum : 8 * (w.length - i) + suffix.length =
      8 * setting.rate + (8 * (w.length - (i + setting.rate)) + suffix.length) := by omega
  rw [padded, padded, hsum, Sponge.pad_add, ← List.append_assoc, ← List.append_assoc,
    ← ofWords_append, ← List.drop_drop, List.take_append_drop]

end Reading

section Runs

variable {setting : Setting} {suffix : List Bool}

/-- The state after a block. -/
theorem absorbBlock_bits {b : List Word8} {block : List Bool} {rate : Nat}
    (hlen : b.length = 200)
    (hbits : ofWords b = block ++ List.replicate (1600 - 8 * rate) false) (s : State) :
    ∃ s', absorbBlock b s = .ok s' ∧ (permute s').bits =
        Sponge.absorbBlock Fips202.keccakP (8 * rate) 1600 s.bits block := by
  obtain ⟨s', hok, heq⟩ := absorbBlock_ok hlen s
  exact ⟨s', hok, by rw [bits_permute, heq, hbits, Sponge.absorbBlock]⟩

/-- One turn of the loop of `absorb`. -/
theorem absorbLoop_turn {w b : List Word8} {i l : Nat} {next : Input} {m s : State}
    (hread : readBlock setting w i l = .ok (b, next)) (hok : absorbBlock b m = .ok s) :
    absorbLoop setting m (.INPUT w i l) = absorbLoop setting (permute s) next := by
  rw [absorbLoop]
  split
  · next e herror =>
      rw [hread] at herror
      cases herror
  · next b' next' hread' =>
      rw [hread] at hread'
      cases hread'
      rw [hok, except_ok_bind]

/-- The rest of the message from an index on enters the state. -/
theorem absorbLoop_ok (hsuffix : setting.Suffix suffix) {w : List Word8} {i l : Nat}
    (hlen : i + l = w.length) (m : State) :
    ∃ m', absorbLoop setting m (.INPUT w i l) = .ok m' ∧
      m'.bits = Sponge.absorb Fips202.keccakP (8 * setting.rate) 1600 m.bits
        (padded setting suffix w i) := by
  have hpos := setting.rate_pos
  have hrate := setting.rate_le
  induction l using Nat.strongRecOn generalizing i m with
  | ind l ih =>
    by_cases hle : setting.rate ≤ l
    · obtain ⟨b, hread, hb, hbits⟩ := readBlock_full hlen hle
      obtain ⟨s', hok, hs'⟩ := absorbBlock_bits hb hbits m
      obtain ⟨m', hloop, hm'⟩ := ih (l - setting.rate) (by omega)
        (show i + setting.rate + (l - setting.rate) = w.length by omega) (permute s')
      have hblock : (ofWords ((w.drop i).take setting.rate)).length = 8 * setting.rate := by
        rw [length_ofWords, List.length_take, List.length_drop, Nat.min_eq_left (by omega)]
      refine ⟨m', ?_, ?_⟩
      · rw [absorbLoop_turn hread hok, hloop]
      · rw [hm', hs', padded_full hlen hle, Sponge.absorb_append (by omega) _ hblock]
    · obtain ⟨b, hread, hb, hbits⟩ := readBlock_last hsuffix hlen (Nat.lt_of_not_le hle)
      obtain ⟨s', hok, hs'⟩ := absorbBlock_bits hb hbits m
      have hblock : (padded setting suffix w i).length = 8 * setting.rate := by
        have hlength := congrArg List.length hbits
        rw [length_ofWords, hb, List.length_append, List.length_replicate] at hlength
        omega
      refine ⟨permute s', ?_, ?_⟩
      · rw [absorbLoop_turn hread hok, absorbLoop]
      · rw [hs', Sponge.absorb_block (by omega) _ hblock]

/-- The blocks of the output are written from an index on. -/
theorem squeezeLoop_ok {output : List Word8} {i l : Nat} (hfit : i + l ≤ output.length)
    (state : State) : ∃ bytes : List Word8, bytes.length = l ∧ ofWords bytes =
        Sponge.squeeze Fips202.keccakP (8 * setting.rate) state.bits (8 * l) ∧
      squeezeLoop setting output state i l = .ok (splice i bytes output) := by
  have hpos := setting.rate_pos
  have hrate := setting.rate_le
  induction l using Nat.strongRecOn generalizing i output state with
  | ind l ih =>
    by_cases hle : l ≤ setting.rate
    · obtain ⟨bytes, hbytes, hbits, hok⟩ := serialize_ok hfit (by omega) state
      refine ⟨bytes, hbytes, ?_, ?_⟩
      · rw [hbits, Sponge.squeeze_of_le (Nat.mul_le_mul_left 8 hle)]
      · rw [squeezeLoop, if_pos hle, hok]
    · obtain ⟨block, hblock, hblockBits, hok⟩ :=
        serialize_ok (show i + setting.rate ≤ output.length by omega) hrate state
      have hroom : i + block.length ≤ output.length := by omega
      have hlen := length_splice hroom
      obtain ⟨bytes, hbytes, hbits, hloop⟩ := ih (l - setting.rate) (by omega)
        (show i + setting.rate + (l - setting.rate) ≤ (splice i block output).length by omega)
        (permute state)
      have hstate : 8 * setting.rate ≤ state.bits.length := by
        have hwords : state.words.length = 25 := rfl
        rw [State.bits, length_ofWords, hwords]
        omega
      refine ⟨block ++ bytes, by rw [List.length_append]; omega, ?_, ?_⟩
      · rw [Sponge.squeeze_of_lt (by omega) hstate (by omega), ofWords_append, hblockBits,
          hbits, bits_permute, Nat.mul_sub]
      · rw [squeezeLoop, if_neg hle, hok, except_ok_bind, hloop, ← hblock,
          splice_splice hroom]

/-- An output that an array can hold. -/
theorem keccak_ok (hsuffix : setting.Suffix suffix) {outputLen : Nat}
    (hle : outputLen ≤ Word8Array.maxLen) (input : List Word8) :
    ∃ digest, keccak setting outputLen input = .ok digest ∧ digest.length = outputLen ∧
      ofWords digest =
        Sponge.sponge Fips202.keccakP (8 * setting.rate) 1600 (ofWords input ++ suffix)
          (8 * outputLen) := by
  obtain ⟨m, habsorb, hm⟩ :=
    absorbLoop_ok hsuffix (Nat.zero_add input.length) initialState
  have hinitial : initialState.bits = List.replicate 1600 false :=
    ofWords_replicate_zero (n := 64) 25
  have hpadded : padded setting suffix input 0 = ofWords input ++ suffix ++
      Sponge.pad (8 * setting.rate) (ofWords input ++ suffix).length := by
    rw [padded, List.drop_zero, Nat.sub_zero, List.length_append, length_ofWords]
  have hout : (List.replicate outputLen (0 : Word8)).length = outputLen :=
    List.length_replicate
  obtain ⟨bytes, hbytes, hbits, hloop⟩ := @squeezeLoop_ok setting
    (List.replicate outputLen 0) 0 outputLen (by omega) m
  refine ⟨bytes, ?_, hbytes, ?_⟩
  · rw [keccak, absorb, habsorb, except_ok_bind, array_ok hle, except_ok_bind, squeeze, hout,
      hloop, splice_of_length_eq (by omega)]
  · rw [hbits, hm, hinitial, hpadded, Sponge.sponge]

/-- An output that no array can hold. -/
theorem keccak_size (hsuffix : setting.Suffix suffix) {outputLen : Int}
    (hnot : ¬ (0 ≤ outputLen ∧ outputLen ≤ Word8Array.maxLen)) (input : List Word8) :
    keccak setting outputLen input = .error .size := by
  obtain ⟨m, habsorb, -⟩ :=
    absorbLoop_ok hsuffix (Nat.zero_add input.length) initialState
  rw [keccak, absorb, habsorb, except_ok_bind, Word8Array.array, if_neg hnot]
  rfl

/-- A shorter output is a prefix of a longer one. -/
theorem keccak_shorter (hsuffix : setting.Suffix suffix) {short long : Nat}
    (hshort : short ≤ long) (hlong : long ≤ Word8Array.maxLen) (input : List Word8) :
    ∃ digest digest', keccak setting short input = .ok digest ∧
      keccak setting long input = .ok digest' ∧ digest <+: digest' := by
  obtain ⟨digest, hdigest, hlen, hbits⟩ :=
    keccak_ok hsuffix (Nat.le_trans hshort hlong) input
  obtain ⟨digest', hdigest', hlen', hbits'⟩ := keccak_ok hsuffix hlong input
  refine ⟨digest, digest', hdigest, hdigest', ?_⟩
  have hshorter : ofWords digest <+: ofWords digest' := by
    rw [hbits, hbits']
    exact Sponge.squeeze_shorter _ (Nat.mul_le_mul_left 8 hshort)
  have htake : ofWords digest = ofWords (digest'.take short) := by
    rw [ofWords_take, List.prefix_iff_eq_take.mp hshorter, length_ofWords, hlen]
  have heq : digest = digest'.take short :=
    ofWords_injective (by rw [List.length_take]; omega) htake
  rw [heq]
  exact List.take_prefix short digest'

end Runs

/-- The result is the digest with these bits. -/
def Yields (result : Except Exn (List Word8)) (bits : List Bool) : Prop :=
  ∃ digest, result = .ok digest ∧ ofWords digest = bits

theorem keccak_yields {setting : Setting} {suffix : List Bool}
    (hsuffix : setting.Suffix suffix) {outputLen : Nat}
    (hle : outputLen ≤ Word8Array.maxLen) (input : List Word8) :
    Yields (keccak setting outputLen input)
      (Fips202.keccak (1600 - 8 * setting.rate) (ofWords input ++ suffix)
        (8 * outputLen)) := by
  obtain ⟨digest, hok, -, hbits⟩ := keccak_ok hsuffix hle input
  have hrate : 1600 - (1600 - 8 * setting.rate) = 8 * setting.rate := by
    have hle := setting.rate_le
    omega
  exact ⟨digest, hok, by rw [hbits, Fips202.keccak, hrate]⟩

/-- `padH` of the hash functions. -/
theorem suffix_sha3 {rate : Nat} (hpos : 0 < rate) (hle : rate ≤ 200) :
    (Setting.mk rate 0x06 hpos hle).Suffix [false, true] where
  length_le := by decide
  bits := show ofWord (0x06 : Word8) = [false, true] ++ true :: List.replicate 5 false by decide

/-- `padH` of the extendable-output functions. -/
theorem suffix_shake {rate : Nat} (hpos : 0 < rate) (hle : rate ≤ 200) :
    (Setting.mk rate 0x1f hpos hle).Suffix [true, true, true, true] where
  length_le := by decide
  bits := show ofWord (0x1f : Word8) =
    [true, true, true, true] ++ true :: List.replicate 3 false by decide

/-- With every rate and suffix the result is that of the sponge, and so are the
digests of the exported functions; an output length that no array has is
refused; a shorter output of `SHAKE` is a prefix of a longer one. -/
theorem keccak_sponge :
    (∀ (setting : Setting) (suffix : List Bool), setting.Suffix suffix →
      ∀ (input : List Word8) (outputLen : Nat),
        if outputLen ≤ Word8Array.maxLen then
          Yields (keccak setting outputLen input)
            (Fips202.keccak (1600 - 8 * setting.rate) (ofWords input ++ suffix)
              (8 * outputLen))
        else keccak setting outputLen input = .error .size) ∧
    (∀ input, Yields (sha3_224 input) (Fips202.sha3_224 (ofWords input)) ∧
      Yields (sha3_256 input) (Fips202.sha3_256 (ofWords input)) ∧
      Yields (sha3_384 input) (Fips202.sha3_384 (ofWords input)) ∧
      Yields (sha3_512 input) (Fips202.sha3_512 (ofWords input))) ∧
    (∀ input (l : Nat), l ≤ Word8Array.maxLen →
      Yields (shake128 input l) (Fips202.shake128 (ofWords input) (8 * l)) ∧
      Yields (shake256 input l) (Fips202.shake256 (ofWords input) (8 * l))) ∧
    (∀ input (short long : Nat), short ≤ long → long ≤ Word8Array.maxLen →
      (∃ digest digest', shake128 input short = .ok digest ∧
        shake128 input long = .ok digest' ∧ digest <+: digest') ∧
      (∃ digest digest', shake256 input short = .ok digest ∧
        shake256 input long = .ok digest' ∧ digest <+: digest')) := by
  refine ⟨?_, ?_, ?_, ?_⟩
  · intro setting suffix hsuffix input outputLen
    split
    · next hle => exact keccak_yields hsuffix hle input
    · next hgt =>
        apply keccak_size hsuffix
        intro hle
        exact hgt (Int.ofNat_le.mp hle.2)
  · intro input
    exact ⟨@keccak_yields _ _ (suffix_sha3 _ _) 28 (by decide) input,
      @keccak_yields _ _ (suffix_sha3 _ _) 32 (by decide) input,
      @keccak_yields _ _ (suffix_sha3 _ _) 48 (by decide) input,
      @keccak_yields _ _ (suffix_sha3 _ _) 64 (by decide) input⟩
  · intro input l hle
    exact ⟨keccak_yields (suffix_shake _ _) hle input,
      keccak_yields (suffix_shake _ _) hle input⟩
  · intro input short long hshort hlong
    exact ⟨keccak_shorter (suffix_shake _ _) hshort hlong input,
      keccak_shorter (suffix_shake _ _) hshort hlong input⟩

/-- One byte less than a block, which leaves one byte for the padding. -/
theorem keccak_sponge_shake :
    Yields (keccak ⟨168, 0x1f, by decide, by decide⟩ (500 : Nat) (List.replicate 167 1))
      (Fips202.keccak (1600 - 8 * 168)
        (ofWords (List.replicate 167 (1 : Word8)) ++ [true, true, true, true]) (8 * 500)) ∧
    ∃ digest digest', shake128 (List.replicate 167 1) (20 : Nat) = .ok digest ∧
      shake128 (List.replicate 167 1) (500 : Nat) = .ok digest' ∧ digest <+: digest' := by
  obtain ⟨hkeccak, -, -, hshorter⟩ := keccak_sponge
  have hsponge := hkeccak ⟨168, 0x1f, by decide, by decide⟩ _ (suffix_shake _ _)
    (List.replicate 167 1) 500
  rw [if_pos (by decide)] at hsponge
  exact ⟨hsponge, (hshorter (List.replicate 167 1) 20 500 (by decide) (by decide)).1⟩

end SHA3

end SmlSharp
