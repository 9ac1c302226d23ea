import Mathlib
import Treewalk.Proofs.Lexical.Patterns

namespace Treewalk

namespace Binary64

variable {num den num' den' c index : Nat}

theorem roundDiv_mul_right (hc : 0 < c) : roundDiv (num * c) (den * c) = roundDiv num den := by
  have hlt : 2 * (num % den * c) < den * c ↔ 2 * (num % den) < den := by
    rw [← Nat.mul_assoc]
    exact Nat.mul_lt_mul_right hc
  have heq : 2 * (num % den * c) = den * c ↔ 2 * (num % den) = den := by
    rw [← Nat.mul_assoc]
    exact Nat.mul_left_inj hc.ne'
  simp only [roundDiv, Nat.mul_div_mul_right _ _ hc, Nat.mul_mod_mul_right, hlt, heq]

theorem nearest_mul_right (hc : 0 < c) : nearest (num * c) (den * c) = nearest num den := by
  simp only [nearest, Nat.mul_right_comm _ c, Nat.mul_div_mul_right _ _ hc, roundDiv_mul_right hc]

theorem nearest_congr (hden : 0 < den) (hden' : 0 < den') (h : num * den' = num' * den) :
    nearest num den = nearest num' den' := by
  rw [← nearest_mul_right hden', h, Nat.mul_comm den, nearest_mul_right hden]

theorem nearest_le_infinity : nearest num den ≤ infinity :=
  Nat.min_le_left ..

theorem spacing_eq (index : Nat) : spacing index = index / 2 ^ fractionBits - 1 := rfl

theorem significand_eq (index : Nat) : significand index = index - spacing index * 2 ^ fractionBits := rfl

theorem units_eq (index : Nat) : units index = significand index * 2 ^ spacing index := rfl

theorem spacing_mul_le (index : Nat) : spacing index * 2 ^ fractionBits ≤ index :=
  calc spacing index * 2 ^ fractionBits
    _ ≤ index / 2 ^ fractionBits * 2 ^ fractionBits := Nat.mul_le_mul_right _ (Nat.sub_le ..)
    _ ≤ index := Nat.div_mul_le_self ..

theorem significand_lt (index : Nat) : significand index < 2 ^ (fractionBits + 1) := by
  have hindex : index < (spacing index + 2) * 2 ^ fractionBits := by
    refine (Nat.div_lt_iff_lt_mul (Nat.two_pow_pos _)).mp ?_
    rw [spacing_eq]
    omega
  have hpos := Nat.two_pow_pos fractionBits
  rw [Nat.add_mul] at hindex
  rw [significand_eq, Nat.pow_succ']
  omega

theorem le_significand (h : spacing index ≠ 0) : 2 ^ fractionBits ≤ significand index := by
  have hindex : (spacing index + 1) * 2 ^ fractionBits ≤ index := by
    refine (Nat.le_div_iff_mul_le (Nat.two_pow_pos _)).mp ?_
    rw [spacing_eq] at h ⊢
    omega
  rw [Nat.add_mul] at hindex
  rw [significand_eq]
  omega

theorem log2_units_sub (index : Nat) : (units index).log2 - fractionBits = spacing index := by
  have hlt := significand_lt index
  rw [units_eq]
  by_cases hs : spacing index = 0
  · rw [hs, Nat.pow_zero, Nat.mul_one]
    by_cases h0 : significand index = 0
    · rw [h0]
      rfl
    · have := (Nat.log2_lt h0).mpr hlt
      omega
  · have hle := le_significand hs
    have hpos : significand index ≠ 0 := (Nat.lt_of_lt_of_le (Nat.two_pow_pos _) hle).ne'
    have hlog : (significand index * 2 ^ spacing index).log2 = fractionBits + spacing index := by
      refine (Nat.log2_eq_iff (Nat.mul_ne_zero hpos (Nat.two_pow_pos _).ne')).mpr ⟨?_, ?_⟩
      · rw [Nat.pow_add]
        exact Nat.mul_le_mul_right _ hle
      · rw [Nat.add_right_comm, Nat.pow_add]
        exact Nat.mul_lt_mul_of_pos_right hlt (Nat.two_pow_pos _)
    omega

theorem roundDiv_mul_self (hden : 0 < den) : roundDiv (c * den) den = c := by
  simp [roundDiv, Nat.mul_div_cancel _ hden, hden]

theorem nearest_units (h : index ≤ infinity) : nearest (units index) (2 ^ unitBits) = index := by
  have hunit := Nat.two_pow_pos unitBits
  have hround : roundDiv (units index * 2 ^ unitBits) (2 ^ unitBits * 2 ^ spacing index) = significand index := by
    rw [units_eq, Nat.mul_assoc, Nat.mul_comm (2 ^ unitBits)]
    exact roundDiv_mul_self (Nat.mul_pos (Nat.two_pow_pos _) hunit)
  have hsum := spacing_mul_le index
  simp only [nearest, Nat.pow_eq, Nat.mul_div_cancel _ hunit, log2_units_sub, hround]
  rw [significand_eq]
  omega

end Binary64

namespace Decimal

variable {index : Nat}

theorem nearest_congr {d d' : Decimal} (h : d.numerator * d'.denominator = d'.numerator * d.denominator) :
    d.nearest = d'.nearest :=
  Binary64.nearest_congr d.denominator_pos d'.denominator_pos h

theorem nearest_exact (h : index ≤ Binary64.infinity) : (exact index).nearest = index := by
  rw [nearest, numerator, denominator]
  conv_rhs => rw [← Binary64.nearest_units h]
  refine Binary64.nearest_congr (Nat.pow_pos (by decide)) (Nat.two_pow_pos _) ?_
  rw [exact]
  generalize Binary64.unitBits = n
  generalize Binary64.units index = u
  have hup : (-(n : Int)).toNat = 0 := by omega
  have hdown : (- -(n : Int)).toNat = n := by omega
  simp only [hup, hdown, Nat.pow_eq, Nat.pow_zero, Nat.mul_one]
  rw [Nat.mul_assoc, ← Nat.mul_pow]

theorem nearest_shortest (h : index ≤ Binary64.infinity) : (shortest index).nearest = index := by
  rw [shortest]
  split
  case isTrue h0 =>
    rw [h0]
    decide +kernel
  case isFalse =>
    simp only
    cases hfound : (grids index).findSome? fun exponent => (neighbours index exponent).find? (·.nearest = index) with
    | none => exact nearest_exact h
    | some d =>
      obtain ⟨exponent, -, hd⟩ := List.exists_of_findSome?_eq_some hfound
      simpa using List.find?_some hd

theorem ofChars_whole {cs : List Char} (h : ∀ c ∈ cs, c.isDigit) : ofChars cs = ⟨Nat.ofDigitChars 10 cs 0, 0⟩ := by
  simp only [ofChars, List.takeWhile_eq_self_iff.mpr h, List.dropWhile_eq_nil_iff.mpr h]
  simp

theorem ofChars_pointed {cs ds : List Char} (h : ∀ c ∈ cs, c.isDigit) :
    ofChars (cs ++ '.' :: ds) = ⟨Nat.ofDigitChars 10 (cs ++ ds) 0, -ds.length⟩ := by
  have hpoint : ¬ '.'.isDigit := by decide
  simp only [ofChars, List.takeWhile_append_of_pos h, List.dropWhile_append_of_pos h,
    List.takeWhile_cons_of_neg hpoint, List.dropWhile_cons_of_neg hpoint]
  simp

theorem pointed_eq (places : Nat) (digits : List Char) :
    ∃ zeros whole fraction, whole ++ fraction = List.replicate zeros '0' ++ digits ∧ whole ≠ [] ∧
      fraction.length = places ∧ pointed places digits = whole ++ '.' :: fraction := by
  refine ⟨places + 1 - digits.length, _, _, List.take_append_drop _ _, ?_, ?_, rfl⟩
  · rw [ne_eq, List.take_eq_nil_iff, List.length_append, List.length_replicate]
    rintro (h | h)
    · omega
    · have := congrArg List.length h
      rw [List.length_append, List.length_replicate, List.length_nil] at this
      omega
  · rw [List.length_drop, List.length_append, List.length_replicate]
    omega

theorem isDigit_of_mem_padded {zeros n : Nat} {c : Char} (hc : c ∈ List.replicate zeros '0' ++ Nat.toDigits 10 n) :
    c.isDigit := by
  obtain hc | hc := List.mem_append.mp hc
  · obtain rfl := List.eq_of_mem_replicate hc
    rfl
  · exact Nat.isDigit_of_mem_toDigits (by decide) (by decide) hc

inductive Writes : Decimal → List Char → Prop
  | whole {n zeros : Nat} {whole : List Char} (digits : ∀ c ∈ whole, c.isDigit) (front : whole ≠ [])
      (value : Nat.ofDigitChars 10 whole 0 = 10 ^ zeros * n) : Writes ⟨n, .ofNat zeros⟩ whole
  | pointed {n places : Nat} {whole fraction : List Char} (digits : ∀ c ∈ whole ++ fraction, c.isDigit)
      (front : whole ≠ []) (length : fraction.length = places + 1)
      (value : Nat.ofDigitChars 10 (whole ++ fraction) 0 = n) :
      Writes ⟨n, .negSucc places⟩ (whole ++ '.' :: fraction)

theorem writes_chars (d : Decimal) : Writes d d.chars := by
  obtain ⟨n, zeros | places⟩ := d
  · refine .whole (fun c hc => ?_) ?_ ?_
    · exact isDigit_of_mem_padded (List.mem_append.mpr (List.mem_append.mp hc).symm)
    · intro h
      exact Nat.length_toDigits_pos.ne' (congrArg List.length (List.append_eq_nil_iff.mp h).1)
    · change Nat.ofDigitChars 10 (_ ++ _) 0 = _
      rw [Nat.ofDigitChars_append, Nat.ofDigitChars_replicate_zero, Nat.ofDigitChars_ten_toDigits]
  · obtain ⟨zeros, whole, fraction, hpadded, hfront, hlength, heq⟩ := pointed_eq (places + 1) (Nat.toDigits 10 n)
    change Writes _ (pointed _ _)
    rw [heq]
    refine .pointed (fun c hc => isDigit_of_mem_padded (hpadded ▸ hc)) hfront hlength ?_
    rw [hpadded, Nat.ofDigitChars_append, Nat.ofDigitChars_replicate_zero, Nat.mul_zero,
      Nat.ofDigitChars_ten_toDigits]

theorem mem_run_digit {cs : List Char} (digits : ∀ c ∈ cs, c.isDigit) (h : cs ≠ []) :
    cs ∈ Pattern.run Pattern.Digit := by
  cases cs with
  | nil => exact absurd rfl h
  | cons c cs =>
    obtain ⟨hc, hcs⟩ := List.forall_mem_cons.mp digits
    exact Pattern.mem_run.mpr ⟨c, cs, Pattern.digit_iff.mpr hc, fun x hx => Pattern.digit_iff.mpr (hcs x hx), rfl⟩

namespace Writes

variable {d : Decimal} {cs : List Char}

theorem nearest_ofChars (h : Writes d cs) : (ofChars cs).nearest = d.nearest := by
  cases h with
  | whole digits front value =>
    refine nearest_congr ?_
    rw [ofChars_whole digits, value]
    simp [numerator, denominator, Nat.mul_comm]
  | pointed digits front length value =>
    rw [ofChars_pointed fun c hc => digits c (List.mem_append_left _ hc), value, length]
    rfl

theorem mem_number (h : Writes d cs) : cs ∈ TokenKind.pattern .number := by
  cases h with
  | whole digits front value =>
    exact Language.mem_mul.mpr ⟨_, mem_run_digit digits front, [], .inl rfl, List.append_nil _⟩
  | pointed digits front length value =>
    obtain ⟨hwhole, hfraction⟩ := List.forall_mem_append.mp digits
    have hne := List.ne_nil_of_length_eq_add_one length
    exact Language.mem_mul.mpr ⟨_, mem_run_digit hwhole front, _,
      .inr (Pattern.mem_exactly_mul.mpr ⟨_, mem_run_digit hfraction hne, rfl⟩), rfl⟩

end Writes

end Decimal

namespace Number

open Float.Model

section Fields

open UnpackedFloat (unpackSign unpackExponent unpackMantissa)

variable {b : BitVec Format.binary64.numBits}

theorem toNat_unpackSign (b : BitVec Format.binary64.numBits) : (unpackSign b).toNat = b.toNat / 2 ^ 63 % 2 := by
  rw [UnpackedFloat.unpackSign_def, BitVec.extractLsb'_toNat, Nat.shiftRight_eq_div_pow]
  rfl

theorem toNat_unpackExponent (b : BitVec Format.binary64.numBits) :
    (unpackExponent b).toNat = b.toNat / 2 ^ 52 % 2 ^ 11 := by
  rw [UnpackedFloat.unpackExponent_def, BitVec.extractLsb'_toNat, Nat.shiftRight_eq_div_pow]

theorem toNat_unpackMantissa (b : BitVec Format.binary64.numBits) : (unpackMantissa b).toNat = b.toNat % 2 ^ 52 := by
  rw [UnpackedFloat.unpackMantissa_def, BitVec.extractLsb'_toNat, Nat.shiftRight_zero]

theorem unpackExponent_eq_iff :
    unpackExponent b = -BitVec.ofNat Format.binary64.exponentBits 1 ↔ b.toNat / 2 ^ 52 % 2 ^ 11 = 2047 := by
  have hones : (-BitVec.ofNat Format.binary64.exponentBits 1).toNat = 2047 := by decide
  rw [← BitVec.toNat_inj, toNat_unpackExponent, hones]

theorem unpackMantissa_eq_iff :
    unpackMantissa b = BitVec.ofNat Format.binary64.mantissaBitsWithoutImplicit 0 ↔ b.toNat % 2 ^ 52 = 0 := by
  rw [← BitVec.toNat_inj, toNat_unpackMantissa]
  rfl

theorem isNaN_unpack :
    (UnpackedFloat.unpack Format.binary64 b).isNaN ↔ 2047 * 2 ^ 52 < b.toNat % 2 ^ 63 := by
  have hb : b.toNat < 2 ^ 64 := b.isLt
  have hbits : (UnpackedFloat.unpack Format.binary64 b).isNaN ↔
      b.toNat / 2 ^ 52 % 2 ^ 11 = 2047 ∧ ¬ b.toNat % 2 ^ 52 = 0 := by
    rw [← unpackExponent_eq_iff, ← unpackMantissa_eq_iff, UnpackedFloat.unpack]
    split
    · split <;> simp_all [UnpackedFloat.isNaN]
    · split <;> [split; skip] <;> simp_all [UnpackedFloat.isNaN]
  rw [hbits]
  omega

end Fields

variable {n : Nat}

def bits (n : Nat) : BitVec Format.binary64.numBits :=
  n.toUInt64.toBitVec

theorem exponent_eq_iff (h : n ≤ Binary64.infinity) :
    UnpackedFloat.unpackExponent (bits n) = -BitVec.ofNat Format.binary64.exponentBits 1 ↔ n = Binary64.infinity := by
  have hbits : (bits n).toNat = n % 2 ^ 64 := rfl
  have hinf : Binary64.infinity = 2047 * 2 ^ 52 := rfl
  rw [unpackExponent_eq_iff, hbits]
  omega

theorem mantissa_infinity :
    UnpackedFloat.unpackMantissa (bits Binary64.infinity) =
      BitVec.ofNat Format.binary64.mantissaBitsWithoutImplicit 0 := by
  decide +kernel

theorem not_isNaNBits (h : n ≤ Binary64.infinity) : UnpackedFloat.isNaNBits (bits n) = false := by
  rw [UnpackedFloat.isNaNBits, decide_eq_false_iff_not]
  rintro ⟨hexponent, hmantissa⟩
  rw [(exponent_eq_iff h).mp hexponent] at hmantissa
  exact hmantissa mantissa_infinity

theorem pack_unpack_bits (h : n ≤ Binary64.infinity) :
    UnpackedFloat.pack Format.binary64 (UnpackedFloat.unpack Format.binary64 (bits n)) = bits n := by
  rw [UnpackedFloat.pack_unpack, not_isNaNBits h, if_neg Bool.false_ne_true]

theorem toBits_ofBits (h : n ≤ Binary64.infinity) : (Float.ofBits n.toUInt64).toBits = n.toUInt64 :=
  congrArg UInt64.ofBitVec (pack_unpack_bits h)

theorem unpack_ofBits (h : n ≤ Binary64.infinity) :
    (Float.ofBits n.toUInt64).toModel.unpack = UnpackedFloat.unpack Format.binary64 (bits n) :=
  congrArg (UnpackedFloat.unpack Format.binary64) (pack_unpack_bits h)

theorem isNaN_ofBits (h : n ≤ Binary64.infinity) : (Float.ofBits n.toUInt64).isNaN = false := by
  have hbits : (bits n).toNat = n % 2 ^ 64 := rfl
  have hinf : Binary64.infinity = 2047 * 2 ^ 52 := rfl
  refine Bool.eq_false_of_not_eq_true fun hnan => ?_
  change (Float.ofBits n.toUInt64).toModel.unpack.isNaN = true at hnan
  rw [unpack_ofBits h, isNaN_unpack, hbits] at hnan
  omega

theorem isInf_ofBits (h : n ≤ Binary64.infinity) :
    (Float.ofBits n.toUInt64).isInf ↔ n = Binary64.infinity := by
  change (Float.ofBits n.toUInt64).toModel.unpack.isInf ↔ _
  rw [unpack_ofBits h, UnpackedFloat.unpack]
  split
  case isTrue hexponent =>
    obtain rfl := (exponent_eq_iff h).mp hexponent
    rw [if_pos mantissa_infinity]
    exact iff_of_true rfl rfl
  case isFalse hexponent =>
    refine iff_of_false ?_ (mt (exponent_eq_iff h).mpr hexponent)
    split <;> first | exact Bool.false_ne_true | (split <;> exact Bool.false_ne_true)

theorem toNat_toBits_ofBits (h : n ≤ Binary64.infinity) :
    (Float.ofBits n.toUInt64).toBits.toNat = n ∧ n < 2 ^ 63 := by
  have hinf : Binary64.infinity = 2047 * 2 ^ 52 := rfl
  rw [toBits_ofBits h]
  exact ⟨Nat.mod_eq_of_lt (by omega), by omega⟩

theorem text_ofBits (h : n ≤ Binary64.infinity) : text (Float.ofBits n.toUInt64) = magnitudeText n := by
  obtain ⟨hbits, hsign⟩ := toNat_toBits_ofBits h
  have hpositive : isNegative (Float.ofBits n.toUInt64) = false := by
    rw [isNegative, hbits, Nat.pow_eq, Nat.div_eq_of_lt hsign]
    rfl
  have hmagnitude : magnitude (Float.ofBits n.toUInt64) = n := by
    rw [magnitude, hbits, Nat.pow_eq, Nat.mod_eq_of_lt hsign]
  rw [text, isNaN_ofBits h, hpositive, hmagnitude]
  rfl

theorem magnitudeText_mem (h : n < Binary64.infinity) : (magnitudeText n).toList ∈ TokenKind.pattern .number := by
  rw [magnitudeText, if_neg h.ne, Decimal.text, String.toList_ofList]
  exact (Decimal.writes_chars _).mem_number

theorem ofChars_magnitudeText (h : n < Binary64.infinity) :
    (Decimal.ofChars (magnitudeText n).toList).nearest = n := by
  rw [magnitudeText, if_neg h.ne, Decimal.text, String.toList_ofList,
    (Decimal.writes_chars _).nearest_ofChars, Decimal.nearest_shortest h.le]

def Unsigned (x : Float) : Prop :=
  ∃ n ≤ Binary64.infinity, x = Float.ofBits n.toUInt64

theorem unsigned_ofDecimal (d : Decimal) : Unsigned (ofDecimal d) :=
  ⟨_, Binary64.nearest_le_infinity, rfl⟩

theorem unsigned_cases {x : Float} (h : Unsigned x) :
    (x.isInf ∧ text x = "inf") ∨
      (¬ x.isInf ∧ (text x).toList ∈ TokenKind.pattern .number ∧ ofChars (text x).toList = x) := by
  obtain ⟨n, h, rfl⟩ := h
  rw [isInf_ofBits h, text_ofBits h]
  obtain rfl | hlt := h.eq_or_lt
  · exact .inl ⟨rfl, if_pos rfl⟩
  · refine .inr ⟨hlt.ne, magnitudeText_mem hlt, ?_⟩
    rw [ofChars, ofDecimal, ofChars_magnitudeText hlt]

end Number

end Treewalk
