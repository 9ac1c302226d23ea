import Treewalk.Proofs.Numbers

namespace Treewalk.Number

open Float.Model

section Fields

open UnpackedFloat (unpackSign unpackExponent unpackMantissa Sign)

variable {b c : BitVec Format.binary64.numBits}

theorem isFinite_unpack :
    (UnpackedFloat.unpack Format.binary64 b).isFinite ↔ b.toNat % 2 ^ 63 < 2047 * 2 ^ 52 := by
  have hb : b.toNat < 2 ^ 64 := b.isLt
  have hbits : (UnpackedFloat.unpack Format.binary64 b).isFinite ↔ ¬ b.toNat / 2 ^ 52 % 2 ^ 11 = 2047 := by
    rw [← unpackExponent_eq_iff, UnpackedFloat.unpack]
    split
    · split <;> simp_all [UnpackedFloat.isFinite]
    · split <;> [split; skip] <;> simp_all [UnpackedFloat.isFinite]
  rw [hbits]
  omega

theorem unpack_neg (hs : unpackSign c ≠ unpackSign b) (he : unpackExponent c = unpackExponent b)
    (hm : unpackMantissa c = unpackMantissa b) :
    UnpackedFloat.unpack Format.binary64 c = (UnpackedFloat.unpack Format.binary64 b).neg := by
  have hsign : Sign.ofBitVec (unpackSign c) = -Sign.ofBitVec (unpackSign b) := by
    obtain hb | hb := BitVec.eq_zero_or_eq_one (unpackSign b) <;>
      obtain hc | hc := BitVec.eq_zero_or_eq_one (unpackSign c) <;> simp_all <;> rfl
  simp only [UnpackedFloat.unpack, he, hm, hsign]
  split
  · split <;> rfl
  · split <;> [split; skip] <;> rfl

theorem unpack_opposite (h : c.toNat = b.toNat + 2 ^ 63) :
    UnpackedFloat.unpack Format.binary64 c = (UnpackedFloat.unpack Format.binary64 b).neg := by
  refine unpack_neg (fun hs => ?_) (BitVec.toNat_inj.mp ?_) (BitVec.toNat_inj.mp ?_)
  · have hbit := congrArg BitVec.toNat hs
    rw [toNat_unpackSign, toNat_unpackSign, h] at hbit
    omega
  · rw [toNat_unpackExponent, toNat_unpackExponent, h]
    omega
  · rw [toNat_unpackMantissa, toNat_unpackMantissa, h]
    omega

end Fields

variable {x y : Float} {n m : Nat}

theorem isNaN_iff (x : Float) : x.isNaN ↔ Binary64.infinity < magnitude x :=
  isNaN_unpack (b := x.toBits.toBitVec)

theorem isFinite_iff (x : Float) : x.isFinite ↔ magnitude x < Binary64.infinity :=
  isFinite_unpack (b := x.toBits.toBitVec)

theorem magnitude_le (h : x.isNaN = false) : magnitude x ≤ Binary64.infinity :=
  Nat.le_of_not_lt fun hlt => Bool.false_ne_true (h.symm.trans ((isNaN_iff x).mpr hlt))

theorem isNegative_iff (x : Float) : isNegative x ↔ 2 ^ 63 ≤ x.toBits.toNat := by
  have hx : x.toBits.toNat < 2 ^ 64 := x.toBits.toNat_lt
  rw [isNegative, decide_eq_true_iff, Nat.pow_eq]
  omega

theorem toNat_toBits (x : Float) : x.toBits.toNat = (if isNegative x then 2 ^ 63 else 0) + magnitude x := by
  have hx : x.toBits.toNat < 2 ^ 64 := x.toBits.toNat_lt
  rw [magnitude, Nat.pow_eq]
  split
  · next h =>
    rw [isNegative_iff] at h
    omega
  · next h =>
    rw [isNegative_iff] at h
    omega

theorem eq_of_magnitude (hs : isNegative x = isNegative y) (hm : magnitude x = magnitude y) : x = y := by
  refine Float.toBits_inj.mp (UInt64.toNat_inj.mp ?_)
  rw [toNat_toBits, toNat_toBits, hs, hm]

theorem toBits_of_positive (h : isNegative x = false) : (magnitude x).toUInt64 = x.toBits := by
  have hbits := toNat_toBits x
  rw [h, if_neg Bool.false_ne_true, Nat.zero_add] at hbits
  rw [← hbits]
  exact UInt64.ofNat_toNat

theorem ofBits_magnitude (h : isNegative x = false) : Float.ofBits (magnitude x).toUInt64 = x := by
  rw [toBits_of_positive h, Float.ofBits_toBits]

theorem neg_ofBits_magnitude (hneg : isNegative x) (h : magnitude x ≤ Binary64.infinity) :
    -Float.ofBits (magnitude x).toUInt64 = x := by
  obtain ⟨-, hlt⟩ := toNat_toBits_ofBits h
  have hbits : x.toBits.toBitVec.toNat = (bits (magnitude x)).toNat + 2 ^ 63 := by
    change x.toBits.toNat = magnitude x % 2 ^ 64 + 2 ^ 63
    rw [toNat_toBits, if_pos hneg, Nat.mod_eq_of_lt (by omega), Nat.add_comm]
  refine Float.toBits_inj.mp (UInt64.toBitVec_inj.mp ?_)
  change UnpackedFloat.pack Format.binary64 (Float.ofBits (magnitude x).toUInt64).toModel.unpack.neg = _
  rw [unpack_ofBits h, ← unpack_opposite hbits]
  exact UnpackedFloat.pack_unpack_of_valid x.toModel.valid

theorem text_of_positive (hnan : x.isNaN = false) (h : isNegative x = false) :
    text x = magnitudeText (magnitude x) := by
  rw [text, hnan, h]
  rfl

theorem text_of_negative (hnan : x.isNaN = false) (h : isNegative x) :
    text x = "-" ++ magnitudeText (magnitude x) := by
  rw [text, hnan, h]
  rfl

theorem magnitudeText_head (h : n ≤ Binary64.infinity) :
    ∃ c cs, (magnitudeText n).toList = c :: cs ∧ (c.isDigit ↔ n < Binary64.infinity) ∧ c ∉ ['-', 'N'] := by
  have hdigit {c : Char} (hc : c.isDigit) : c ∉ ['-', 'N'] := by
    rw [List.mem_cons, List.mem_singleton]
    rintro (rfl | rfl) <;> exact absurd hc (by decide)
  obtain rfl | hlt := h.eq_or_lt
  · exact ⟨'i', ['n', 'f'], rfl, iff_of_false (by decide) (lt_irrefl _), by decide⟩
  · obtain ⟨c, t, hc, -, ht | ⟨d, u, -, -, hu⟩⟩ := TokenKind.mem_number.mp (magnitudeText_mem hlt)
    · exact ⟨c, t, ht, iff_of_true hc hlt, hdigit hc⟩
    · exact ⟨c, _, hu, iff_of_true hc hlt, hdigit hc⟩

theorem magnitudeText_inj (hn : n ≤ Binary64.infinity) (hm : m ≤ Binary64.infinity)
    (h : magnitudeText n = magnitudeText m) : n = m := by
  obtain ⟨c, cs, hc, hfinite, -⟩ := magnitudeText_head hn
  obtain ⟨d, ds, hd, hfinite', -⟩ := magnitudeText_head hm
  obtain ⟨rfl, -⟩ := List.cons.inj (hc.symm.trans ((congrArg String.toList h).trans hd))
  by_cases hdigit : c.isDigit
  · rw [← ofChars_magnitudeText (hfinite.mp hdigit), h, ofChars_magnitudeText (hfinite'.mp hdigit)]
  · have hn' := Nat.le_of_not_lt (mt hfinite.mpr hdigit)
    have hm' := Nat.le_of_not_lt (mt hfinite'.mpr hdigit)
    exact (hn.antisymm hn').trans (hm.antisymm hm').symm

theorem text_head (hnan : x.isNaN = false) :
    ∃ c cs, (text x).toList = c :: cs ∧ (c = '-' ↔ isNegative x) ∧ c ≠ 'N' := by
  cases hneg : isNegative x with
  | false =>
    obtain ⟨c, cs, hcs, -, hc⟩ := magnitudeText_head (magnitude_le hnan)
    rw [text_of_positive hnan hneg]
    exact ⟨c, cs, hcs, by simp_all, by simp_all⟩
  | true =>
    rw [text_of_negative hnan hneg]
    exact ⟨'-', _, String.toList_append, by simp, by decide⟩

theorem text_inj (hx : x.isNaN = false) (hy : y.isNaN = false) (h : text x = text y) : x = y := by
  obtain ⟨c, cs, hc, hneg, -⟩ := text_head hx
  obtain ⟨d, ds, hd, hneg', -⟩ := text_head hy
  obtain ⟨rfl, -⟩ := List.cons.inj (hc.symm.trans ((congrArg String.toList h).trans hd))
  have hsign : isNegative x = isNegative y := Bool.eq_iff_iff.mpr (hneg.symm.trans hneg')
  refine eq_of_magnitude hsign (magnitudeText_inj (magnitude_le hx) (magnitude_le hy) ?_)
  cases hs : isNegative y with
  | false => rwa [text_of_positive hx (hsign.trans hs), text_of_positive hy hs] at h
  | true =>
    rw [text_of_negative hx (hsign.trans hs), text_of_negative hy hs] at h
    exact (String.append_right_inj "-").mp h

theorem text_eq_NaN_iff (x : Float) : text x = "NaN" ↔ x.isNaN := by
  cases hnan : x.isNaN with
  | true => exact iff_of_true (if_pos hnan) rfl
  | false =>
    refine iff_of_false (fun h => ?_) Bool.false_ne_true
    obtain ⟨c, cs, hc, -, hne⟩ := text_head hnan
    rw [h] at hc
    exact hne (List.cons.inj hc).1.symm

end Treewalk.Number
