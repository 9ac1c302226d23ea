import Treewalk.Expr.Eval
import Treewalk.Proofs.Numbers.Signs

namespace Treewalk

namespace Number

variable {x y : Float}

theorem isNaN_iff_eq_nan (x : Float) : x.isNaN ↔ x = .nan := by
  rw [Float.isNaN_eq_decide_eq_nan, decide_eq_true_iff]

open Float.Model in
theorem isNaN_of_payload {p : UInt64} (hexponent : p.toNat / 2 ^ 52 % 2 ^ 11 = 2047)
    (hpayload : p.toNat % 2 ^ 52 ≠ 0) : (Float.ofBits p).isNaN := by
  have hnan : (UnpackedFloat.unpack Format.binary64 p.toBitVec).isNaN := by
    rw [isNaN_unpack]
    change _ < p.toNat % 2 ^ 63
    omega
  change (UnpackedFloat.unpack Format.binary64
    (UnpackedFloat.pack Format.binary64 (UnpackedFloat.unpack Format.binary64 p.toBitVec))).isNaN
  cases h : UnpackedFloat.unpack Format.binary64 p.toBitVec with
  | notANumber => rfl
  | _ => cases h ▸ hnan

theorem text_injective : Function.Injective text := by
  intro x y h
  have hnan : x.isNaN ↔ y.isNaN := by
    rw [← text_eq_NaN_iff, ← text_eq_NaN_iff, h]
  by_cases hx : x.isNaN
  · rw [(isNaN_iff_eq_nan x).mp hx, (isNaN_iff_eq_nan y).mp (hnan.mp hx)]
  · exact text_inj (Bool.eq_false_of_not_eq_true hx) (Bool.eq_false_of_not_eq_true (hx ∘ hnan.mpr)) h

def zeros : List Float :=
  [.ofBits 0, .ofBits 0x8000000000000000]

theorem equal_iff (x y : Float) : equal x y ↔ x = y ∨ x ∈ zeros ∧ y ∈ zeros := by
  have hplus : (0 : Float) = .ofBits 0 := by decide +kernel
  have hminus : (-0 : Float) = .ofBits 0x8000000000000000 := by decide +kernel
  have hnan : ∀ z ∈ zeros, z ≠ .nan := by decide +kernel
  rw [equal, Bool.or_eq_true, Bool.and_eq_true, isNaN_iff_eq_nan, isNaN_iff_eq_nan,
    Float.beq_iff_ne_nan_and_eq, hminus, hplus]
  constructor
  · rintro (⟨-, -, rfl | ⟨rfl, rfl⟩ | ⟨rfl, rfl⟩⟩ | ⟨rfl, rfl⟩)
    · exact .inl rfl
    · exact .inr (by simp [zeros])
    · exact .inr (by simp [zeros])
    · exact .inl rfl
  · rintro (rfl | ⟨hx, hy⟩)
    · by_cases h : x = .nan
      · exact .inr ⟨h, h⟩
      · exact .inl ⟨h, h, .inl rfl⟩
    · refine .inl ⟨hnan x hx, hnan y hy, ?_⟩
      obtain rfl | rfl := List.mem_pair.mp hx <;> obtain rfl | rfl := List.mem_pair.mp hy
      · exact .inl rfl
      · exact .inr (.inl ⟨rfl, rfl⟩)
      · exact .inr (.inr ⟨rfl, rfl⟩)
      · exact .inl rfl

end Number

namespace Value

variable {a b c : Value}

def IsZero (v : Value) : Prop :=
  ∃ x ∈ Number.zeros, v = .number x

theorem eq_iff_same_text (a b : Value) : a = b ↔ a.typeName = b.typeName ∧ a.text = b.text := by
  constructor
  · rintro rfl
    exact ⟨rfl, rfl⟩
  · rintro ⟨htype, htext⟩
    cases a <;> cases b <;> simp only [typeName, String.reduceEq] at htype
    case nil.nil => rfl
    case boolean.boolean p q => cases p <;> cases q <;> simp [text] at htext ⊢
    case number.number => exact congrArg number (Number.text_injective htext)
    case string.string => exact congrArg string htext

theorem equal_iff (a b : Value) : a.equal b ↔ a = b ∨ a.IsZero ∧ b.IsZero := by
  cases a <;> cases b <;> simp [equal, IsZero, Number.equal_iff]

theorem IsZero.typeName_eq (h : a.IsZero) : a.typeName = "number" := by
  obtain ⟨x, -, rfl⟩ := h
  rfl

theorem equal_iff_same_text (a b : Value) :
    a.equal b ↔ a.typeName = b.typeName ∧ (a.text = b.text ∨ a.IsZero ∧ b.IsZero) := by
  rw [equal_iff, eq_iff_same_text, and_or_left]
  refine or_congr_right (and_iff_right_of_imp ?_).symm
  rintro ⟨ha, hb⟩
  rw [ha.typeName_eq, hb.typeName_eq]

theorem equal_refl (a : Value) : a.equal a :=
  (equal_iff a a).mpr (.inl rfl)

theorem equal_symm (h : a.equal b) : b.equal a := by
  rw [equal_iff] at h ⊢
  exact h.imp Eq.symm And.symm

theorem equal_trans (hab : a.equal b) (hbc : b.equal c) : a.equal c := by
  rw [equal_iff] at hab hbc ⊢
  obtain rfl | ⟨ha, hb⟩ := hab
  · exact hbc
  · obtain rfl | ⟨-, hc⟩ := hbc
    · exact .inr ⟨ha, hb⟩
    · exact .inr ⟨ha, hc⟩

end Value

theorem Expr.eval_notEqual (l r : Expr) (line : Nat) :
    (Expr.binary .notEqual l r line).eval = (Expr.unary .not (.binary .equal l r line) line).eval := by
  simp only [eval, BinaryOp.apply, UnaryOp.apply, raiseOn, bind_assoc, pure_bind]
  rfl

theorem Value.equal_exactly_if_same_text :
    (∀ a b : Value, (a.equal b ↔ a.typeName = b.typeName ∧ (a.text = b.text ∨ a.IsZero ∧ b.IsZero)) ∧
        BinaryOp.apply .equal a b = .ok (.boolean (a.equal b)) ∧
        BinaryOp.apply .notEqual a b = .ok (.boolean !a.equal b)) ∧
      (∀ (l r : Expr) (line : Nat),
        (Expr.binary .notEqual l r line).eval = (Expr.unary .not (.binary .equal l r line) line).eval) ∧
      Equivalence (fun a b : Value => a.equal b) ∧
      ∀ p q : UInt64, (p.toNat / 2 ^ 52 % 2 ^ 11 = 2047 ∧ p.toNat % 2 ^ 52 ≠ 0) →
        (q.toNat / 2 ^ 52 % 2 ^ 11 = 2047 ∧ q.toNat % 2 ^ 52 ≠ 0) →
        Value.equal (.number (.ofBits p)) (.number (.ofBits q)) := by
  refine ⟨fun a b => ⟨equal_iff_same_text a b, rfl, rfl⟩, Expr.eval_notEqual,
    ⟨equal_refl, equal_symm, equal_trans⟩, ?_⟩
  rintro p q ⟨hp, hp'⟩ ⟨hq, hq'⟩
  have heq : Float.ofBits p = Float.ofBits q := by
    rw [(Number.isNaN_iff_eq_nan _).mp (Number.isNaN_of_payload hp hp'),
      (Number.isNaN_iff_eq_nan _).mp (Number.isNaN_of_payload hq hq')]
  exact heq ▸ equal_refl _

theorem Value.equal_exactly_if_same_text_nan :
    let quiet : UInt64 := 0x7ff8000000000001
    let signaling : UInt64 := 0xfff0000000000002
    (quiet.toNat / 2 ^ 52 % 2 ^ 11 = 2047 ∧ quiet.toNat % 2 ^ 52 ≠ 0) ∧
      (signaling.toNat / 2 ^ 52 % 2 ^ 11 = 2047 ∧ signaling.toNat % 2 ^ 52 ≠ 0) ∧
      Value.equal (.number (.ofBits quiet)) (.number (.ofBits signaling)) ∧
      Value.equal (.number (.ofBits 0)) (.number (.ofBits 0x8000000000000000)) ∧
      ¬ Value.equal (.number (.ofBits quiet)) (.string "NaN") := by
  intro quiet signaling
  have hquiet : quiet.toNat / 2 ^ 52 % 2 ^ 11 = 2047 ∧ quiet.toNat % 2 ^ 52 ≠ 0 := by decide
  have hsignaling : signaling.toNat / 2 ^ 52 % 2 ^ 11 = 2047 ∧ signaling.toNat % 2 ^ 52 ≠ 0 := by decide
  obtain ⟨hiff, -, -, hnan⟩ := equal_exactly_if_same_text
  refine ⟨hquiet, hsignaling, hnan quiet signaling hquiet hsignaling, (hiff _ _).1.mpr ⟨rfl, .inr ⟨?_, ?_⟩⟩, ?_⟩
  · exact ⟨_, List.mem_pair.mpr (.inl rfl), rfl⟩
  · exact ⟨_, List.mem_pair.mpr (.inr rfl), rfl⟩
  · exact fun h => absurd ((hiff _ _).1.mp h).1 (by decide)

end Treewalk
