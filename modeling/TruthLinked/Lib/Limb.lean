import Mathlib.Order.Compare
import Mathlib.Tactic.Ring

/-! # Words as digits

Words of `w` bits as the digits of a larger number: what one digit of a sum or a difference passes on, shifts
that take bits from the neighbouring digit, and long division by shifted subtractions. -/

namespace TruthLinked.Lib.Limb

/-! ## Carry and borrow -/

section Carry

variable {w : ℕ} (a b x : BitVec w)

theorem add_carry : (a + b).toNat + 2 ^ w * (BitVec.uaddOverflow a b).toNat = a.toNat + b.toNat := by
  have ha := a.isLt
  have hb := b.isLt
  rw [BitVec.toNat_add]
  unfold BitVec.uaddOverflow
  by_cases h : a.toNat + b.toNat ≥ 2 ^ w
  · rw [decide_eq_true h, Bool.toNat_true, Nat.mod_eq_sub_mod h, Nat.mod_eq_of_lt (by omega)]
    omega
  · rw [decide_eq_false h, Bool.toNat_false, Nat.mod_eq_of_lt (by omega)]
    omega

/-- A digit of a sum with a carry coming in: at most one of its two additions overflows. -/
theorem add_add_carry (hx : x.toNat ≤ 1) :
    (a + b + x).toNat + 2 ^ w * (BitVec.uaddOverflow a b || BitVec.uaddOverflow (a + b) x).toNat =
      a.toNat + b.toNat + x.toNat := by
  have ha := a.isLt
  have hb := b.isLt
  have hsum := add_carry a b
  have hall := add_carry (a + b) x
  cases hc : BitVec.uaddOverflow a b <;> cases hd : BitVec.uaddOverflow (a + b) x <;>
    simp only [hc, hd, Bool.toNat_true, Bool.toNat_false, Bool.or_true, Bool.or_false] at hsum hall ⊢ <;> omega

theorem sub_borrow : (a - b).toNat + b.toNat = a.toNat + 2 ^ w * (BitVec.usubOverflow a b).toNat := by
  have ha := a.isLt
  have hb := b.isLt
  rw [BitVec.toNat_sub]
  unfold BitVec.usubOverflow
  by_cases h : a.toNat < b.toNat
  · rw [decide_eq_true h, Bool.toNat_true, Nat.mod_eq_of_lt (by omega)]
    omega
  · have hle : b.toNat ≤ a.toNat := by omega
    rw [decide_eq_false h, Bool.toNat_false, show 2 ^ w - b.toNat + a.toNat = a.toNat - b.toNat + 2 ^ w by omega,
      Nat.add_mod_right, Nat.mod_eq_of_lt (by omega)]
    omega

theorem sub_sub_borrow (hx : x.toNat ≤ 1) :
    (a - b - x).toNat + b.toNat + x.toNat =
      a.toNat + 2 ^ w * (BitVec.usubOverflow a b || BitVec.usubOverflow (a - b) x).toNat := by
  have hdiff := sub_borrow a b
  have hall := sub_borrow (a - b) x
  have hlt := (a - b).isLt
  have hlt' := (a - b - x).isLt
  have hb := b.isLt
  cases hc : BitVec.usubOverflow a b <;> cases hd : BitVec.usubOverflow (a - b) x <;>
    simp only [hc, hd, Bool.toNat_true, Bool.toNat_false, Bool.or_true, Bool.or_false] at hdiff hall ⊢ <;> omega

end Carry

/-! ## Shifts -/

section Shift

variable {w s : ℕ} (a b : BitVec w)

/-- A digit split at bit `s` from below: its low bits move up, its high bits fall out at the top. -/
theorem shiftLeft_split (hs : s ≤ w) :
    (a <<< s).toNat + 2 ^ w * (a >>> (w - s)).toNat = a.toNat * 2 ^ s := by
  have hw : 2 ^ w = 2 ^ (w - s) * 2 ^ s := by rw [← Nat.pow_add, Nat.sub_add_cancel hs]
  rw [BitVec.toNat_shiftLeft, Nat.shiftLeft_eq, BitVec.toNat_ushiftRight, Nat.shiftRight_eq_div_pow, hw,
    Nat.mul_mod_mul_right]
  have hsplit := Nat.mod_add_div a.toNat (2 ^ (w - s))
  calc a.toNat % 2 ^ (w - s) * 2 ^ s + 2 ^ (w - s) * 2 ^ s * (a.toNat / 2 ^ (w - s))
      = (a.toNat % 2 ^ (w - s) + 2 ^ (w - s) * (a.toNat / 2 ^ (w - s))) * 2 ^ s := by ring
    _ = a.toNat * 2 ^ s := by rw [hsplit]

/-- A digit split at bit `s` from above: its high bits move down, its low bits fall out at the bottom. -/
theorem shiftRight_split (hs : s ≤ w) :
    2 ^ w * (a >>> s).toNat + (a <<< (w - s)).toNat = a.toNat * 2 ^ (w - s) := by
  have h := shiftLeft_split a (s := w - s) (by omega)
  rw [Nat.sub_sub_self hs] at h
  omega

/-- The bits one digit keeps and those it takes from below do not meet. -/
theorem toNat_shiftLeft_or (hs : s ≤ w) :
    (a <<< s ||| b >>> (w - s)).toNat = (a <<< s).toNat + (b >>> (w - s)).toNat := by
  have hb : (b >>> (w - s)).toNat < 2 ^ s := by
    rw [BitVec.toNat_ushiftRight, Nat.shiftRight_eq_div_pow]
    refine Nat.div_lt_of_lt_mul ?_
    rw [← Nat.pow_add, Nat.sub_add_cancel hs]
    exact b.isLt
  have hw : 2 ^ w = 2 ^ (w - s) * 2 ^ s := by rw [← Nat.pow_add, Nat.sub_add_cancel hs]
  rw [BitVec.toNat_or, BitVec.toNat_shiftLeft, Nat.shiftLeft_eq, hw, Nat.mul_mod_mul_right, Nat.mul_comm,
    Nat.two_pow_add_eq_or_of_lt hb]

theorem toNat_shiftRight_or (hs : s ≤ w) :
    (a >>> s ||| b <<< (w - s)).toNat = (a >>> s).toNat + (b <<< (w - s)).toNat := by
  have h := toNat_shiftLeft_or b a (s := w - s) (by omega)
  rw [Nat.sub_sub_self hs, BitVec.or_comm] at h
  rw [h, Nat.add_comm]

end Shift

/-! ## Order and length -/

theorem compare_digits {B x y h k : ℕ} (hx : x < B) (hy : y < B) :
    compare (x + B * h) (y + B * k) = (compare h k).then (compare x y) := by
  rcases Nat.lt_trichotomy h k with hlt | rfl | hgt
  · rw [compare_lt_iff_lt.mpr hlt, Ordering.lt_then, compare_lt_iff_lt]
    calc x + B * h < B + B * h := by omega
      _ = B * (h + 1) := by ring
      _ ≤ B * k := Nat.mul_le_mul_left B hlt
      _ ≤ y + B * k := Nat.le_add_left _ _
  · rw [compare_eq_iff_eq.mpr rfl, Ordering.eq_then]
    rcases Nat.lt_trichotomy x y with hlt | rfl | hgt
    · rw [compare_lt_iff_lt.mpr hlt, compare_lt_iff_lt]
      omega
    · exact (compare_eq_iff_eq.mpr rfl).trans (compare_eq_iff_eq.mpr rfl).symm
    · rw [compare_gt_iff_gt.mpr hgt, compare_gt_iff_gt]
      omega
  · rw [compare_gt_iff_gt.mpr hgt, Ordering.gt_then, compare_gt_iff_gt]
    calc y + B * k < B + B * k := by omega
      _ = B * (k + 1) := by ring
      _ ≤ B * h := Nat.mul_le_mul_left B hgt
      _ ≤ x + B * h := Nat.le_add_left _ _

theorem compare_toNat {w : ℕ} (a b : BitVec w) : compare a b = compare a.toNat b.toNat := by
  change compareOfLessAndEq a b = compareOfLessAndEq a.toNat b.toNat
  unfold compareOfLessAndEq
  simp only [BitVec.lt_def, BitVec.toNat_inj]

theorem top_bit {x v k : ℕ} (hx : x ≠ 0) (hle : 2 ^ k * x ≤ v) (hlt : v < 2 ^ k * (x + 1)) :
    2 ^ (k + x.log2) ≤ v ∧ v < 2 ^ (k + x.log2 + 1) := by
  constructor
  · calc 2 ^ (k + x.log2) = 2 ^ k * 2 ^ x.log2 := Nat.pow_add _ _ _
      _ ≤ 2 ^ k * x := Nat.mul_le_mul_left _ (Nat.log2_self_le hx)
      _ ≤ v := hle
  · calc v < 2 ^ k * (x + 1) := hlt
      _ ≤ 2 ^ k * 2 ^ (x.log2 + 1) := Nat.mul_le_mul_left _ Nat.lt_log2_self
      _ = 2 ^ (k + x.log2 + 1) := by rw [← Nat.pow_add, Nat.add_assoc]

/-- Setting a bit below which, itself included, the digit has none. -/
theorem toNat_or_bit {w k : ℕ} (a : BitVec w) (hk : k < w) (ha : 2 ^ (k + 1) ∣ a.toNat) :
    (a ||| (1 : BitVec w) <<< k).toNat = a.toNat + 2 ^ k := by
  obtain ⟨m, hm⟩ := ha
  have hone : ((1 : BitVec w) <<< k).toNat = 2 ^ k := by
    have h1 : (1 : BitVec w).toNat = 1 := by
      change 1 % 2 ^ w = 1
      rw [Nat.mod_eq_of_lt (Nat.one_lt_two_pow (by omega))]
    rw [BitVec.toNat_shiftLeft, h1, Nat.shiftLeft_eq, Nat.one_mul,
      Nat.mod_eq_of_lt (Nat.pow_lt_pow_right (by omega) hk)]
  rw [BitVec.toNat_or, hone, hm, Nat.two_pow_add_eq_or_of_lt
    (Nat.pow_lt_pow_right (by omega) (Nat.lt_succ_self k))]

/-! ## Long division

`turn` subtracts `b * 2 ^ s` once if it can, and `turns` does so from `s` down to `0`. -/

section Division

/-- One turn, on a quotient and a remainder. -/
def turn (b s : ℕ) (qr : ℕ × ℕ) : ℕ × ℕ :=
  if b * 2 ^ s ≤ qr.2 then (qr.1 + 2 ^ s, qr.2 - b * 2 ^ s) else qr

/-- The turns from `s` down to `0`. -/
def turns (b : ℕ) : ℕ → ℕ × ℕ → ℕ × ℕ
  | 0, qr => turn b 0 qr
  | s + 1, qr => turns b s (turn b (s + 1) qr)

/-- What a turn from bit `s` finds: the dividend is `a`, the quotient has no bit up to `s`, and the remainder
is below the divisor shifted by one more. -/
structure Midway (a b s : ℕ) (qr : ℕ × ℕ) : Prop where
  dividend : a = qr.1 * b + qr.2
  quotient : 2 ^ (s + 1) ∣ qr.1
  remainder : qr.2 < b * 2 ^ (s + 1)

theorem midway_turn {a b s : ℕ} {qr : ℕ × ℕ} (h : Midway a b (s + 1) qr) : Midway a b s (turn b (s + 1) qr) := by
  obtain ⟨hdividend, hquotient, hremainder⟩ := h
  have hdouble : b * 2 ^ (s + 1 + 1) = b * 2 ^ (s + 1) + b * 2 ^ (s + 1) := by ring
  unfold turn
  split
  · next hle =>
    refine ⟨?_, ?_, ?_⟩
    · calc a = qr.1 * b + (b * 2 ^ (s + 1) + (qr.2 - b * 2 ^ (s + 1))) := by rw [Nat.add_sub_cancel' hle,
        hdividend]
        _ = (qr.1 + 2 ^ (s + 1)) * b + (qr.2 - b * 2 ^ (s + 1)) := by ring
    · exact Nat.dvd_add ((Nat.pow_dvd_pow 2 (Nat.le_succ _)).trans hquotient) (Nat.dvd_refl _)
    · rw [hdouble] at hremainder
      exact (Nat.sub_lt_iff_lt_add hle).mpr hremainder
  · next hlt => exact ⟨hdividend, (Nat.pow_dvd_pow 2 (Nat.le_succ _)).trans hquotient, by omega⟩

theorem turn_zero {a b : ℕ} {qr : ℕ × ℕ} (h : Midway a b 0 qr) :
    a = (turn b 0 qr).1 * b + (turn b 0 qr).2 ∧ (turn b 0 qr).2 < b := by
  obtain ⟨hdividend, -, hremainder⟩ := h
  have hdouble : b * 2 ^ (0 + 1) = b + b := by ring
  have hone : b * 2 ^ 0 = b := by ring
  unfold turn
  rw [hone]
  split
  · next hle =>
    have hadd : (qr.1 + 2 ^ 0) * b = qr.1 * b + b := by ring
    dsimp only
    omega
  · next hlt => exact ⟨hdividend, by omega⟩

/-- **Long division.** -/
theorem turns_spec {a b s : ℕ} {qr : ℕ × ℕ} (h : Midway a b s qr) :
    a = (turns b s qr).1 * b + (turns b s qr).2 ∧ (turns b s qr).2 < b := by
  induction s generalizing qr with
  | zero => exact turn_zero h
  | succ s ih => exact ih (midway_turn h)

end Division

end TruthLinked.Lib.Limb
