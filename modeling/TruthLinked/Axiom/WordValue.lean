import TruthLinked.Axiom.Word
import TruthLinked.Core.Bytes
import TruthLinked.Lib.Limb

/-! # What the arithmetic of the VM computes

`value` is the number four limbs spell and `number` the one a register spells. `sub` and `subSat` are exact;
`add` and `mul` report an overflow where the fast path, or the 128-bit path, has no room although the register
has (`exact_iff`). -/

namespace TruthLinked.Axiom.WordValue

open Core.Types Core.Bytes Axiom.Word Lib.Limb

/-! The places of the limbs. -/

theorem place_zero : 0 < 4 := by decide

theorem place_one : 1 < 4 := by decide

theorem place_two : 2 < 4 := by decide

theorem place_three : 3 < 4 := by decide

/-- The number the limbs spell. -/
def value (a : Limbs) : ℕ :=
  (getElem a 0 place_zero).toNat + 2 ^ 64 * (getElem a 1 place_one).toNat +
    2 ^ 128 * (getElem a 2 place_two).toNat +
    2 ^ 192 * (getElem a 3 place_three).toNat

/-- The number a register spells. -/
def number (w : Bytes32) : ℕ := leNat (ofBytes32 w)

/-- The register that spells a number. -/
def register (n : ℕ) : Bytes32 := toBytes32 (leBytes 32 n)

theorem value_limbs (l0 l1 l2 l3 : BitVec 64) :
    value (limbs l0 l1 l2 l3) = l0.toNat + 2 ^ 64 * l1.toNat + 2 ^ 128 * l2.toNat + 2 ^ 192 * l3.toNat := rfl

theorem value_lt (a : Limbs) : value a < 2 ^ 256 := by
  have h0 := a[0].isLt
  have h1 := a[1].isLt
  have h2 := a[2].isLt
  have h3 := a[3].isLt
  unfold value
  omega

/-! ## Registers -/

theorem leNat_append (bs cs : Bytes) : leNat (bs ++ cs) = leNat bs + 256 ^ bs.length * leNat cs := by
  induction bs with
  | nil => simp [leNat]
  | cons b bs ih =>
    rw [List.cons_append, leNat, leNat, ih, List.length_cons, Nat.pow_succ]
    ring

theorem leBytes_add (j k n : ℕ) : leBytes (j + k) n = leBytes j n ++ leBytes k (n / 256 ^ j) := by
  induction j generalizing n with
  | zero => simp [leBytes]
  | succ j ih =>
    rw [Nat.succ_add, leBytes, leBytes, ih, Nat.div_div_eq_div_mul, Nat.pow_succ,
      Nat.mul_comm (256 ^ j), List.cons_append]

theorem leBytes_mod (k n : ℕ) : leBytes k (n % 256 ^ k) = leBytes k n := by
  induction k generalizing n with
  | zero => rfl
  | succ k ih =>
    rw [leBytes, leBytes, Nat.pow_succ, Nat.mul_comm, Nat.mod_mul_right_div_self, ih]
    congr 1
    refine UInt8.toNat_inj.mp ?_
    rw [UInt8.toNat_ofNat', UInt8.toNat_ofNat', Nat.mod_mul_right_mod]

theorem value_u256 (w : Bytes32) : value (u256 w) = number w := by
  have hlen : (ofBytes32 w).length = 32 := length_ofBytes32 w
  unfold number u256
  rw [value_limbs]
  generalize ofBytes32 w = bs at hlen
  have hslice : ∀ i ≤ 24, (BitVec.ofNat 64 (leNat (slice bs i (i + 8)))).toNat = leNat (slice bs i (i + 8)) := by
    intro i hi
    have hlt := leNat_lt (slice bs i (i + 8))
    have hlen8 : (slice bs i (i + 8)).length = 8 := by
      unfold slice
      rw [List.length_take, List.length_drop]
      omega
    rw [hlen8] at hlt
    rw [BitVec.toNat_ofNat, Nat.mod_eq_of_lt (by omega)]
  have hcut : bs = slice bs 0 8 ++ (slice bs 8 16 ++ (slice bs 16 24 ++ slice bs 24 32)) := by
    have h24 : (bs.drop 24).take (32 - 24) = bs.drop 24 := by
      rw [List.take_of_length_le]
      rw [List.length_drop]
      omega
    unfold slice
    rw [h24]
    have h16 := List.take_append_drop 8 (bs.drop 16)
    have h8 := List.take_append_drop 8 (bs.drop 8)
    have h0 := List.take_append_drop 8 bs
    rw [List.drop_drop] at h16 h8
    rw [h16, h8]
    exact h0.symm
  have hlen8 : ∀ i ≤ 24, (slice bs i (i + 8)).length = 8 := by
    intro i hi
    unfold slice
    rw [List.length_take, List.length_drop]
    omega
  conv_rhs => rw [hcut, leNat_append, leNat_append, leNat_append, hlen8 0 (by omega), hlen8 8 (by omega),
    hlen8 16 (by omega)]
  rw [hslice 0 (by omega), hslice 8 (by omega), hslice 16 (by omega), hslice 24 (by omega)]
  ring

theorem to32_eq (l : Limbs) : to32 l = register (value l) := by
  have h0 := l[0].isLt
  have h1 := l[1].isLt
  have h2 := l[2].isLt
  unfold to32 register
  congr 1
  rw [leBytes_add 24 8, leBytes_add 16 8, leBytes_add 8 8]
  have e0 : leBytes 8 (value l) = leBytes 8 l[0].toNat := by
    rw [← leBytes_mod 8 (value l)]
    unfold value
    congr 1
    omega
  have e1 : leBytes 8 (value l / 256 ^ 8) = leBytes 8 l[1].toNat := by
    rw [← leBytes_mod 8 (value l / 256 ^ 8)]
    unfold value
    congr 1
    omega
  have e2 : leBytes 8 (value l / 256 ^ 16) = leBytes 8 l[2].toNat := by
    rw [← leBytes_mod 8 (value l / 256 ^ 16)]
    unfold value
    congr 1
    omega
  have e3 : value l / 256 ^ 24 = l[3].toNat := by
    unfold value
    omega
  rw [e0, e1, e2, e3]

theorem number_register {n : ℕ} (h : n < 2 ^ 256) : number (register n) = n := by
  unfold number register
  rw [ofBytes32_toBytes32 (length_leBytes 32 n), leNat_leBytes (by omega)]

theorem register_inj {m n : ℕ} (hm : m < 2 ^ 256) (hn : n < 2 ^ 256) (h : register m = register n) : m = n := by
  rw [← number_register hm, ← number_register hn, h]

/-! ## Sums and differences -/

section Ops

variable (a b : Limbs)

theorem toNat_bit (c : Bool) : (bit c).toNat = c.toNat := by cases c <;> rfl

theorem bit_le_one (c : Bool) : (bit c).toNat ≤ 1 := by cases c <;> decide

theorem bothSmall_iff : bothSmall a b = true ↔ value a < 2 ^ 64 ∧ value b < 2 ^ 64 := by
  unfold bothSmall value
  simp only [Bool.and_eq_true, beq_iff_eq, ← BitVec.toNat_inj]
  simp only [show (0 : BitVec 64).toNat = 0 from rfl]
  have ha := a[0].isLt
  have hb := b[0].isLt
  omega

theorem value_small (h : value a < 2 ^ 64) : value a = a[0].toNat := by
  unfold value at h ⊢
  omega

theorem add_small (ha : value a < 2 ^ 64) (hb : value b < 2 ^ 64) :
    (add a b).map value = if value a + value b < 2 ^ 64 then some (value a + value b) else none := by
  have hsum := add_carry a[0] b[0]
  rw [add, if_pos ((bothSmall_iff a b).mpr ⟨ha, hb⟩), value_small a ha, value_small b hb]
  have hlt := (a[0] + b[0]).isLt
  cases hc : BitVec.uaddOverflow a[0] b[0] with
  | true =>
    rw [hc, Bool.toNat_true] at hsum
    simp only [overflowingAdd, hc]
    rw [if_pos trivial, if_neg (by omega), Option.map_none]
  | false =>
    rw [hc, Bool.toNat_false] at hsum
    simp only [overflowingAdd, hc]
    rw [if_neg (by decide), if_pos (by omega), Option.map_some, value_limbs, ← hsum]
    rfl

theorem add_large (h : ¬ (value a < 2 ^ 64 ∧ value b < 2 ^ 64)) :
    (add a b).map value = if value a + value b < 2 ^ 256 then some (value a + value b) else none := by
  rw [add, if_neg (mt (bothSmall_iff a b).mp h)]
  have h0 := add_carry a[0] b[0]
  generalize hc0 : BitVec.uaddOverflow a[0] b[0] = c0 at h0
  have h1 := add_add_carry a[1] b[1] (bit c0) (bit_le_one c0)
  generalize hc1 : (BitVec.uaddOverflow a[1] b[1] || BitVec.uaddOverflow (a[1] + b[1]) (bit c0)) = c1 at h1
  have h2 := add_add_carry a[2] b[2] (bit c1) (bit_le_one c1)
  generalize hc2 : (BitVec.uaddOverflow a[2] b[2] || BitVec.uaddOverflow (a[2] + b[2]) (bit c1)) = c2 at h2
  have h3 := add_add_carry a[3] b[3] (bit c2) (bit_le_one c2)
  generalize hc3 : (BitVec.uaddOverflow a[3] b[3] || BitVec.uaddOverflow (a[3] + b[3]) (bit c2)) = c3 at h3
  simp only [overflowingAdd, hc0, hc1, hc2, hc3]
  rw [toNat_bit] at h1 h2 h3
  have hsum : value (limbs (a[0] + b[0]) (a[1] + b[1] + bit c0) (a[2] + b[2] + bit c1) (a[3] + b[3] + bit c2)) +
      2 ^ 256 * c3.toNat = value a + value b := by
    rw [value_limbs]
    unfold value
    omega
  have hlt := value_lt (limbs (a[0] + b[0]) (a[1] + b[1] + bit c0) (a[2] + b[2] + bit c1) (a[3] + b[3] + bit c2))
  cases c3 with
  | true =>
    rw [Bool.toNat_true] at hsum
    rw [if_pos rfl, if_neg (by omega), Option.map_none]
  | false =>
    rw [Bool.toNat_false] at hsum
    rw [if_neg (by decide), if_pos (by omega), Option.map_some, ← hsum]
    rfl

theorem sub_value : (sub a b).map value = if value b ≤ value a then some (value a - value b) else none := by
  unfold sub
  split
  · next hsmall =>
    obtain ⟨ha, hb⟩ := (bothSmall_iff a b).mp hsmall
    have hdiff := sub_borrow a[0] b[0]
    rw [value_small a ha, value_small b hb]
    have hlt := (a[0] - b[0]).isLt
    have hblt := b[0].isLt
    cases hc : BitVec.usubOverflow a[0] b[0] with
    | true =>
      rw [hc, Bool.toNat_true] at hdiff
      simp only [overflowingSub, hc]
      rw [if_pos trivial, if_neg (by omega), Option.map_none]
    | false =>
      rw [hc, Bool.toNat_false] at hdiff
      simp only [overflowingSub, hc]
      rw [if_neg (by decide), if_pos (by omega), Option.map_some, value_limbs]
      exact congrArg some (Nat.eq_sub_of_add_eq hdiff)
  · have h0 := sub_borrow a[0] b[0]
    generalize hc0 : BitVec.usubOverflow a[0] b[0] = c0 at h0
    have h1 := sub_sub_borrow a[1] b[1] (bit c0) (bit_le_one c0)
    generalize hc1 : (BitVec.usubOverflow a[1] b[1] || BitVec.usubOverflow (a[1] - b[1]) (bit c0)) = c1 at h1
    have h2 := sub_sub_borrow a[2] b[2] (bit c1) (bit_le_one c1)
    generalize hc2 : (BitVec.usubOverflow a[2] b[2] || BitVec.usubOverflow (a[2] - b[2]) (bit c1)) = c2 at h2
    have h3 := sub_sub_borrow a[3] b[3] (bit c2) (bit_le_one c2)
    generalize hc3 : (BitVec.usubOverflow a[3] b[3] || BitVec.usubOverflow (a[3] - b[3]) (bit c2)) = c3 at h3
    simp only [overflowingSub, hc0, hc1, hc2, hc3]
    rw [toNat_bit] at h1 h2 h3
    have hdiff : value (limbs (a[0] - b[0]) (a[1] - b[1] - bit c0) (a[2] - b[2] - bit c1)
        (a[3] - b[3] - bit c2)) +
        value b = value a + 2 ^ 256 * c3.toNat := by
      rw [value_limbs]
      unfold value
      omega
    have hlt :=
      value_lt (limbs (a[0] - b[0]) (a[1] - b[1] - bit c0) (a[2] - b[2] - bit c1) (a[3] - b[3] - bit c2))
    cases c3 with
    | true =>
      rw [Bool.toNat_true] at hdiff
      have hblt := value_lt b
      rw [if_pos rfl, if_neg (by omega), Option.map_none]
    | false =>
      rw [Bool.toNat_false] at hdiff
      rw [if_neg (by decide), if_pos (by omega), Option.map_some]
      exact congrArg some (by omega)

theorem value_low128 :
    (low128 a).toNat = (getElem a 0 place_zero).toNat + 2 ^ 64 * (getElem a 1 place_one).toNat := by
  unfold low128
  rw [BitVec.toNat_append, ← Nat.shiftLeft_add_eq_or_of_lt a[0].isLt, Nat.shiftLeft_eq]
  ring

theorem value_ofU128 (v : BitVec 128) : value (ofU128 v) = v.toNat := by
  have hlt := v.isLt
  unfold ofU128
  rw [value_limbs, BitVec.extractLsb'_toNat, BitVec.extractLsb'_toNat, Nat.shiftRight_eq_div_pow,
    Nat.shiftRight_eq_div_pow]
  simp only [show (0 : BitVec 64).toNat = 0 from rfl]
  omega

theorem high_iff :
    (getElem a 2 place_two != 0 || getElem a 3 place_three != 0) = true ↔ 2 ^ 128 ≤ value a := by
  rw [Bool.or_eq_true, bne_iff_ne, bne_iff_ne, ne_eq, ne_eq, ← BitVec.toNat_inj, ← BitVec.toNat_inj]
  simp only [show (0 : BitVec 64).toNat = 0 from rfl]
  have h0 := a[0].isLt
  have h1 := a[1].isLt
  unfold value
  omega

theorem nonzero_iff :
    (getElem a 0 place_zero != 0 || getElem a 1 place_one != 0 ||
      (getElem a 2 place_two != 0 || getElem a 3 place_three != 0)) = true ↔ 0 < value a := by
  rw [Bool.or_eq_true, Bool.or_eq_true, Bool.or_eq_true, bne_iff_ne, bne_iff_ne, bne_iff_ne, bne_iff_ne]
  simp only [ne_eq, ← BitVec.toNat_inj, show (0 : BitVec 64).toNat = 0 from rfl]
  unfold value
  omega

theorem value_mid (h : value a < 2 ^ 128) : (low128 a).toNat = value a := by
  rw [value_low128]
  unfold value at h ⊢
  omega

theorem mul_small (ha : value a < 2 ^ 64) (hb : value b < 2 ^ 64) :
    (mul a b).map value = if value a * value b < 2 ^ 64 then some (value a * value b) else none := by
  rw [mul, if_pos ((bothSmall_iff a b).mpr ⟨ha, hb⟩), value_small a ha, value_small b hb]
  unfold BitVec.umulOverflow
  by_cases hfit : a[0].toNat * b[0].toNat < 2 ^ 64
  · rw [decide_eq_false (by omega), if_neg (by decide), if_pos hfit, Option.map_some,
      value_limbs, BitVec.toNat_mul, Nat.mod_eq_of_lt hfit]
    rfl
  · rw [decide_eq_true (by omega), if_pos rfl, if_neg hfit, Option.map_none]

theorem mul_mid (h : ¬ (value a < 2 ^ 64 ∧ value b < 2 ^ 64)) (ha : value a < 2 ^ 128) (hb : value b < 2 ^ 128) :
    (mul a b).map value = if value a * value b < 2 ^ 128 then some (value a * value b) else none := by
  rw [mul, if_neg (mt (bothSmall_iff a b).mp h)]
  have hahi : (a[2] != 0 || a[3] != 0) = false := Bool.eq_false_iff.mpr (mt (high_iff a).mp (by omega))
  have hbhi : (b[2] != 0 || b[3] != 0) = false := Bool.eq_false_iff.mpr (mt (high_iff b).mp (by omega))
  simp only [hahi, hbhi, Bool.false_and, Bool.or_false, Bool.false_eq_true, if_false]
  unfold BitVec.umulOverflow
  rw [value_mid a ha, value_mid b hb]
  by_cases hfit : value a * value b < 2 ^ 128
  · rw [decide_eq_false (by omega), if_neg (by decide), if_pos hfit, Option.map_some,
      value_ofU128, BitVec.toNat_mul, value_mid a ha, value_mid b hb, Nat.mod_eq_of_lt hfit]
  · rw [decide_eq_true (by omega), if_pos rfl, if_neg hfit, Option.map_none]

theorem early_iff :
    (((getElem a 2 place_two != 0 || getElem a 3 place_three != 0) &&
        (getElem b 0 place_zero != 0 || getElem b 1 place_one != 0 ||
          (getElem b 2 place_two != 0 || getElem b 3 place_three != 0))) ||
      ((getElem b 2 place_two != 0 || getElem b 3 place_three != 0) &&
        (getElem a 0 place_zero != 0 || getElem a 1 place_one != 0 ||
          (getElem a 2 place_two != 0 || getElem a 3 place_three != 0)))) = true ↔
      (2 ^ 128 ≤ value a ∧ 0 < value b) ∨ (2 ^ 128 ≤ value b ∧ 0 < value a) := by
  rw [Bool.or_eq_true, Bool.and_eq_true, Bool.and_eq_true, high_iff, high_iff, nonzero_iff, nonzero_iff]

theorem mul_large (h : ¬ (value a < 2 ^ 128 ∧ value b < 2 ^ 128)) :
    (mul a b).map value = if value a * value b = 0 then some 0 else none := by
  rw [mul, if_neg (mt (bothSmall_iff a b).mp (by omega))]
  dsimp only
  by_cases hzero : value a * value b = 0
  · have hlow : (low128 a).toNat * (low128 b).toNat = 0 := by
      rcases Nat.mul_eq_zero.mp hzero with ha | hb
      · rw [value_mid a (by omega), ha, Nat.zero_mul]
      · rw [value_mid b (by omega), hb, Nat.mul_zero]
    have hearly : ¬ ((2 ^ 128 ≤ value a ∧ 0 < value b) ∨ (2 ^ 128 ≤ value b ∧ 0 < value a)) := by
      rcases Nat.mul_eq_zero.mp hzero with ha | hb <;> omega
    rw [if_neg (mt (early_iff a b).mp hearly), if_pos hzero]
    unfold BitVec.umulOverflow
    rw [hlow, decide_eq_false (by decide), if_neg (by decide), Option.map_some, value_ofU128,
      BitVec.toNat_mul, hlow, Nat.zero_mod]
  · have hpos : 0 < value a ∧ 0 < value b :=
      ⟨Nat.pos_of_ne_zero (left_ne_zero_of_mul hzero), Nat.pos_of_ne_zero (right_ne_zero_of_mul hzero)⟩
    rw [if_pos ((early_iff a b).mpr (by omega)), if_neg hzero, Option.map_none]

end Ops

/-! ## The operations on registers -/

/-- The arithmetic of the VM is exact on two registers. -/
structure Exact (a b : Bytes32) : Prop where
  add : (Word.add (u256 a) (u256 b)).map to32 =
    if number a + number b < 2 ^ 256 then some (register (number a + number b)) else none
  sub : (Word.sub (u256 a) (u256 b)).map to32 =
    if number b ≤ number a then some (register (number a - number b)) else none
  mul : (Word.mul (u256 a) (u256 b)).map to32 =
    if number a * number b < 2 ^ 256 then some (register (number a * number b)) else none
  addSat : to32 (Word.addSat (u256 a) (u256 b)) = register (min (number a + number b) (2 ^ 256 - 1))
  subSat : to32 (Word.subSat (u256 a) (u256 b)) = register (max ((number a : ℤ) - number b) 0).toNat

/-- The path two numbers take has room for the results: 64 bits for two 64-bit numbers, 128 bits for the
product of two 128-bit numbers. Past that `mul` delivers a zero product only, which is right where the others
overflow. -/
structure Roomy (a b : ℕ) : Prop where
  sum : a < 2 ^ 64 ∧ b < 2 ^ 64 → a + b < 2 ^ 64
  small : a < 2 ^ 64 ∧ b < 2 ^ 64 → a * b < 2 ^ 64
  mid : ¬ (a < 2 ^ 64 ∧ b < 2 ^ 64) → a < 2 ^ 128 ∧ b < 2 ^ 128 → a * b < 2 ^ 128
  large : ¬ (a < 2 ^ 128 ∧ b < 2 ^ 128) → a * b = 0 ∨ 2 ^ 256 ≤ a * b

theorem map_to32 (o : Option Limbs) : o.map to32 = (o.map value).map register := by
  rw [Option.map_map]
  exact Option.map_congr fun l _ => to32_eq l

variable (a b : Bytes32)

theorem sub_exact : (Word.sub (u256 a) (u256 b)).map to32 =
    if number b ≤ number a then some (register (number a - number b)) else none := by
  rw [map_to32, sub_value, value_u256, value_u256]
  split <;> rfl

/-- The number of a saturating operation is the one of the operation it falls back from. -/
theorem value_getD (o : Option Limbs) (l : Limbs) : value (o.getD l) = (o.map value).getD (value l) := by
  cases o <;> rfl

theorem subSat_exact :
    to32 (Word.subSat (u256 a) (u256 b)) = register (max ((number a : ℤ) - number b) 0).toNat := by
  rw [to32_eq, Word.subSat, value_getD, sub_value, value_u256, value_u256]
  refine congrArg register ?_
  by_cases h : number b ≤ number a
  · rw [if_pos h, Option.getD_some]
    omega
  · have hzero : value (limbs 0 0 0 0) = 0 := rfl
    rw [if_neg h, Option.getD_none, hzero]
    omega

/-- What `Vm::add` computes: a sum of 64-bit numbers must fit 64 bits. -/
theorem add_value : (Word.add (u256 a) (u256 b)).map value =
    if number a + number b < if number a < 2 ^ 64 ∧ number b < 2 ^ 64 then 2 ^ 64 else 2 ^ 256 then
      some (number a + number b)
    else none := by
  rw [← value_u256, ← value_u256]
  by_cases h : value (u256 a) < 2 ^ 64 ∧ value (u256 b) < 2 ^ 64
  · rw [if_pos h, add_small _ _ h.left h.right]
  · rw [if_neg h, add_large _ _ h]

theorem mul_value : (Word.mul (u256 a) (u256 b)).map value =
    if number a * number b <
        if number a < 2 ^ 64 ∧ number b < 2 ^ 64 then 2 ^ 64
        else if number a < 2 ^ 128 ∧ number b < 2 ^ 128 then 2 ^ 128
        else 1 then
      some (number a * number b)
    else none := by
  rw [← value_u256, ← value_u256]
  by_cases hsmall : value (u256 a) < 2 ^ 64 ∧ value (u256 b) < 2 ^ 64
  · rw [if_pos hsmall, mul_small _ _ hsmall.left hsmall.right]
  · rw [if_neg hsmall]
    by_cases hmid : value (u256 a) < 2 ^ 128 ∧ value (u256 b) < 2 ^ 128
    · rw [if_pos hmid, mul_mid _ _ hsmall hmid.left hmid.right]
    · rw [if_neg hmid, mul_large _ _ hmid]
      by_cases hzero : value (u256 a) * value (u256 b) = 0
      · rw [if_pos hzero, if_pos (by omega), hzero]
      · rw [if_neg hzero, if_neg (by omega)]

/-- Two operations on one result agree when they deliver it in the same cases. -/
theorem delivered_iff {n : ℕ} {p q : Prop} [Decidable p] [Decidable q] :
    ((if p then some n else none).map register = if q then some (register n) else none) ↔ (p ↔ q) := by
  by_cases hp : p <;> by_cases hq : q <;> simp [hp, hq]

theorem add_exact_iff : ((Word.add (u256 a) (u256 b)).map to32 =
      if number a + number b < 2 ^ 256 then some (register (number a + number b)) else none) ↔
    (number a < 2 ^ 64 ∧ number b < 2 ^ 64 → number a + number b < 2 ^ 64) := by
  rw [map_to32, add_value, delivered_iff]
  split <;> omega

theorem mul_exact_iff : ((Word.mul (u256 a) (u256 b)).map to32 =
      if number a * number b < 2 ^ 256 then some (register (number a * number b)) else none) ↔
    (number a < 2 ^ 64 ∧ number b < 2 ^ 64 → number a * number b < 2 ^ 64) ∧
    (¬ (number a < 2 ^ 64 ∧ number b < 2 ^ 64) → number a < 2 ^ 128 ∧ number b < 2 ^ 128 →
      number a * number b < 2 ^ 128) ∧
    (¬ (number a < 2 ^ 128 ∧ number b < 2 ^ 128) → number a * number b = 0 ∨ 2 ^ 256 ≤ number a * number b) := by
  rw [map_to32, mul_value, delivered_iff]
  by_cases hsmall : number a < 2 ^ 64 ∧ number b < 2 ^ 64
  · have hprod := Nat.mul_lt_mul'' hsmall.left hsmall.right
    rw [if_pos hsmall]
    omega
  · rw [if_neg hsmall]
    by_cases hmid : number a < 2 ^ 128 ∧ number b < 2 ^ 128
    · have hprod := Nat.mul_lt_mul'' hmid.left hmid.right
      rw [if_pos hmid]
      omega
    · rw [if_neg hmid]
      omega

theorem addSat_exact_iff :
    to32 (Word.addSat (u256 a) (u256 b)) = register (min (number a + number b) (2 ^ 256 - 1)) ↔
      (number a < 2 ^ 64 ∧ number b < 2 ^ 64 → number a + number b < 2 ^ 64) := by
  have hmax : value (limbs (.allOnes 64) (.allOnes 64) (.allOnes 64) (.allOnes 64)) = 2 ^ 256 - 1 := by decide
  rw [to32_eq, Word.addSat, value_getD, add_value, hmax]
  by_cases hfit : number a + number b < if number a < 2 ^ 64 ∧ number b < 2 ^ 64 then 2 ^ 64 else 2 ^ 256
  · rw [if_pos hfit, Option.getD_some]
    split at hfit
    · rw [min_eq_left (by omega)]
      exact ⟨fun _ _ => hfit, fun _ => rfl⟩
    · rw [min_eq_left (by omega)]
      exact ⟨fun _ h => absurd h ‹_›, fun _ => rfl⟩
  · rw [if_neg hfit, Option.getD_none]
    split at hfit
    · next hsmall =>
      refine ⟨fun h => ?_, fun h => absurd (h hsmall) hfit⟩
      have heq := register_inj (by omega) (by omega) h
      omega
    · next hsmall =>
      rw [min_eq_right (by omega)]
      exact ⟨fun _ h => absurd h hsmall, fun _ => rfl⟩

/-- **When the arithmetic of the VM is that of 256-bit numbers.** -/
theorem exact_iff : Exact a b ↔ Roomy (number a) (number b) := by
  constructor
  · intro h
    obtain ⟨hsmall, hmid, hlarge⟩ := (mul_exact_iff a b).mp h.mul
    exact ⟨(add_exact_iff a b).mp h.add, hsmall, hmid, hlarge⟩
  · intro h
    have hadd := (add_exact_iff a b).mpr h.sum
    have hsat := (addSat_exact_iff a b).mpr h.sum
    have hmul := (mul_exact_iff a b).mpr ⟨h.small, h.mid, h.large⟩
    exact ⟨hadd, sub_exact a b, hmul, hsat, subSat_exact a b⟩

/-- The sum of `2^64 - 1` and `1` is an overflow to the fast path, and so is any multiple of `2^200` to
`mul`. -/
theorem exact_fails :
    ¬ Exact (register (2 ^ 64 - 1)) (register 1) ∧ ¬ Exact (register (2 ^ 200)) (register 1) := by
  constructor
  · intro h
    have hadd := h.add
    revert hadd
    decide
  · intro h
    have hmul := h.mul
    revert hmul
    decide

end TruthLinked.Axiom.WordValue
