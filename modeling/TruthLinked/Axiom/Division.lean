import TruthLinked.Axiom.WordValue

/-! # Order, shifts and division of the VM

`cmp` is the order of the numbers, `shl` and `shr` multiply and divide by a power of two, and `divmod` divides
on all of its three paths. A turn of its loop is the turn of long division on the numbers
(`divStep_value`). -/

namespace TruthLinked.Axiom.Division

open Axiom.Word Axiom.WordValue Lib.Limb

/-! ## Order -/

variable (a b : Limbs)

theorem value_nested : value a =
    (getElem a 0 place_zero).toNat + 2 ^ 64 * ((getElem a 1 place_one).toNat +
      2 ^ 64 * ((getElem a 2 place_two).toNat + 2 ^ 64 * (getElem a 3 place_three).toNat)) := by
  unfold value
  ring

theorem cmp_value : Word.cmp a b = compare (value a) (value b) := by
  rw [value_nested a, value_nested b, compare_digits a[0].isLt b[0].isLt, compare_digits a[1].isLt b[1].isLt,
    compare_digits a[2].isLt b[2].isLt, ← compare_toNat, ← compare_toNat, ← compare_toNat, ← compare_toNat]
  unfold Word.cmp
  rw [Ordering.then_assoc, Ordering.then_assoc]

/-! ## Shifts -/

theorem limb_zero : limb a 0 = getElem a 0 place_zero := by simp [limb]

theorem limb_one : limb a 1 = getElem a 1 place_one := by simp [limb]

theorem limb_two : limb a 2 = getElem a 2 place_two := by simp [limb]

theorem limb_three : limb a 3 = getElem a 3 place_three := by simp [limb]

theorem value_limb : value a =
    (limb a 0).toNat + 2 ^ 64 * (limb a 1).toNat + 2 ^ 128 * (limb a 2).toNat + 2 ^ 192 * (limb a 3).toNat := by
  rw [limb_zero, limb_one, limb_two, limb_three]
  rfl

theorem value_ofFn (f : Fin 4 → BitVec 64) : value (.ofFn f) =
    (f 0).toNat + 2 ^ 64 * (f 1).toNat + 2 ^ 128 * (f 2).toNat + 2 ^ 192 * (f 3).toNat := by
  unfold value
  rw [Vector.getElem_ofFn, Vector.getElem_ofFn, Vector.getElem_ofFn, Vector.getElem_ofFn]
  rfl

theorem shl_limb (x y : BitVec 64) {s : ℕ} (hs : s < 64) {p : Prop} [Decidable p] :
    (if s > 0 ∧ p then x <<< s ||| y >>> (64 - s) else x <<< s).toNat =
      (x <<< s).toNat + if p then (y >>> (64 - s)).toNat else 0 := by
  by_cases hp : p
  · rw [if_pos hp]
    by_cases hpos : s > 0
    · rw [if_pos ⟨hpos, hp⟩, toNat_shiftLeft_or x y hs.le]
    · have hzero : (y >>> (64 - s)).toNat = 0 := by
        have hy := y.isLt
        rw [BitVec.toNat_ushiftRight, Nat.shiftRight_eq_div_pow]
        exact Nat.div_eq_of_lt (hy.trans_le (Nat.pow_le_pow_right (by omega) (by omega)))
      rw [if_neg fun h => hpos h.left, hzero, Nat.add_zero]
  · rw [if_neg hp, if_neg fun h => hp h.right, Nat.add_zero]

theorem shr_limb (x y : BitVec 64) {s : ℕ} (hs : s < 64) {p : Prop} [Decidable p] :
    (if s > 0 ∧ p then x >>> s ||| y <<< (64 - s) else x >>> s).toNat =
      (x >>> s).toNat + if p then (y <<< (64 - s)).toNat else 0 := by
  by_cases hp : p
  · rw [if_pos hp]
    by_cases hpos : s > 0
    · rw [if_pos ⟨hpos, hp⟩, toNat_shiftRight_or x y hs.le]
    · have hzero : (y <<< (64 - s)).toNat = 0 := by
        have hs0 : s = 0 := by omega
        rw [hs0, BitVec.toNat_shiftLeft, Nat.shiftLeft_eq]
        exact Nat.mul_mod_left _ _
      rw [if_neg fun h => hpos h.left, hzero, Nat.add_zero]
  · rw [if_neg hp, if_neg fun h => hp h.right, Nat.add_zero]

/-- Digit `i` after a shift by `ws` digits and some bits: `P` is what a digit keeps, `Q` what it passes up. -/
def shiftedUp (P Q : ℕ → ℕ) (ws i : ℕ) : ℕ :=
  if i < ws then 0 else P (i - ws) + if i > ws then Q (i - ws - 1) else 0

theorem shiftedUp_value {P Q : ℕ → ℕ} {ws : ℕ} (hws : ws < 4) (h : ∀ k l, P k + Q l < 2 ^ 64) :
    shiftedUp P Q ws 0 + 2 ^ 64 * shiftedUp P Q ws 1 + 2 ^ 128 * shiftedUp P Q ws 2 +
      2 ^ 192 * shiftedUp P Q ws 3 =
      (P 0 + 2 ^ 64 * Q 0 + 2 ^ 64 * (P 1 + 2 ^ 64 * Q 1) + 2 ^ 128 * (P 2 + 2 ^ 64 * Q 2) +
        2 ^ 192 * (P 3 + 2 ^ 64 * Q 3)) * 2 ^ (64 * ws) % 2 ^ 256 := by
  have h10 := h 1 0
  have h21 := h 2 1
  have h32 := h 3 2
  have h03 := h 0 3
  have hcases : ws = 0 ∨ ws = 1 ∨ ws = 2 ∨ ws = 3 := by omega
  rcases hcases with rfl | rfl | rfl | rfl
  all_goals simp only [shiftedUp, Nat.reduceSub, Nat.reduceLT, gt_iff_lt, if_true, if_false]
  all_goals omega

theorem shl_value (s : UInt8) : value (shl a s) = value a * 2 ^ s.toNat % 2 ^ 256 := by
  unfold shl
  split
  · next hs =>
    rw [beq_iff_eq.mp hs]
    have hlt := value_lt a
    change value a = value a * 2 ^ 0 % 2 ^ 256
    omega
  · have hs := s.toNat_lt
    have hbs : s.toNat % 64 < 64 := Nat.mod_lt _ (by decide)
    have hsum : s.toNat = 64 * (s.toNat / 64) + s.toNat % 64 := by omega
    have hws : s.toNat / 64 < 4 := by omega
    dsimp only
    rw [value_ofFn]
    conv_rhs => rw [hsum]
    generalize s.toNat / 64 = ws at hws ⊢
    generalize s.toNat % 64 = bs at hbs ⊢
    have h0 := shiftLeft_split (limb a 0) hbs.le
    have h1 := shiftLeft_split (limb a 1) hbs.le
    have h2 := shiftLeft_split (limb a 2) hbs.le
    have h3 := shiftLeft_split (limb a 3) hbs.le
    have hvalue : value a * 2 ^ (64 * ws + bs) =
        ((limb a 0).toNat * 2 ^ bs + 2 ^ 64 * ((limb a 1).toNat * 2 ^ bs) +
          2 ^ 128 * ((limb a 2).toNat * 2 ^ bs) +
          2 ^ 192 * ((limb a 3).toNat * 2 ^ bs)) * 2 ^ (64 * ws) := by
      rw [value_limb, Nat.pow_add]
      ring
    have hlimb : ∀ i : Fin 4, (if i.val < ws then (0 : BitVec 64)
          else if bs > 0 ∧ i.val > ws then limb a (i - ws) <<< bs ||| limb a (i - ws - 1) >>> (64 - bs)
          else limb a (i - ws) <<< bs).toNat =
        shiftedUp (fun k => (limb a k <<< bs).toNat) (fun k => (limb a k >>> (64 - bs)).toNat) ws i := by
      intro i
      unfold shiftedUp
      split
      · rfl
      · exact shl_limb _ _ hbs
    have hword : ∀ k l, (limb a k <<< bs).toNat + (limb a l >>> (64 - bs)).toNat < 2 ^ 64 := by
      intro k l
      rw [← toNat_shiftLeft_or _ _ hbs.le]
      exact (limb a k <<< bs ||| limb a l >>> (64 - bs)).isLt
    rw [hvalue, hlimb 0, hlimb 1, hlimb 2, hlimb 3, ← h0, ← h1, ← h2, ← h3]
    exact shiftedUp_value hws hword

/-- Digit `i` after a shift down by `ws` digits and some bits: `Q` is what a digit passes down. -/
def shiftedDown (P Q : ℕ → ℕ) (ws i : ℕ) : ℕ :=
  if i ≥ 4 - ws then 0 else P (i + ws) + if i + ws + 1 < 4 then Q (i + ws + 1) else 0

theorem shiftedDown_value {P Q : ℕ → ℕ} {ws : ℕ} (hws : ws < 4) (h : ∀ k l, P k + Q l < 2 ^ 64) :
    shiftedDown P Q ws 0 + 2 ^ 64 * shiftedDown P Q ws 1 + 2 ^ 128 * shiftedDown P Q ws 2 +
        2 ^ 192 * shiftedDown P Q ws 3 =
      (2 ^ 64 * P 0 + Q 0 + 2 ^ 64 * (2 ^ 64 * P 1 + Q 1) + 2 ^ 128 * (2 ^ 64 * P 2 + Q 2) +
        2 ^ 192 * (2 ^ 64 * P 3 + Q 3)) / 2 ^ (64 * ws + 64) := by
  have h01 := h 0 1
  have h12 := h 1 2
  have h23 := h 2 3
  have h30 := h 3 0
  have hcases : ws = 0 ∨ ws = 1 ∨ ws = 2 ∨ ws = 3 := by omega
  rcases hcases with rfl | rfl | rfl | rfl
  all_goals simp only [shiftedDown, Nat.reduceSub, Nat.reduceAdd, Nat.reduceLT, Nat.reduceLeDiff,
    ge_iff_le, if_true, if_false]
  all_goals omega

theorem shr_value (s : UInt8) : value (shr a s) = value a / 2 ^ s.toNat := by
  unfold shr
  split
  · next hs =>
    rw [beq_iff_eq.mp hs]
    exact (Nat.div_one _).symm
  · have hs := s.toNat_lt
    have hbs : s.toNat % 64 < 64 := Nat.mod_lt _ (by decide)
    have hsum : s.toNat = 64 * (s.toNat / 64) + s.toNat % 64 := by omega
    have hws : s.toNat / 64 < 4 := by omega
    dsimp only
    rw [value_ofFn]
    conv_rhs => rw [hsum]
    generalize s.toNat / 64 = ws at hws ⊢
    generalize s.toNat % 64 = bs at hbs ⊢
    have h0 := shiftRight_split (limb a 0) hbs.le
    have h1 := shiftRight_split (limb a 1) hbs.le
    have h2 := shiftRight_split (limb a 2) hbs.le
    have h3 := shiftRight_split (limb a 3) hbs.le
    have hlimb : ∀ i : Fin 4, (if i.val ≥ 4 - ws then (0 : BitVec 64)
          else if bs > 0 ∧ i.val + ws + 1 < 4 then limb a (i + ws) >>> bs ||| limb a (i + ws + 1) <<< (64 - bs)
          else limb a (i + ws) >>> bs).toNat =
        shiftedDown (fun k => (limb a k >>> bs).toNat) (fun k => (limb a k <<< (64 - bs)).toNat) ws i := by
      intro i
      unfold shiftedDown
      split
      · rfl
      · exact shr_limb _ _ hbs
    have hword : ∀ k l, (limb a k >>> bs).toNat + (limb a l <<< (64 - bs)).toNat < 2 ^ 64 := by
      intro k l
      rw [← toNat_shiftRight_or _ _ hbs.le]
      exact (limb a k >>> bs ||| limb a l <<< (64 - bs)).isLt
    have hnum : value a * 2 ^ (64 - bs) =
        (limb a 0).toNat * 2 ^ (64 - bs) + 2 ^ 64 * ((limb a 1).toNat * 2 ^ (64 - bs)) +
          2 ^ 128 * ((limb a 2).toNat * 2 ^ (64 - bs)) + 2 ^ 192 * ((limb a 3).toNat * 2 ^ (64 - bs)) := by
      rw [value_limb]
      ring
    have hpow : 2 ^ (64 * ws + bs) * 2 ^ (64 - bs) = 2 ^ (64 * ws + 64) := by
      rw [← Nat.pow_add, show 64 * ws + bs + (64 - bs) = 64 * ws + 64 by omega]
    rw [hlimb 0, hlimb 1, hlimb 2, hlimb 3, ← Nat.mul_div_mul_right (value a) _
      (Nat.two_pow_pos (64 - bs)), hpow, hnum, ← h0, ← h1, ← h2, ← h3]
    exact shiftedDown_value hws hword

/-! ## Leading zeros -/

theorem length_of_top {x : BitVec 64} {v k z : ℕ} (hx : x ≠ 0) (hz : z + k = 192) (hle : 2 ^ k * x.toNat ≤ v)
    (hlt : v < 2 ^ k * (x.toNat + 1)) :
    z + leadingZeros x ≤ 255 ∧ 2 ^ (255 - (z + leadingZeros x)) ≤ v ∧ v < 2 ^ (256 - (z + leadingZeros x)) := by
  have hne : x.toNat ≠ 0 := fun h => hx (BitVec.eq_of_toNat_eq h)
  have hlog : x.toNat.log2 < 64 := (Nat.log2_lt hne).mpr x.isLt
  obtain ⟨hlow, hhigh⟩ := top_bit hne hle hlt
  unfold leadingZeros
  rw [show 255 - (z + (63 - x.toNat.log2)) = k + x.toNat.log2 by omega,
    show 256 - (z + (63 - x.toNat.log2)) = k + x.toNat.log2 + 1 by omega]
  exact ⟨by omega, hlow, hhigh⟩

/-- What `Vm::lz` leaves of the 256 bits is the length of the number. -/
theorem lz_value (ha : value a ≠ 0) : lz a ≤ 255 ∧ 2 ^ (255 - lz a) ≤ value a ∧ value a < 2 ^ (256 - lz a) := by
  have h0 := a[0].isLt
  have h1 := a[1].isLt
  have h2 := a[2].isLt
  have hzero : ∀ x : BitVec 64, x = 0 → x.toNat = 0 := fun x hx => hx ▸ rfl
  unfold lz
  by_cases h3 : a[3] = 0
  · have hz3 := hzero _ h3
    rw [if_neg fun h => bne_iff_ne.mp h h3]
    by_cases h2' : a[2] = 0
    · have hz2 := hzero _ h2'
      rw [if_neg fun h => bne_iff_ne.mp h h2']
      by_cases h1' : a[1] = 0
      · have hz1 := hzero _ h1'
        rw [if_neg fun h => bne_iff_ne.mp h h1']
        by_cases h0' : a[0] = 0
        · have hz0 := hzero _ h0'
          unfold value at ha
          omega
        · rw [if_pos (bne_iff_ne.mpr h0')]
          exact length_of_top (k := 0) h0' rfl (by unfold value; omega) (by unfold value; omega)
      · rw [if_pos (bne_iff_ne.mpr h1')]
        exact length_of_top (k := 64) h1' rfl (by unfold value; omega) (by unfold value; omega)
    · rw [if_pos (bne_iff_ne.mpr h2')]
      exact length_of_top (k := 128) h2' rfl (by unfold value; omega) (by unfold value; omega)
  · rw [if_pos (bne_iff_ne.mpr h3)]
    have h := length_of_top (v := value a) (k := 192) (z := 0) h3 rfl (by unfold value; omega)
      (by unfold value; omega)
    rw [Nat.zero_add] at h
    exact h

theorem lz_zero (ha : value a = 0) : lz a = 256 := by
  have hzero : ∀ x : BitVec 64, x.toNat = 0 → ¬ (x != 0) = true :=
    fun x hx h => bne_iff_ne.mp h (BitVec.eq_of_toNat_eq hx)
  have h0 : a[0].toNat = 0 := by unfold value at ha; omega
  have h1 : a[1].toNat = 0 := by unfold value at ha; omega
  have h2 : a[2].toNat = 0 := by unfold value at ha; omega
  have h3 : a[3].toNat = 0 := by unfold value at ha; omega
  unfold lz
  rw [if_neg (hzero _ h3), if_neg (hzero _ h2), if_neg (hzero _ h1), if_neg (hzero _ h0)]

/-! ## Division -/

/-- The numbers of a quotient and a remainder. -/
def values (qr : Limbs × Limbs) : ℕ × ℕ := (value qr.1, value qr.2)

theorem limb_value {k : ℕ} (hk : k < 4) : (limb a k).toNat = value a / 2 ^ (64 * k) % 2 ^ 64 := by
  have h0 := (limb a 0).isLt
  have h1 := (limb a 1).isLt
  have h2 := (limb a 2).isLt
  have h3 := (limb a 3).isLt
  have hcases : k = 0 ∨ k = 1 ∨ k = 2 ∨ k = 3 := by omega
  rw [value_limb]
  rcases hcases with rfl | rfl | rfl | rfl <;> omega

theorem digit_add {w n : ℕ} (hw : w < 4) (x : ℕ → ℕ) :
    (x 0 + if 0 = w then n else 0) + 2 ^ 64 * (x 1 + if 1 = w then n else 0) +
      2 ^ 128 * (x 2 + if 2 = w then n else 0) +
        2 ^ 192 * (x 3 + if 3 = w then n else 0) =
      x 0 + 2 ^ 64 * x 1 + 2 ^ 128 * x 2 + 2 ^ 192 * x 3 + 2 ^ (64 * w) * n := by
  have hcases : w = 0 ∨ w = 1 ∨ w = 2 ∨ w = 3 := by omega
  rcases hcases with rfl | rfl | rfl | rfl
  all_goals simp only [Nat.reduceEqDiff, OfNat.ofNat_ne_zero, OfNat.zero_ne_ofNat, if_true, if_false]
  all_goals omega

theorem setBit_value {s : ℕ} (hs : s < 256) (ha : 2 ^ (s + 1) ∣ value a) :
    value (.ofFn fun i : Fin 4 => if i.val = s / 64 then limb a i ||| (1 : BitVec 64)
      <<< (s % 64) else limb a i) =
      value a + 2 ^ s := by
  have hws : s / 64 < 4 := by omega
  have hsum : s = 64 * (s / 64) + s % 64 := by omega
  have hdigit : 2 ^ (s % 64 + 1) ∣ (limb a (s / 64)).toNat := by
    have hquot : 2 ^ (s % 64 + 1) ∣ value a / 2 ^ (64 * (s / 64)) := by
      refine (Nat.dvd_div_iff_mul_dvd ((Nat.pow_dvd_pow 2 (by omega)).trans ha)).mpr ?_
      rw [← Nat.pow_add, ← Nat.add_assoc, ← hsum]
      exact ha
    rw [limb_value a hws]
    exact (Nat.dvd_mod_iff (Nat.pow_dvd_pow 2 (by omega))).mpr hquot
  have hset : ∀ i : Fin 4,
      (if i.val = s / 64 then limb a i ||| (1 : BitVec 64) <<< (s % 64) else limb a i).toNat =
      (limb a i).toNat + if i.val = s / 64 then 2 ^ (s % 64) else 0 := by
    intro i
    split
    · next hi => rw [hi, toNat_or_bit _ (Nat.mod_lt s (by decide)) hdigit]
    · rfl
  rw [value_ofFn, value_limb, hset 0, hset 1, hset 2, hset 3]
  conv_rhs => rw [hsum, Nat.pow_add]
  exact digit_add hws fun k => (limb a k).toNat

variable {a b}

theorem divStep_value {s : ℕ} {qr : Limbs × Limbs} (hs : value b * 2 ^ s < 2 ^ 256) (hb : 0 < value b)
    (hq : 2 ^ (s + 1) ∣ value qr.1) : values (divStep b s qr) = turn (value b) s (values qr) := by
  have hpow : 2 ^ s < 2 ^ 256 := (Nat.le_mul_of_pos_left _ hb).trans_lt hs
  have hlt : s < 256 := (Nat.pow_lt_pow_iff_right (by decide)).mp hpow
  have hshift : value (shl b (UInt8.ofNat s)) = value b * 2 ^ s := by
    rw [shl_value, UInt8.toNat_ofNat', Nat.mod_eq_of_lt (show s < 2 ^ 8 by omega), Nat.mod_eq_of_lt hs]
  unfold divStep turn values
  dsimp only
  by_cases hle : value b * 2 ^ s ≤ value qr.2
  · have hcmp : (Word.cmp qr.2 (shl b (UInt8.ofNat s)) != .lt) = true := by
      rw [bne_iff_ne, cmp_value, hshift, ne_eq, compare_lt_iff_lt]
      omega
    have hsub : value (subSat qr.2 (shl b (UInt8.ofNat s))) = value qr.2 - value b * 2 ^ s := by
      rw [subSat, value_getD, sub_value, hshift, if_pos hle, Option.getD_some]
    rw [if_pos hcmp, if_pos hle, setBit_value qr.1 hlt hq, hsub]
  · have hcmp : ¬ (Word.cmp qr.2 (shl b (UInt8.ofNat s)) != .lt) = true := by
      rw [bne_iff_ne, cmp_value, hshift, ne_eq, compare_lt_iff_lt]
      omega
    rw [if_neg hcmp, if_neg hle]

theorem divLoop_value {n s : ℕ} {qr : Limbs × Limbs} (hs : value b * 2 ^ s < 2 ^ 256) (hb : 0 < value b)
    (h : Midway n (value b) s (values qr)) : values (divLoop b s qr) = turns (value b) s (values qr) := by
  induction s generalizing qr with
  | zero => exact divStep_value hs hb h.quotient
  | succ s ih =>
    have hstep := divStep_value hs hb h.quotient
    have hmid := midway_turn h
    rw [← hstep] at hmid
    have hless : value b * 2 ^ s < 2 ^ 256 :=
      (Nat.mul_le_mul_left _ (Nat.pow_le_pow_right (by decide) (Nat.le_succ s))).trans_lt hs
    change values (divLoop b s (divStep b (s + 1) qr)) = turns (value b) s (turn (value b) (s + 1) (values qr))
    rw [ih hless hmid, hstep]

theorem div_spec {n m q r : ℕ} (hm : m ≠ 0) (hq : q = n / m) (hr : r = n % m) : n = q * m + r ∧ r < m := by
  subst hq hr
  exact ⟨(Nat.div_add_mod' n m).symm, Nat.mod_lt n (Nat.pos_of_ne_zero hm)⟩

/-- The loop of `Vm::divmod`, entered at the difference of the two lengths. -/
theorem divLoop_spec (hb : value b ≠ 0) (hlen : 256 - lz b ≤ 256 - lz a) (ha : value a ≠ 0) :
    value a = value (divLoop b (256 - lz a - (256 - lz b)) (limbs 0 0 0 0, a)).1 * value b +
        value (divLoop b (256 - lz a - (256 - lz b)) (limbs 0 0 0 0, a)).2 ∧
      value (divLoop b (256 - lz a - (256 - lz b)) (limbs 0 0 0 0, a)).2 < value b := by
  obtain ⟨hza, -, hahigh⟩ := lz_value a ha
  obtain ⟨hzb, hblow, hbhigh⟩ := lz_value b hb
  have hpos := Nat.pos_of_ne_zero hb
  generalize hs : 256 - lz a - (256 - lz b) = s
  have hfit : value b * 2 ^ s < 2 ^ 256 := by
    calc value b * 2 ^ s < 2 ^ (256 - lz b) * 2 ^ s := Nat.mul_lt_mul_of_pos_right hbhigh (Nat.two_pow_pos s)
      _ = 2 ^ (256 - lz a) := by rw [← Nat.pow_add, show 256 - lz b + s = 256 - lz a by omega]
      _ ≤ 2 ^ 256 := Nat.pow_le_pow_right (by decide) (Nat.sub_le _ _)
  have hbelow : value a < value b * 2 ^ (s + 1) := by
    calc value a < 2 ^ (256 - lz a) := hahigh
      _ = 2 ^ (255 - lz b) * 2 ^ (s + 1) := by rw [← Nat.pow_add, show 255 - lz b + (s + 1) = 256 - lz a by omega]
      _ ≤ value b * 2 ^ (s + 1) := Nat.mul_le_mul_right _ hblow
  have hzero : value (limbs 0 0 0 0) = 0 := rfl
  have hmid : Midway (value a) (value b) s (values (limbs 0 0 0 0, a)) := by
    refine ⟨?_, ?_, hbelow⟩
    · change value a = value (limbs 0 0 0 0) * value b + value a
      rw [hzero, Nat.zero_mul, Nat.zero_add]
    · change 2 ^ (s + 1) ∣ value (limbs 0 0 0 0)
      rw [hzero]
      exact Nat.dvd_zero _
  have hspec := turns_spec hmid
  rw [← divLoop_value hfit hpos hmid] at hspec
  exact hspec

theorem divmod_value (hb : value b ≠ 0) :
    value a = value (divmod a b).1 * value b + value (divmod a b).2 ∧ value (divmod a b).2 < value b := by
  unfold divmod
  split
  · next hsmall =>
    obtain ⟨ha, hbs⟩ := (bothSmall_iff a b).mp hsmall
    refine div_spec hb ?_ ?_
    · rw [value_limbs, BitVec.toNat_udiv, value_small a ha, value_small b hbs]
      rfl
    · rw [value_limbs, BitVec.toNat_umod, value_small a ha, value_small b hbs]
      rfl
  · split
    · next hmid =>
      have hlow : value a < 2 ^ 128 ∧ value b < 2 ^ 128 := by
        simp only [Bool.and_eq_true, beq_iff_eq, ← BitVec.toNat_inj] at hmid
        simp only [show (0 : BitVec 64).toNat = 0 from rfl] at hmid
        have ha0 := a[0].isLt
        have ha1 := a[1].isLt
        have hb0 := b[0].isLt
        have hb1 := b[1].isLt
        unfold value
        omega
      refine div_spec hb ?_ ?_
      · rw [value_ofU128, BitVec.toNat_udiv, value_mid a hlow.left, value_mid b hlow.right]
      · rw [value_ofU128, BitVec.toNat_umod, value_mid a hlow.left, value_mid b hlow.right]
    · dsimp only
      obtain ⟨hzb, hblow, -⟩ := lz_value b hb
      by_cases ha : value a = 0
      · rw [lz_zero a ha, if_pos (by omega)]
        refine ⟨by rw [show value (limbs 0 0 0 0) = 0 from rfl, Nat.zero_mul, Nat.zero_add], ?_⟩
        rw [ha]
        exact Nat.pos_of_ne_zero hb
      · obtain ⟨hza, -, hahigh⟩ := lz_value a ha
        split
        · next hlen =>
          have hlt : value a < value b :=
            hahigh.trans_le ((Nat.pow_le_pow_right (by decide) (by omega)).trans hblow)
          exact ⟨by rw [show value (limbs 0 0 0 0) = 0 from rfl, Nat.zero_mul, Nat.zero_add], hlt⟩
        · next hlen => exact divLoop_spec hb (by omega) ha

/-- **Order, shifts and division of the VM.** -/
theorem divmod_shl_shr_cmp :
    (∀ a b, value b ≠ 0 →
      value a = value (divmod a b).1 * value b + value (divmod a b).2 ∧ value (divmod a b).2 < value b) ∧
    (∀ a (s : UInt8), value (shl a s) = value a * 2 ^ s.toNat % 2 ^ 256 ∧
      value (shr a s) = value a / 2 ^ s.toNat) ∧
    ∀ a b, Word.cmp a b = compare (value a) (value b) := by
  refine ⟨fun a b hb => divmod_value hb, fun a s => ⟨shl_value a s, shr_value a s⟩, cmp_value⟩

theorem divmod_sample : value (limbs 5 0 0 1) =
    value (divmod (limbs 5 0 0 1) (limbs 7 0 1 0)).1 * value (limbs 7 0 1 0) +
      value (divmod (limbs 5 0 0 1) (limbs 7 0 1 0)).2 :=
  (divmod_shl_shr_cmp.left (limbs 5 0 0 1) (limbs 7 0 1 0) (by decide)).left

end TruthLinked.Axiom.Division
