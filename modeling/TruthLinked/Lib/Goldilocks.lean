import Mathlib.FieldTheory.Finite.Basic
import Mathlib.NumberTheory.LucasPrimality
import Mathlib.Tactic.NormNum.Prime
import Mathlib.Tactic.ReduceModChar

/-! # The Goldilocks field

The field with `2 ^ 64 - 2 ^ 32 + 1` elements. Primality is Lucas's test with the base 7. The seventh power
is a permutation of the field, with the power `invAlpha` as its inverse. -/

namespace TruthLinked.Lib.Goldilocks

/-- `2 ^ 64 - 2 ^ 32 + 1`. -/
abbrev modulus : ℕ := 18446744069414584321

/-- The elements of the field. -/
abbrev Felt := ZMod modulus

theorem pow_ne_one {n : ℕ} {a : Felt} (h : (7 : Felt) ^ n = a) (ha : a ≠ 1) : (7 : Felt) ^ n ≠ 1 := by
  rwa [h]

theorem modulus_prime : modulus.Prime := by
  refine lucas_primality modulus 7 ?_ fun q hq hdvd => ?_
  · show (7 : ZMod 18446744069414584321) ^ 18446744069414584320 = 1
    reduce_mod_char
  have hfactors : modulus - 1 = 2 ^ 32 * (3 * (5 * (17 * (257 * 65537)))) := by norm_num
  have hprime : ∀ r : ℕ, r.Prime → q ∣ r → q = r := fun r hr h => (Nat.prime_dvd_prime_iff_eq hq hr).mp h
  rw [hfactors] at hdvd
  have hq' : q = 2 ∨ q = 3 ∨ q = 5 ∨ q = 17 ∨ q = 257 ∨ q = 65537 := by
    rcases hq.dvd_mul.mp hdvd with h | h
    · exact .inl (hprime 2 Nat.prime_two (hq.dvd_of_dvd_pow h))
    rcases hq.dvd_mul.mp h with h | h
    · exact .inr (.inl (hprime 3 Nat.prime_three h))
    rcases hq.dvd_mul.mp h with h | h
    · exact .inr (.inr (.inl (hprime 5 Nat.prime_five h)))
    rcases hq.dvd_mul.mp h with h | h
    · exact .inr (.inr (.inr (.inl (hprime 17 (by norm_num) h))))
    rcases hq.dvd_mul.mp h with h | h
    · exact .inr (.inr (.inr (.inr (.inl (hprime 257 (by norm_num) h)))))
    · exact .inr (.inr (.inr (.inr (.inr (hprime 65537 (by norm_num) h)))))
  rcases hq' with rfl | rfl | rfl | rfl | rfl | rfl
  · refine pow_ne_one (n := 9223372034707292160) (a := 18446744069414584320) ?_ (by decide +kernel)
    show (7 : ZMod 18446744069414584321) ^ 9223372034707292160 = 18446744069414584320
    reduce_mod_char
  · refine pow_ne_one (n := 6148914689804861440) (a := 18446744065119617025) ?_ (by decide +kernel)
    show (7 : ZMod 18446744069414584321) ^ 6148914689804861440 = 18446744065119617025
    reduce_mod_char
  · refine pow_ne_one (n := 3689348813882916864) (a := 1373043270956696022) ?_ (by decide +kernel)
    show (7 : ZMod 18446744069414584321) ^ 3689348813882916864 = 1373043270956696022
    reduce_mod_char
  · refine pow_ne_one (n := 1085102592318504960) (a := 16301593560560007290) ?_ (by decide +kernel)
    show (7 : ZMod 18446744069414584321) ^ 1085102592318504960 = 16301593560560007290
    reduce_mod_char
  · refine pow_ne_one (n := 71777214277877760) (a := 995085315851368103) ?_ (by decide +kernel)
    show (7 : ZMod 18446744069414584321) ^ 71777214277877760 = 995085315851368103
    reduce_mod_char
  · refine pow_ne_one (n := 281470681743360) (a := 8478886009461009681) ?_ (by decide +kernel)
    show (7 : ZMod 18446744069414584321) ^ 281470681743360 = 8478886009461009681
    reduce_mod_char

instance : Fact modulus.Prime := ⟨modulus_prime⟩

/-! ## Seventh powers -/

/-- The inverse of 7 modulo the order of the multiplicative group. -/
def invAlpha : ℕ := 10540996611094048183

theorem pow_seven_invAlpha (x : Felt) : x ^ (7 * invAlpha) = x := by
  by_cases hx : x = 0
  · subst hx
    exact zero_pow (by decide)
  · have hexp : 7 * invAlpha = (modulus - 1) * 4 + 1 := by norm_num [invAlpha]
    rw [hexp, pow_succ, pow_mul, ZMod.pow_card_sub_one_eq_one hx, one_pow, one_mul]

theorem root_pow (x : Felt) : (x ^ invAlpha) ^ 7 = x := by
  rw [← pow_mul, mul_comm, pow_seven_invAlpha]

theorem pow_root (x : Felt) : (x ^ 7) ^ invAlpha = x := by
  rw [← pow_mul, pow_seven_invAlpha]

/-! ## Words -/

/-- Words that are the same element: equal, or the modulus apart. -/
def Meet (x y : ℕ) : Prop := x = y ∨ x + modulus = y ∨ y + modulus = x

instance (x y : ℕ) : Decidable (Meet x y) := inferInstanceAs (Decidable (_ ∨ _))

theorem cast_eq_iff {x y : ℕ} (hx : x < 2 ^ 64) (hy : y < 2 ^ 64) : (x : Felt) = y ↔ Meet x y := by
  rw [ZMod.natCast_eq_natCast_iff']
  unfold Meet modulus
  omega

theorem val_lt (a : Felt) : a.val < modulus := ZMod.val_lt a

theorem val_cast_eq_iff {x : ℕ} : (x : Felt).val = x ↔ x < modulus := by
  rw [ZMod.val_natCast, Nat.mod_eq_iff_lt (by decide)]

end TruthLinked.Lib.Goldilocks
