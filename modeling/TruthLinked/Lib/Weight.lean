import Mathlib.Algebra.BigOperators.Finprod
import Mathlib.Algebra.BigOperators.Group.Finset.Basic
import Mathlib.Algebra.GroupWithZero.Nat
import Mathlib.Algebra.Order.BigOperators.Group.Finset

/-! # Weighted quorums

Finite sets whose elements carry a weight. Two sets that reach a threshold always share an element of
positive weight iff no set reaches it together with its complement (`meets_iff_no_split`), and they do
as soon as twice the threshold exceeds the whole (`meets_of_lt`). The parts below that are about a
weight of which one value changes (`finsum_exchange`) and about sums kept under a cap (`foldl_capped`). -/

namespace TruthLinked.Lib.Weight

open Finset

section Sets
variable {α : Type*} [DecidableEq α] (w : α → ℕ)

/-- The weight of a set. -/
def weight (S : Finset α) : ℕ := ∑ x ∈ S, w x

/-- Any two parts of `U` that reach `q` share an element of positive weight. -/
def Meets (U : Finset α) (q : ℕ) : Prop :=
  ∀ S ⊆ U, ∀ T ⊆ U, q ≤ weight w S → q ≤ weight w T → ∃ x ∈ S, x ∈ T ∧ 0 < w x

omit [DecidableEq α] in
theorem weight_mono {S T : Finset α} (h : S ⊆ T) : weight w S ≤ weight w T :=
  sum_le_sum_of_subset h

theorem weight_sdiff {S U : Finset α} (h : S ⊆ U) : weight w (U \ S) + weight w S = weight w U :=
  sum_sdiff h

theorem weight_union_add_inter (S T : Finset α) :
    weight w (S ∪ T) + weight w (S ∩ T) = weight w S + weight w T := sum_union_inter

/-- Two parts whose weights exceed that of the whole and that of `F` together share an element outside
`F` of positive weight. -/
theorem exists_common_outside {S T U F : Finset α} (hS : S ⊆ U) (hT : T ⊆ U)
    (h : weight w U + weight w F < weight w S + weight w T) :
    ∃ x ∈ S, x ∈ T ∧ x ∉ F ∧ 0 < w x := by
  have hu : weight w (S ∪ T) ≤ weight w U := weight_mono w (union_subset hS hT)
  have hst := weight_union_add_inter w S T
  have hlt : weight w F < weight w (S ∩ T) := by omega
  by_contra hno
  push Not at hno
  -- what the two share outside `F` weighs nothing
  have hzero : ∀ x ∈ S ∩ T, x ∉ F → w x = 0 := by
    intro x hx hxF
    obtain ⟨hxS, hxT⟩ := mem_inter.mp hx
    have := hno x hxS hxT hxF
    omega
  have hle : weight w (S ∩ T) ≤ weight w F := by
    have hsplit : weight w (S ∩ T) = weight w ((S ∩ T) ∩ F) := by
      refine (sum_subset inter_subset_left ?_).symm
      intro x hx hxF
      exact hzero x hx fun h => hxF (mem_inter.mpr ⟨hx, h⟩)
    rw [hsplit]
    exact weight_mono w inter_subset_right
  omega

theorem meets_of_lt {U : Finset α} {q : ℕ} (h : weight w U < 2 * q) : Meets w U q := by
  intro S hS T hT hqS hqT
  obtain ⟨x, hxS, hxT, -, hx⟩ := exists_common_outside w (F := ∅) hS hT (by
    have : weight w (∅ : Finset α) = 0 := sum_empty
    omega)
  exact ⟨x, hxS, hxT, hx⟩

/-- **Quorums meet iff no set and its complement both reach the threshold.** -/
theorem meets_iff_no_split {U : Finset α} {q : ℕ} :
    Meets w U q ↔ ¬ ∃ S ⊆ U, q ≤ weight w S ∧ q ≤ weight w (U \ S) := by
  constructor
  · rintro h ⟨S, hS, hq, hq'⟩
    obtain ⟨x, hx, hx', -⟩ := h S hS (U \ S) sdiff_subset hq hq'
    exact (mem_sdiff.mp hx').2 hx
  · intro h S hS T hT hqS hqT
    by_contra hno
    push Not at hno
    refine h ⟨S, hS, hqS, hqT.trans ?_⟩
    -- `T` weighs no more than what it has outside `S`
    have hT' : weight w T = weight w (T \ S) := by
      refine (sum_subset sdiff_subset ?_).symm
      intro x hx hx'
      have hxS : x ∈ S := by
        by_contra hxS
        exact hx' (mem_sdiff.mpr ⟨hx, hxS⟩)
      exact Nat.le_zero.mp (hno x hxS hx)
    rw [hT']
    exact weight_mono w (sdiff_subset_sdiff hT Subset.rfl)

theorem meets_half_iff {U : Finset α} :
    Meets w U (weight w U / 2) ↔ ∀ S ⊆ U, weight w S ≠ weight w U / 2 := by
  rw [meets_iff_no_split]
  constructor
  · rintro h S hS hw
    have := weight_sdiff w hS
    exact h ⟨S, hS, hw.ge, by omega⟩
  · rintro h ⟨S, hS, hq, hq'⟩
    have hsum := weight_sdiff w hS
    have h1 := h S hS
    have h2 := h (U \ S) sdiff_subset
    omega

end Sets

section Whole
variable {α : Type*}

/-- A weight that changes at one place: the sums differ by what changes there. -/
theorem finsum_exchange {w w' : α → ℕ} (hfin : (Function.support w).Finite) {a : α}
    (h : ∀ x, x ≠ a → w' x = w x) : (∑ᶠ x, w' x) + w a = (∑ᶠ x, w x) + w' a := by
  classical
  set S : Finset α := insert a hfin.toFinset with hS
  have hin : a ∈ S := mem_insert_self _ _
  have hsub : Function.support w ⊆ S := fun x hx => by
    rw [hS, mem_coe]
    exact mem_insert_of_mem (hfin.mem_toFinset.mpr hx)
  have hsub' : Function.support w' ⊆ S := fun x hx => by
    by_cases hxa : x = a
    · rw [hxa]
      exact hin
    · rw [Function.mem_support, h x hxa] at hx
      exact hsub hx
  rw [finsum_eq_sum_of_support_subset w hsub, finsum_eq_sum_of_support_subset w' hsub',
    ← add_sum_erase S w hin, ← add_sum_erase S w' hin]
  have hrest : ∑ x ∈ S.erase a, w' x = ∑ x ∈ S.erase a, w x :=
    sum_congr rfl fun x hx => h x (ne_of_mem_erase hx)
  omega

end Whole

section Saturating
variable {α : Type*}

theorem foldl_capped {step : ℕ → α → ℕ} {g : α → ℕ} {cap : ℕ} {xs : List α}
    (h : ∀ t ≤ cap, ∀ x ∈ xs, step t x = min (t + g x) cap) {t : ℕ} (ht : t ≤ cap) :
    xs.foldl step t = min (t + (xs.map g).sum) cap := by
  induction xs generalizing t with
  | nil => simp [ht]
  | cons x xs ih =>
    have hrest : ∀ t ≤ cap, ∀ y ∈ xs, step t y = min (t + g y) cap :=
      fun t ht y hy => h t ht y (List.mem_cons_of_mem _ hy)
    rw [List.foldl_cons, h t ht x List.mem_cons_self, ih hrest (min_le_right _ _), List.map_cons,
      List.sum_cons]
    omega

/-- Leaving out some of the summands is adding zero for them. -/
theorem sum_map_skip (p : α → Bool) (f : α → ℕ) (xs : List α) :
    (xs.map fun x => if p x then 0 else f x).sum = ((xs.filter fun x => !p x).map f).sum := by
  induction xs with
  | nil => rfl
  | cons x xs ih => cases hp : p x <;> simp [hp, ih]

theorem sum_map_eq_weight [DecidableEq α] (f : α → ℕ) {xs : List α} (h : xs.Nodup) :
    (xs.map f).sum = weight f xs.toFinset := by
  rw [weight, List.sum_toFinset f h]

/-- A list adds up to the weight of its elements exactly when none that weighs something is there twice. -/
theorem sum_map_eq_weight_iff [beq : BEq α] [LawfulBEq α] [DecidableEq α] (f : α → ℕ) (xs : List α) :
    (xs.map f).sum = weight f xs.toFinset ↔ ∀ x, 0 < f x → xs.count x ≤ 1 := by
  obtain rfl : beq = instBEqOfDecidableEq := lawful_beq_subsingleton _ _
  rw [Finset.sum_list_map_count, weight, eq_comm, Finset.sum_eq_sum_iff_of_le fun x hx => ?_]
  · constructor
    · intro h x hx
      by_cases hmem : x ∈ xs
      · have hterm := h x (List.mem_toFinset.mpr hmem)
        rw [smul_eq_mul] at hterm
        exact (Nat.eq_of_mul_eq_mul_right hx ((Nat.one_mul _).trans hterm)).symm.le
      · rw [List.count_eq_zero_of_not_mem hmem]
        exact Nat.zero_le 1
    · intro h x hx
      rcases Nat.eq_zero_or_pos (f x) with hzero | hpos
      · rw [hzero, smul_zero]
      · have hone : xs.count x = 1 :=
          le_antisymm (h x hpos) (List.count_pos_iff.mpr (List.mem_toFinset.mp hx))
        rw [hone, one_smul]
  · have hone : 1 ≤ xs.count x := List.count_pos_iff.mpr (List.mem_toFinset.mp hx)
    rw [smul_eq_mul]
    exact Nat.le_mul_of_pos_left _ hone

end Saturating

end TruthLinked.Lib.Weight
