import TruthLinked.Oracle.Prices
import Mathlib.Order.Bounds.Basic

/-! # The window and the price that prices are finalized with

`try_finalize_price_usd` picks a window of the sorted samples, its stake, and a price (`picked`). No samples
within tolerance above one of them have more stake than the window, summed as the code sums it, and the price
is the least one of the window at which the running stake reaches the target. While the window stays below
`u64::MAX` the sums are the true ones, and the price is the stake-weighted lower median
(`finalizes_heaviest_median`); a sum that reaches `u64::MAX` hides which window is the heavier one and where
its middle lies (`saturated_windows`). -/

namespace TruthLinked.Oracle.Windows

open Staking.State Oracle.Tally Oracle.Prices

/-- The stake behind the samples. -/
def stakeOf (l : List Sample) : ℕ := (l.map fun x => x.2.1).sum

/-- The samples of `s` lie within tolerance above `x`. -/
def Above (x : Sample) (s : List Sample) : Prop := ∀ y ∈ s, within x.1 y.1 = true

/-- The prices of the window at which the running stake has reached `goal`. -/
def reachedAt (w : List Sample) (goal : ℕ) : Set ℕ :=
  {p | (∃ x ∈ w, x.1 = p) ∧ goal ≤ stakeOf (w.filter fun x => decide (x.1 ≤ p))}

/-- The stake-weighted lower median: the least price of the window up to which at least half of its stake
lies. -/
def LowerMedian (w : List Sample) (p : ℕ) : Prop :=
  IsLeast {p | (∃ x ∈ w, x.1 = p) ∧ stakeOf w ≤ 2 * stakeOf (w.filter fun x => decide (x.1 ≤ p))} p

/-- What is picked of the samples: the window, its stake, and the price. -/
def picked (u : List Sample) : Option (List Sample × ℕ × ℕ) :=
  let samples := u.mergeSort fun a b => decide (a.1 ≤ b.1)
  match bestWindow samples 0 none with
  | none => none
  | some (start, n, agreeing) =>
    let span := (samples.drop start).take n
    some (span, agreeing, weightedMedian (satAdd64 agreeing 1 / 2) span 0 ((span.map Prod.fst).headD 0))

/-- The heaviest window of the samples `u` within tolerance above one of them, and the price in its middle. -/
structure Picked (u w : List Sample) (stake price : ℕ) : Prop where
  part : w.Subperm u
  above : ∃ x ∈ w, Above x w
  sums : stake = min (stakeOf w) (u64 - 1)
  most : ∀ x ∈ u, ∀ s : List Sample, s.Subperm u → Above x s → min (stakeOf s) (u64 - 1) ≤ stake
  median : IsLeast (reachedAt w (satAdd64 stake 1 / 2)) price
  exactMost : stakeOf w < u64 - 1 → ∀ x ∈ u, ∀ s : List Sample, s.Subperm u → Above x s → stakeOf s ≤ stakeOf w
  exactMedian : stakeOf w < u64 - 1 → LowerMedian w price
  between : ∃ x ∈ w, ∃ y ∈ w, (∀ z ∈ w, x.1 ≤ z.1 ∧ z.1 ≤ y.1) ∧ x.1 ≤ price ∧ price ≤ y.1

section Windows
variable {u l w s : List Sample} {a p : ℕ}

theorem within_self (a : ℕ) : within a a = true := by
  unfold within
  rw [Bool.and_eq_true, decide_eq_true_eq, decide_eq_true_eq]
  exact ⟨le_refl _, by omega⟩

theorem exists_ends (hw : Sorted w) (hne : w ≠ []) : ∃ x ∈ w, ∃ y ∈ w, ∀ z ∈ w, x.1 ≤ z.1 ∧ z.1 ≤ y.1 := by
  have hmin : ∃ x ∈ w, ∀ z ∈ w, x.1 ≤ z.1 := by
    cases w with
    | nil => exact absurd rfl hne
    | cons x rest =>
      refine ⟨x, List.mem_cons_self, fun z hz => ?_⟩
      rcases List.mem_cons.mp hz with rfl | hz
      · exact le_refl _
      · exact (List.pairwise_cons.mp hw).1 z hz
  have hmax : ∃ y ∈ w, ∀ z ∈ w, z.1 ≤ y.1 := by
    obtain ⟨front, y, rfl⟩ := (List.eq_nil_or_concat' w).resolve_left hne
    refine ⟨y, List.mem_append_right _ (List.mem_singleton.mpr rfl), fun z hz => ?_⟩
    rcases List.mem_append.mp hz with hz | hz
    · exact (List.pairwise_append.mp hw).2.2 z hz y (List.mem_singleton.mpr rfl)
    · rw [List.mem_singleton.mp hz]
  obtain ⟨x, hx, hle⟩ := hmin
  obtain ⟨y, hy, hge⟩ := hmax
  exact ⟨x, hx, y, hy, fun z hz => ⟨hle z hz, hge z hz⟩⟩

theorem stakeOf_le_window (hs : s.Subperm l) {x : Sample} (hx : Above x s) :
    min (stakeOf s) (u64 - 1) ≤ windowStake l x.1 := by
  obtain ⟨s', hperm, hsub⟩ := hs
  have hsum : stakeOf s' = stakeOf s := (hperm.map _).sum_eq
  have hall : stakeWhere s' (fun _ => true) = min (stakeOf s) (u64 - 1) := by
    unfold stakeWhere
    rw [List.filter_true, ← hsum]
    rfl
  rw [← hall]
  exact stakeWhere_le hsub fun y hy _ => hx y (hperm.mem_iff.mp hy)

theorem stakeWhere_window (l : List Sample) (a p : ℕ) :
    (stakeWhere l fun price => within a price && decide (price ≤ p)) =
      min (stakeOf ((l.filter fun x => within a x.1).filter fun x => decide (x.1 ≤ p))) (u64 - 1) := by
  unfold stakeWhere stakeOf
  rw [List.filter_filter]
  simp only [Bool.and_comm]

theorem Median.isLeast (h : Median l a p) :
    IsLeast (reachedAt (l.filter fun x => within a x.1) (satAdd64 (windowStake l a) 1 / 2)) p := by
  have htarget : target l a = satAdd64 (windowStake l a) 1 / 2 := rfl
  have hbelow : target l a < u64 - 1 := by
    have hcap : satAdd64 (windowStake l a) 1 ≤ u64 - 1 := min_le_right _ _
    have hbig : 2 ≤ u64 - 1 := by decide
    omega
  obtain ⟨x, hx, rfl⟩ := h.mem
  have hreached := h.reached
  rw [stakeWhere_window] at hreached
  refine ⟨⟨⟨x, List.mem_filter.mpr ⟨hx, h.within⟩, rfl⟩, ?_⟩, ?_⟩
  · rw [← htarget]
    exact hreached.trans (min_le_left _ _)
  · rintro p ⟨⟨y, hy, rfl⟩, hgoal⟩
    obtain ⟨hyl, hyw⟩ := List.mem_filter.mp hy
    by_contra hlt
    have hleast := h.least y hyl hyw (not_le.mp hlt)
    rw [stakeWhere_window] at hleast
    rw [← htarget] at hgoal
    omega

theorem isLeast_lowerMedian (hw : stakeOf w < u64 - 1)
    (h : IsLeast (reachedAt w (satAdd64 (stakeOf w) 1 / 2)) p) :
    LowerMedian w p := by
  have hsat : satAdd64 (stakeOf w) 1 = stakeOf w + 1 := min_eq_left (by omega)
  have hhalf : ∀ n, satAdd64 (stakeOf w) 1 / 2 ≤ n ↔ stakeOf w ≤ 2 * n := by
    intro n
    rw [hsat]
    omega
  unfold LowerMedian
  unfold reachedAt at h
  simp only [hhalf] at h
  exact h

/-- **The heaviest window and its median** make a pick of the samples. -/
theorem picked_of_heaviest (hperm : l.Perm u) (hsorted : Sorted l) (ha : Heaviest l a) (hp : Median l a p) :
    Picked u (l.filter fun x => within a x.1) (windowStake l a) p := by
  set w := l.filter fun x => within a x.1 with hw
  have hstake : windowStake l a = min (stakeOf w) (u64 - 1) := rfl
  have hmost : ∀ x ∈ u, ∀ s : List Sample, s.Subperm u → Above x s →
      min (stakeOf s) (u64 - 1) ≤ windowStake l a :=
    fun x hx s hs habove => (stakeOf_le_window (hs.trans hperm.symm.subperm) habove).trans
      (ha.le x (hperm.mem_iff.mpr hx))
  have hleast := Median.isLeast hp
  rw [← hw] at hleast
  obtain ⟨x, hx, hxa⟩ := ha.mem
  have hxw : x ∈ w := List.mem_filter.mpr ⟨hx, by rw [hxa]; exact within_self a⟩
  refine ⟨List.filter_sublist.subperm.trans hperm.subperm, ⟨x, hxw, fun y hy => ?_⟩, hstake, hmost, hleast,
    fun hbelow y hy s hs habove => ?_, fun hbelow => ?_, ?_⟩
  · rw [hxa]
    exact (List.mem_filter.mp hy).2
  · have := hmost y hy s hs habove
    omega
  · rw [hstake, min_eq_left hbelow.le] at hleast
    exact isLeast_lowerMedian hbelow hleast
  · obtain ⟨low, hlow, high, hhigh, hends⟩ :=
      exists_ends (List.Pairwise.filter _ hsorted) (List.ne_nil_of_mem hxw)
    obtain ⟨⟨y, hy, hyp⟩, -⟩ := hleast.1
    rw [← hyp]
    exact ⟨low, hlow, high, hhigh, hends, hends y hy⟩

theorem picked_spec (u : List Sample) :
    (u = [] ∧ picked u = none) ∨ ∃ w stake price, picked u = some (w, stake, price) ∧ Picked u w stake price := by
  set l := u.mergeSort fun a b => decide (a.1 ≤ b.1) with hl
  have hperm : l.Perm u := List.mergeSort_perm u _
  have hsorted : Sorted l := sorted_mergeSort u
  unfold picked
  dsimp only
  rw [← hl]
  rcases bestWindow_spec hsorted with ⟨hnone, hnil⟩ | ⟨start, a, ha, hbest, htake⟩
  · rw [hnil] at hperm
    exact .inl ⟨hperm.symm.eq_nil, by rw [hnone]⟩
  · rw [hbest]
    dsimp only
    rw [htake]
    exact .inr ⟨_, _, _, rfl, picked_of_heaviest hperm hsorted ha (weightedMedian_spec hsorted ha _)⟩

end Windows

theorem tryFinalizePriceUsd_eq (env : TallyEnv) (t : OracleTally) (staking : StakingState) (q : ℕ) :
    t.tryFinalizePriceUsd env staking q =
      if staking.activeTotal = 0 then none
      else (priceSamples env t staking t.reveals.toList).bind fun u =>
        (picked u).bind fun (w, stake, price) =>
          if stake * 100 % u64 / staking.activeTotal < q then none
          else some (env.priceUsdBody price w.length,
            ((w.find? fun x => decide (x.1 = price)).map fun x => x.2.2).getD 200,
            stake, staking.activeTotal) := by
  unfold OracleTally.tryFinalizePriceUsd priceIn
  dsimp only
  by_cases hzero : staking.activeTotal = 0
  · rw [if_pos hzero, if_pos hzero]
  rw [if_neg hzero, if_neg hzero]
  cases priceSamples env t staking t.reveals.toList with
  | none => rfl
  | some u =>
    rw [Option.bind_some]
    unfold picked
    dsimp only
    rcases bestWindow_spec (sorted_mergeSort u) with ⟨hnone, -⟩ | ⟨start, a, -, hbest, htake⟩
    · rw [hnone]
      rfl
    · -- the loops count the samples of the window
      rw [hbest]
      dsimp only
      rw [htake, Option.bind_some]
      rfl

/-- **The heaviest window and its median**, of any samples, are what an attempt for prices returns. -/
theorem finalizes_heaviest_median :
    (∀ u : List Sample, (u = [] ∧ picked u = none) ∨
      ∃ w stake price, picked u = some (w, stake, price) ∧ Picked u w stake price) ∧
    ∀ (env : TallyEnv) (t : OracleTally) (staking : StakingState) (q : ℕ),
      t.tryFinalizePriceUsd env staking q =
        if staking.activeTotal = 0 then none
        else (priceSamples env t staking t.reveals.toList).bind fun u =>
          (picked u).bind fun (w, stake, price) =>
            if stake * 100 % u64 / staking.activeTotal < q then none
            else some (env.priceUsdBody price w.length,
              ((w.find? fun x => decide (x.1 = price)).map fun x => x.2.2).getD 200,
              stake, staking.activeTotal) :=
  ⟨picked_spec, tryFinalizePriceUsd_eq⟩

/-! ### Stakes that saturate -/

/-- Two samples of one price and three of a higher one, each with half of the range as its stake. -/
def heavySamples : List Sample :=
  [(1000, 2 ^ 63, 200), (1000, 2 ^ 63, 200), (2000, 2 ^ 63, 200), (2000, 2 ^ 63, 200), (2000, 2 ^ 63, 200)]

def fullSamples : List Sample := [(10000, 2 ^ 63 - 1, 200), (10001, 2 ^ 63, 200)]

/-- Two windows that saturate weigh the same, and the first is picked; the target of a full window is rounded
down, and the price is below the lower median. -/
theorem saturated_windows :
    (∃ w stake price, picked heavySamples = some (w, stake, price) ∧
      ∃ x ∈ heavySamples, ∃ s : List Sample, s.Subperm heavySamples ∧ Above x s ∧ stakeOf w < stakeOf s) ∧
    ∃ w stake price, picked fullSamples = some (w, stake, price) ∧ ¬ LowerMedian w price := by
  have hheavy : (heavySamples.mergeSort fun a b => decide (a.1 ≤ b.1)) = heavySamples :=
    List.mergeSort_of_pairwise (by decide)
  have hfull : (fullSamples.mergeSort fun a b => decide (a.1 ≤ b.1)) = fullSamples :=
    List.mergeSort_of_pairwise (by decide)
  constructor
  · refine ⟨[(1000, 2 ^ 63, 200), (1000, 2 ^ 63, 200)], u64 - 1, 1000, ?_, (2000, 2 ^ 63, 200), by decide,
      heavySamples.drop 2, (List.drop_sublist 2 _).subperm, ?_, by decide +kernel⟩
    · unfold picked
      rw [hheavy]
      decide +kernel
    · intro y hy
      have hall : (heavySamples.drop 2).all (fun y => within 2000 y.1) = true := by decide +kernel
      exact List.all_eq_true.mp hall y hy
  · refine ⟨fullSamples, u64 - 1, 10000, ?_, ?_⟩
    · unfold picked
      rw [hfull]
      decide +kernel
    · rintro ⟨⟨-, hhalf⟩, -⟩
      exact absurd hhalf (by decide +kernel)

end TruthLinked.Oracle.Windows
