import TruthLinked.Ledger.Distribution
import TruthLinked.Ledger.MergeAgreement
import TruthLinked.Ledger.Slots
import TruthLinked.Lib.ProRata
import Mathlib.Algebra.Order.BigOperators.Group.List

/-! # The distribution of the revenue is exact

What the validators and the holders of lock positions get and what is burned add up to the revenue. Each of
the two parts is shared out by weight and rounded down, and what the shares leave over is burned. Below the
total supply no sum or product of the distribution comes near its limit, so no revenue is lost to saturation
(`distributes_exactly`). -/

namespace TruthLinked.Ledger.Revenue

open Core.Types Runtime.Types Staking.State Ledger.Mcp Staking.Specs Ledger.Model Ledger.SystemCells
open Ledger.Distribution Ledger.MergeAgreement Lib.Except

/-- `TOTAL_SUPPLY`. -/
def totalSupply : ℕ := 1000000000000000000

/-- The four revenues together. -/
def collected (s : State) : ℕ :=
  s.accumulatedGasFees + s.accumulatedNameFees + s.accumulatedComputeFeesTlkd + s.accumulatedTreasuryFees

/-- No revenue, and no active stake, is more than the total supply. -/
structure WithinSupply (s : State) : Prop where
  gas : s.accumulatedGasFees ≤ totalSupply
  name : s.accumulatedNameFees ≤ totalSupply
  compute : s.accumulatedComputeFeesTlkd ≤ totalSupply
  treasury : s.accumulatedTreasuryFees ≤ totalSupply
  stakes : ((activeValidators s.staking).map Prod.snd).sum ≤ totalSupply

/-- No sum and no product of a distribution reaches the limit of its type. -/
structure Unsaturated (env : Env) (s : State) : Prop where
  split : collected s * 6000 < u128
  stakes : ((activeValidators s.staking).map Prod.snd).sum < u64
  rewards : ∀ e ∈ activeValidators s.staking, collected s * e.2 < u128
  weights : ((stakingBalances env s).map Prod.snd).sum < u128
  shares : ∀ e ∈ stakingBalances env s, collected s * e.2 < u128

/-! ## Shares -/

theorem satSum_eq (xs : List ℕ) (h : xs.sum < u128) : satSum xs = xs.sum := by
  have hfold : ∀ a, a + xs.sum < u128 → xs.foldl satAdd a = a + xs.sum := by
    clear h
    induction xs with
    | nil => simp
    | cons x xs ih =>
      intro a ha
      rw [List.sum_cons] at ha ⊢
      have hadd : satAdd a x = a + x := min_eq_left (by omega)
      rw [List.foldl_cons, hadd, ih _ (by omega)]
      omega
  rw [satSum, hfold 0 (by omega), Nat.zero_add]

theorem sum_filter_pos {K : Type} (l : List (K × ℕ)) :
    ((l.filter fun e => 0 < e.2).map Prod.snd).sum = (l.map Prod.snd).sum := by
  induction l with
  | nil => rfl
  | cons e l ih =>
    rw [List.filter_cons]
    split_ifs with hpos
    · rw [List.map_cons, List.sum_cons, List.map_cons, List.sum_cons, ih]
    · have hzero : e.2 = 0 := by simpa using hpos
      rw [List.map_cons, List.sum_cons, ih, hzero, Nat.zero_add]

/-- **Shares do not exceed the amount**, a product that saturates making them smaller only. -/
theorem sum_sharesOf_le {K : Type} {amount total : ℕ} {weights : List (K × ℕ)}
    (h : (weights.map Prod.snd).sum ≤ total) : ((sharesOf amount total weights).map Prod.snd).sum ≤ amount := by
  unfold sharesOf
  split_ifs with hpos
  · rw [sum_filter_pos, List.map_map]
    refine Lib.ProRata.sum_le (w := Prod.snd) hpos.2 (fun e _ => ?_) h
    exact (Nat.div_mul_le_self _ total).trans (min_le_left _ _)
  · exact Nat.zero_le _

theorem sum_sharesOf_dust {K : Type} {amount total : ℕ} {weights : List (K × ℕ)} (hamount : amount < u128)
    (h : (weights.map Prod.snd).sum ≤ total) :
    ((sharesOf amount total weights).map Prod.snd).sum + dustOf amount (sharesOf amount total weights) =
      amount := by
  have hle := @sum_sharesOf_le K amount total weights h
  rw [dustOf, satSum_eq _ (by omega)]
  omega

theorem sum_splitRevenue {amount : ℕ} (h : amount * 6000 < u128) :
    (splitRevenue amount).1 + (splitRevenue amount).2.1 + (splitRevenue amount).2.2 = amount := by
  simp only [splitRevenue, satMul]
  omega

/-! ## The holders -/

theorem length_holdersIn (env : Env) (storage : Storage) : (holdersIn env storage).length < u64 := by
  refine (List.length_filterMap_le _ _).trans_lt ?_
  rw [List.length_range]
  exact Slots.readSlotU64_lt storage _

theorem weightIn_lt {env : Env} {storage : Storage} {height : ℕ} {account : AccountId} {weight : ℕ}
    (h : weightIn env storage height account = some weight) : weight < u64 := by
  unfold weightIn at h
  split_ifs at h
  dsimp only at h
  split_ifs at h
  obtain rfl := Option.some.inj h
  exact Nat.mod_lt _ (by decide)

theorem stakingBalances_lt {env : Env} {s : State} {e : AccountId × ℕ} (h : e ∈ stakingBalances env s) :
    e.2 < u64 := by
  obtain ⟨holder, -, he⟩ := List.mem_filterMap.mp h
  obtain ⟨weight, hweight, rfl⟩ := Option.map_eq_some_iff.mp he
  exact weightIn_lt hweight

/-- The weights fit, however many holders there are: their number and each weight are `u64`. -/
theorem sum_stakingBalances_lt (env : Env) (s : State) : ((stakingBalances env s).map Prod.snd).sum < u128 := by
  have hlen : (stakingBalances env s).length ≤ u64 - 1 := by
    have h1 := List.length_filterMap_le (fun holder => (stakingBalanceOf env s holder).map fun weight =>
      (holder, weight))
      (loadStakingHolders env s)
    have h2 := length_holdersIn env (stakingStorage env s)
    exact h1.trans (Nat.le_sub_one_of_lt h2)
  have hsum := List.sum_le_card_nsmul ((stakingBalances env s).map Prod.snd) (u64 - 1) (by
    intro weight hweight
    obtain ⟨e, he, rfl⟩ := List.mem_map.mp hweight
    exact Nat.le_sub_one_of_lt (stakingBalances_lt he))
  rw [List.length_map, Nat.nsmul_eq_mul] at hsum
  refine (hsum.trans (Nat.mul_le_mul_right _ hlen)).trans_lt ?_
  decide

/-! ## The distribution -/

section Distribution
variable {env : Env} {s : State}

theorem unsaturated_of_withinSupply (h : WithinSupply s) : Unsaturated env s := by
  have hcollected : collected s ≤ 4 * totalSupply := by
    obtain ⟨h1, h2, h3, h4, -⟩ := h
    unfold collected
    omega
  refine ⟨?_, h.stakes.trans_lt (by decide), fun e he => ?_, sum_stakingBalances_lt env s, fun e he => ?_⟩
  · exact (Nat.mul_le_mul_right _ hcollected).trans_lt (by decide)
  · have hle : e.2 ≤ totalSupply := (List.le_sum_of_mem (List.mem_map_of_mem he)).trans h.stakes
    exact (Nat.mul_le_mul hcollected hle).trans_lt (by decide)
  · have hle : e.2 ≤ u64 - 1 := Nat.le_sub_one_of_lt (stakingBalances_lt he)
    exact (Nat.mul_le_mul hcollected hle).trans_lt (by decide)

/-- What a distribution spends is all that was collected. -/
theorem distribution_spends {d : StateDiff} {burned : ℕ}
    (hd : computeTreasuryDistributionDiff env s = .ok (d, burned)) :
    d.gasFeeSpent = s.accumulatedGasFees ∧ d.nameFeeSpent = s.accumulatedNameFees ∧
      d.computeFeeSpent = s.accumulatedComputeFeesTlkd ∧ d.treasuryFeeSpent = s.accumulatedTreasuryFees := by
  unfold computeTreasuryDistributionDiff at hd
  dsimp only at hd
  split_ifs at hd with hzero
  · cases hd
    have hpos : 0 < u128 - 1 := by decide
    unfold satAdd at hzero
    dsimp only
    omega
  · obtain ⟨updates, -, hd⟩ := bind_eq_ok.mp hd
    cases hd
    exact ⟨rfl, rfl, rfl, rfl⟩

/-- **A distribution is exact**: what it pays to validators and holders and what it burns are what it
spends. -/
theorem distribution_sum (h : Unsaturated env s) {d : StateDiff} {burned : ℕ}
    (hd : computeTreasuryDistributionDiff env s = .ok (d, burned)) :
    (d.stakingRewards.map Prod.snd).sum + (d.nativeTransfers.map Prod.snd).sum + burned =
      d.gasFeeSpent + d.nameFeeSpent + d.computeFeeSpent + d.treasuryFeeSpent := by
  have hcollected : collected s < u128 := by
    have := h.split
    omega
  have hsums : satAdd (satAdd s.accumulatedGasFees s.accumulatedNameFees) s.accumulatedComputeFeesTlkd =
      s.accumulatedGasFees + s.accumulatedNameFees + s.accumulatedComputeFeesTlkd := by
    unfold collected at hcollected
    unfold satAdd
    omega
  have hsplit := h.split
  unfold computeTreasuryDistributionDiff at hd
  rw [hsums] at hd
  unfold collected at hcollected hsplit
  set protocol := s.accumulatedGasFees + s.accumulatedNameFees + s.accumulatedComputeFeesTlkd with hprotocol
  by_cases hzero : satAdd protocol s.accumulatedTreasuryFees = 0
  · rw [if_pos hzero, pure_eq_ok] at hd
    cases hd
    rfl
  · rw [if_neg hzero, bind_eq_ok] at hd
    obtain ⟨updates, -, hd⟩ := hd
    cases hd
    have hfit : protocol * 6000 < u128 ∧ s.accumulatedTreasuryFees * 6000 < u128 := by omega
    have hP := sum_splitRevenue hfit.1
    have hT := sum_splitRevenue hfit.2
    generalize splitRevenue protocol = P at *
    generalize splitRevenue s.accumulatedTreasuryFees = T at *
    have hvalidators : satAdd P.1 T.1 = P.1 + T.1 := min_eq_left (by omega)
    have hholders : satAdd P.2.1 T.2.1 = P.2.1 + T.2.1 := min_eq_left (by omega)
    have hlt : P.1 + T.1 < u128 ∧ P.2.1 + T.2.1 < u128 := by omega
    have hrewards := sum_sharesOf_dust hlt.1 (sum64_eq h.stakes).ge
    have hshares := sum_sharesOf_dust hlt.2 (satSum_eq _ h.weights).ge
    have hpaid : ∀ l : List (Bytes × ℕ), (l.map fun e => (accountIdFromPubkey env e.1, e.2)).map
        Prod.snd = l.map Prod.snd :=
      fun l => List.map_map
    dsimp only
    rw [hpaid, hvalidators, hholders]
    generalize sharesOf (P.1 + T.1) _ _ = rewards at *
    generalize sharesOf (P.2.1 + T.2.1) _ _ = shares at *
    generalize dustOf (P.1 + T.1) rewards = dustV at *
    generalize dustOf (P.2.1 + T.2.1) shares = dustH at *
    have h1 : satAdd P.2.2 T.2.2 = P.2.2 + T.2.2 := min_eq_left (by omega)
    have h2 : satAdd (P.2.2 + T.2.2) dustV = P.2.2 + T.2.2 + dustV := min_eq_left (by omega)
    have h3 : satAdd (P.2.2 + T.2.2 + dustV) dustH = P.2.2 + T.2.2 + dustV + dustH := min_eq_left (by omega)
    rw [h1, h2, h3]
    omega

end Distribution

/-- **A distribution within the total supply** saturates nowhere and pays out or burns exactly what it
spends. -/
theorem distributes_exactly {env : Env} {s : State} (h : WithinSupply s) :
    Unsaturated env s ∧ ∀ d burned, computeTreasuryDistributionDiff env s = .ok (d, burned) →
      (d.stakingRewards.map Prod.snd).sum + (d.nativeTransfers.map Prod.snd).sum + burned =
        d.gasFeeSpent + d.nameFeeSpent + d.computeFeeSpent + d.treasuryFeeSpent ∧
      d.gasFeeSpent = s.accumulatedGasFees ∧ d.nameFeeSpent = s.accumulatedNameFees ∧
        d.computeFeeSpent = s.accumulatedComputeFeesTlkd ∧ d.treasuryFeeSpent = s.accumulatedTreasuryFees :=
  ⟨unsaturated_of_withinSupply h, fun _ _ hd =>
    ⟨distribution_sum (unsaturated_of_withinSupply h) hd, distribution_spends hd⟩⟩

/-! ## Two validators -/

def firstAccount : AccountId := 0x3e9352f624a97560fcd354bfafef853d368b25310a84790698760798f2c5d557

def secondAccount : AccountId := 0xec772de07b950d8dc7266d46ab4c23561c3587ffcba22587410dac533f709d58

def treasuryCell : AccountId := 0xe79e57ad2f265294226975057021bea65dc948aa10d181704848ff291fe1fae1

def rewardDigest (bs : Bytes) : Bytes32 :=
  if bs = "truthlinked-account-id-v1".toUTF8.toList ++ [1] then firstAccount
  else if bs = "truthlinked-account-id-v1".toUTF8.toList ++ [2] then secondAccount
  else if bs = "truthlinked-treasury-v1".toUTF8.toList then treasuryCell
  else 0x0348b5d1fba38117a16fc2ae9a12eb287305d16a9c49f792f52ae1952bb9a51d

/-- The third-party code, on the inputs that occur here. -/
def rewardEnv : Env := { sampleEnv with sha256 := rewardDigest }

/-- Two active validators, of which the first has three times the stake of the second. -/
def twoValidators : StakingState :=
  ⟨fromList [([1], .new (3 * minValidatorStake)), ([2], .new minValidatorStake)], 0, none⟩

def revenueState : State := { sampleState with staking := twoValidators, accumulatedGasFees := 1003 }

theorem distributes_sample : Unsaturated rewardEnv revenueState ∧
    ∃ d burned, computeTreasuryDistributionDiff rewardEnv revenueState = .ok (d, burned) ∧
      (d.stakingRewards.map Prod.snd).sum + (d.nativeTransfers.map Prod.snd).sum + burned =
        d.gasFeeSpent + d.nameFeeSpent + d.computeFeeSpent + d.treasuryFeeSpent := by
  have hsupply : WithinSupply revenueState := by
    constructor
    all_goals decide +kernel
  obtain ⟨hfits, hexact⟩ := @distributes_exactly rewardEnv _ hsupply
  have hok : (computeTreasuryDistributionDiff rewardEnv revenueState).isOk = true := by decide +kernel
  cases hd : computeTreasuryDistributionDiff rewardEnv revenueState with
  | error e =>
    rw [hd] at hok
    cases hok
  | ok r => exact ⟨hfits, r.1, r.2, rfl, (hexact r.1 r.2 hd).1⟩

end TruthLinked.Ledger.Revenue
