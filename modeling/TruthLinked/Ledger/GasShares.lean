import TruthLinked.Ledger.Maintenance
import TruthLinked.Ledger.Revenue

/-! # What the gas distribution pays

`compute_gas_fee_distribution_diff` marks all gas fees as spent. The shares of the validators are rounded
down, and the part without an account is handed out again to the last token; what the first rounding leaves is
paid to nobody. So all that is spent is paid exactly when the fees divide by stake (`paysAll_iff`). -/

namespace TruthLinked.Ledger.GasShares

open Core.Types Runtime.Types Staking.State Staking.Specs Ledger.Model Ledger.Mcp Ledger.Distribution
open Ledger.Maintenance Ledger.Revenue Ledger.MergeAgreement Lib.SortKey

/-- The transfers of the distribution are all of the fees that it spends. -/
def PaysAll (env : Env) (s : State) : Prop :=
  ((computeGasFeeDistributionDiff env s).nativeTransfers.map Prod.snd).sum =
    (computeGasFeeDistributionDiff env s).gasFeeSpent

/-- Some active validator has an account. -/
def HasPayee (env : Env) (s : State) : Prop :=
  ∃ e ∈ activeValidators s.staking, accountIdFromPubkey env e.1 ∈ s.accounts

/-- The stake of the active validators, as a sum that does not wrap. -/
def stakeSum (s : State) : ℕ := ((activeValidators s.staking).map Prod.snd).sum

/-- The fees times a stake fit, and divide by the stake of all. -/
def Divides (s : State) : Prop :=
  s.accumulatedGasFees = 0 ∨ stakeSum s < u64 ∧ ∀ e ∈ activeValidators s.staking,
    s.accumulatedGasFees * e.2 < u128 ∧ stakeSum s ∣ s.accumulatedGasFees * e.2

/-! ## The first round -/

/-- The share of a validator. -/
def shareOf (fees total : ℕ) (e : Bytes × ℕ) : ℕ := fees * e.2 % u128 / total

section Shares
variable {env : Env} {s : State} {fees total : ℕ}

theorem shareOf_mul_le (e : Bytes × ℕ) : shareOf fees total e * total ≤ fees * e.2 :=
  (Nat.div_mul_le_self _ total).trans (Nat.mod_le _ _)

theorem shareOf_exact_iff {e : Bytes × ℕ} :
    shareOf fees total e * total = fees * e.2 ↔ fees * e.2 < u128 ∧ total ∣ fees * e.2 := by
  constructor
  · intro h
    have hle := Nat.div_mul_le_self (fees * e.2 % u128) total
    rw [shareOf] at h
    have hlt : fees * e.2 < u128 := by
      have := Nat.mod_lt (fees * e.2) (show 0 < u128 by decide)
      omega
    exact ⟨hlt, Dvd.intro_left _ h⟩
  · rintro ⟨hlt, hdvd⟩
    rw [shareOf, Nat.mod_eq_of_lt hlt, Nat.div_mul_cancel hdvd]

/-- Whether a validator gets a share and has an account, or gets a share and has none. -/
def isPayee (env : Env) (s : State) (fees total : ℕ) (hasAccount : Bool) (e : Bytes × ℕ) : Bool :=
  decide (shareOf fees total e ≠ 0) && (decide (accountIdFromPubkey env e.1 ∈ s.accounts) == hasAccount)

/-- The validators with a share, with an account or without one. -/
def payees (env : Env) (s : State) (fees total : ℕ) (hasAccount : Bool) : List (Bytes × ℕ) :=
  (activeValidators s.staking).filter (isPayee env s fees total hasAccount)

/-- The entry of a validator with an account. -/
def entryOf (env : Env) (fees total : ℕ) (e : Bytes × ℕ) : GasShare :=
  ⟨accountIdFromPubkey env e.1, shareOf fees total e, e.2⟩

/-- **The first round**, as two lists. -/
theorem gasShares_eq (env : Env) (s : State) (fees total : ℕ) :
    gasShares env s fees total =
      ((payees env s fees total true).map (entryOf env fees total),
        satSum ((payees env s fees total false).map (shareOf fees total))) := by
  unfold gasShares payees satSum activeValidators
  suffices h : ∀ (l : List (Bytes × ValidatorStake)) (updates : List GasShare) (unmatched : ℕ),
      l.foldl _ (updates, unmatched) =
      (updates ++ (((l.filter fun x => x.2.isActive s.staking.currentHeight).map fun x =>
        (x.1, x.2.activeStake)).filter
          (isPayee env s fees total true)).map (entryOf env fees total),
        ((((l.filter fun x => x.2.isActive s.staking.currentHeight).map fun x => (x.1, x.2.activeStake)).filter
          (isPayee env s fees total false)).map (shareOf fees total)).foldl satAdd unmatched) by
    exact h _ [] 0
  intro l
  induction l with
  | nil => exact fun updates unmatched => by simp
  | cons e l ih =>
    intro updates unmatched
    obtain ⟨pk, v⟩ := e
    have hnone : v.activeStake = 0 → shareOf fees total (pk, v.activeStake) = 0 := by
      intro hstake
      rw [shareOf, hstake, Nat.mul_zero, Nat.zero_mod, Nat.zero_div]
    rw [List.foldl_cons]
    dsimp only
    split_ifs with hidle hzero haccount
    · rw [ih]
      rcases hidle with hidle | hstake
      · simp [hidle]
      · by_cases hactive : v.isActive s.staking.currentHeight = true
        · simp [hactive, isPayee, hnone hstake]
        · simp [hactive]
    · rw [ih]
      simp [not_not.mp (not_or.mp hidle).1, isPayee,
        show shareOf fees total (pk, v.activeStake) = 0 from hzero]
    · rw [ih]
      simp [not_not.mp (not_or.mp hidle).1, isPayee, haccount,
        show shareOf fees total (pk, v.activeStake) ≠ 0 from hzero]
      rfl
    · rw [ih]
      simp [not_not.mp (not_or.mp hidle).1, isPayee, haccount,
        show shareOf fees total (pk, v.activeStake) ≠ 0 from hzero]
      rfl

theorem sum_payees (env : Env) (s : State) (fees total : ℕ) :
    ((payees env s fees total true).map (shareOf fees total)).sum +
      ((payees env s fees total false).map (shareOf fees total)).sum =
        ((activeValidators s.staking).map (shareOf fees total)).sum := by
  unfold payees
  induction activeValidators s.staking with
  | nil => rfl
  | cons e l ih =>
    by_cases hzero : shareOf fees total e = 0
    · have hnone : ∀ b, isPayee env s fees total b e = false := fun b => by simp [isPayee, hzero]
      rw [List.filter_cons_of_neg (by simp [hnone]), List.filter_cons_of_neg (by simp [hnone]), List.map_cons,
        List.sum_cons, hzero, Nat.zero_add]
      exact ih
    · by_cases haccount : accountIdFromPubkey env e.1 ∈ s.accounts
      · rw [List.filter_cons_of_pos (by simp [isPayee, hzero, haccount]),
          List.filter_cons_of_neg (by simp [isPayee, haccount])]
        simp only [List.map_cons, List.sum_cons]
        omega
      · rw [List.filter_cons_of_neg (by simp [isPayee, haccount]),
          List.filter_cons_of_pos (by simp [isPayee, hzero, haccount])]
        simp only [List.map_cons, List.sum_cons]
        omega

end Shares

/-! ## The second round -/

section Redistribution
variable {updates : List GasShare} {unmatched : ℕ}

theorem largest_lt {n : ℕ} (l : List (GasShare × ℕ)) (best : ℕ × ℕ) (hl : ∀ e ∈ l, e.2 < n) (hbest : best.1 < n) :
    (l.foldl (fun (best, stake) (u, i) => if stake ≤ u.stake then (i, u.stake) else (best, stake))
      best).1 < n := by
  induction l generalizing best with
  | nil => exact hbest
  | cons e l ih =>
    refine ih _ (fun e' he' => hl e' (List.mem_cons_of_mem e he')) ?_
    dsimp only
    split_ifs
    · exact hl e List.mem_cons_self
    · exact hbest

theorem largestStake_lt (h : updates ≠ []) : largestStake updates < updates.length := by
  refine largest_lt _ _ (fun e he => ?_) (List.length_pos_iff.mpr h)
  have := List.snd_lt_add_of_mem_zipIdx he
  omega

theorem sum_zip_share {extras : List ℕ} (hlen : extras.length = updates.length)
    (hfit : (updates.map GasShare.share).sum + extras.sum < u128) :
    (((updates.zip extras).map fun (u, extra) => { u with share := satAdd u.share extra }).map
      GasShare.share).sum =
      (updates.map GasShare.share).sum + extras.sum := by
  induction updates generalizing extras with
  | nil =>
    obtain rfl := List.length_eq_zero_iff.mp hlen
    rfl
  | cons u updates ih =>
    obtain ⟨x, extras, rfl⟩ := List.exists_cons_of_length_eq_add_one hlen
    simp only [List.zip_cons_cons, List.map_cons, List.sum_cons, List.length_cons] at hlen hfit ⊢
    rw [ih (by omega) (by omega), satAdd, min_eq_left (by omega)]
    omega

/-- **The second round** hands out all that was left without an account. -/
theorem sum_redistribute (hne : updates ≠ []) (hpos : ∀ u ∈ updates, 0 < u.stake)
    (hstakes : (updates.map GasShare.stake).sum < u64)
    (hfit : (updates.map GasShare.share).sum + unmatched < u128) :
    ((redistribute updates unmatched).map GasShare.share).sum = (updates.map GasShare.share).sum + unmatched := by
  have hmatched : 0 < (updates.map GasShare.stake).sum := by
    obtain ⟨u, hu⟩ := List.exists_mem_of_ne_nil updates hne
    exact (hpos u hu).trans_le (List.le_sum_of_mem (List.mem_map_of_mem hu))
  unfold redistribute
  rw [sum64_eq hstakes]
  set m := (updates.map GasShare.stake).sum with hm
  by_cases hzero : unmatched = 0
  · rw [if_pos (.inl hzero), hzero, Nat.add_zero]
  · rw [if_neg (by simp [hzero, hne, hmatched.ne'])]
    dsimp only
    set extras := updates.map fun u => unmatched * u.stake % u128 / m with hextras
    have hle : extras.sum ≤ unmatched := by
      refine Lib.ProRata.sum_le hmatched (fun u _ => ?_) hm.ge
      exact (Nat.div_mul_le_self _ m).trans (Nat.mod_le _ _)
    rw [Nat.mod_eq_of_lt (show extras.sum < u128 by omega)]
    split_ifs with hdust
    · have hsum : extras.sum = unmatched := by omega
      exact (@sum_zip_share updates extras (List.length_map ..) (by omega)).trans (by rw [hsum])
    · set place := largestStake updates
      have hplace : place < extras.length := by
        rw [hextras, List.length_map]
        exact largestStake_lt hne
      have hentry : extras[place] ≤ extras.sum := List.le_sum_of_mem (List.getElem_mem hplace)
      have hadd : satAdd extras[place] (unmatched - extras.sum) = extras[place] + (unmatched - extras.sum) :=
        min_eq_left (by omega)
      have hmodify := Lib.ProRata.sum_map_modify id (fun e => satAdd e (unmatched - extras.sum)) hplace
      rw [List.map_id, List.map_id, id, id, hadd] at hmodify
      have hsum : (extras.modify place fun e => satAdd e (unmatched - extras.sum)).sum = unmatched := by omega
      rw [sum_zip_share (by rw [List.length_modify, hextras, List.length_map]) (by omega), hsum]

end Redistribution

/-! ## All that is paid -/

section Paid
variable {env : Env} {s : State}

theorem activeTotal_eq (hfit : stakeSum s < u64) : s.staking.activeTotal = stakeSum s := by
  have hmap : ((s.staking.validators.toList.map Prod.snd).filter fun v => v.isActive s.staking.currentHeight).map
      ValidatorStake.activeStake = (activeValidators s.staking).map Prod.snd := by
    rw [List.filter_map, activeValidators, List.map_map, List.map_map]
    rfl
  rw [StakingState.activeTotal, StakingState.stakeOf, hmap]
  exact sum64_eq hfit

theorem stake_pos {st : StakingState} {e : Bytes × ℕ} (h : e ∈ activeValidators st) : 0 < e.2 := by
  obtain ⟨⟨pk, v⟩, hv, rfl⟩ := List.mem_map.mp h
  have hactive := (List.mem_filter.mp hv).2
  simp only [ValidatorStake.isActive, Bool.and_eq_true] at hactive
  exact (show 0 < minValidatorStake by decide).trans_le (of_decide_eq_true hactive.2)

/-- **What is paid**: nothing when no validator with an account gets a share, else all the shares. -/
theorem sum_nativeTransfers (hfees : s.accumulatedGasFees ≠ 0) (hlt : s.accumulatedGasFees < u128)
    (hpos : 0 < stakeSum s) (hfit : stakeSum s < u64) :
    ((computeGasFeeDistributionDiff env s).nativeTransfers.map Prod.snd).sum =
      if payees env s s.accumulatedGasFees (stakeSum s) true = [] then 0
      else ((activeValidators s.staking).map (shareOf s.accumulatedGasFees (stakeSum s))).sum := by
  set fees := s.accumulatedGasFees with hfeesDef
  set total := stakeSum s with htotal
  have hall : ((activeValidators s.staking).map (shareOf fees total)).sum ≤ fees :=
    Lib.ProRata.sum_le hpos (fun e _ => shareOf_mul_le e) htotal.ge
  have hsplit := sum_payees env s fees total
  have hunmatched : satSum ((payees env s fees total false).map (shareOf fees total)) =
      ((payees env s fees total false).map (shareOf fees total)).sum := satSum_eq _ (by omega)
  have hshares : ∀ l : List (Bytes × ℕ), (l.map (entryOf env fees total)).map GasShare.share =
      l.map (shareOf fees total) :=
    fun l => List.map_map
  have hstakes : ∀ l : List (Bytes × ℕ), (l.map (entryOf env fees total)).map GasShare.stake = l.map Prod.snd :=
    fun l => List.map_map
  have hpaid : ((computeGasFeeDistributionDiff env s).nativeTransfers.map Prod.snd).sum =
      ((redistribute (gasShares env s fees total).1 (gasShares env s fees total).2).map GasShare.share).sum := by
    unfold computeGasFeeDistributionDiff
    rw [activeTotal_eq hfit]
    dsimp only
    rw [if_neg hfees, if_neg hpos.ne']
    dsimp only
    rw [List.map_map]
    exact ((sortByKey_perm GasShare.accountId _).map GasShare.share).sum_eq
  rw [hpaid, gasShares_eq, hunmatched]
  split_ifs with hempty
  · rw [hempty, redistribute, if_pos (.inr (.inl rfl))]
    rfl
  · have hne : (payees env s fees total true).map (entryOf env fees total) ≠ [] :=
      fun h => hempty (List.map_eq_nil_iff.mp h)
    have hsub : ((payees env s fees total true).map Prod.snd).sum ≤ total :=
      (List.filter_sublist.map Prod.snd).sum_le_sum fun _ _ => Nat.zero_le _
    rw [sum_redistribute hne, hshares, hsplit]
    · intro u hu
      obtain ⟨e, he, rfl⟩ := List.mem_map.mp hu
      exact stake_pos (List.mem_filter.mp he).1
    · rw [hstakes]
      omega
    · rw [hshares, hsplit]
      omega

/-- **When all is paid**, among the states whose active stakes fit. -/
theorem paysAll_of_fit (hlt : s.accumulatedGasFees < u128) (hfit : stakeSum s < u64) (hpayee : HasPayee env s) :
    PaysAll env s ↔ Divides s := by
  obtain ⟨e, he, haccount⟩ := hpayee
  have hpos : 0 < stakeSum s := (stake_pos he).trans_le (List.le_sum_of_mem (List.mem_map_of_mem he))
  have hspent : (computeGasFeeDistributionDiff env s).gasFeeSpent = s.accumulatedGasFees := by
    unfold computeGasFeeDistributionDiff
    dsimp only
    split_ifs with hzero
    · exact hzero.symm
    · rfl
    · rfl
  by_cases hzero : s.accumulatedGasFees = 0
  · refine iff_of_true ?_ (.inl hzero)
    rw [PaysAll, hspent, computeGasFeeDistributionDiff]
    simp [hzero]
  · have hproportion : ∀ e ∈ activeValidators s.staking,
        shareOf s.accumulatedGasFees (stakeSum s) e * stakeSum s ≤ s.accumulatedGasFees * e.2 :=
      fun e _ => shareOf_mul_le e
    have hexact := Lib.ProRata.sum_eq_iff hpos hproportion rfl
    rw [PaysAll, hspent, sum_nativeTransfers hzero hlt hpos hfit]
    constructor
    · intro h
      split_ifs at h with hempty
      · exact absurd h.symm hzero
      · exact .inr ⟨hfit, fun e he => shareOf_exact_iff.mp (hexact.mp h e he)⟩
    · rintro (h | ⟨-, h⟩)
      · exact absurd h hzero
      · have hmem : e ∈ payees env s s.accumulatedGasFees (stakeSum s) true := by
          refine List.mem_filter.mpr ⟨he, ?_⟩
          have hshare : shareOf s.accumulatedGasFees (stakeSum s) e ≠ 0 := by
            intro hnone
            have hprod := shareOf_exact_iff.mpr (h e he)
            rw [hnone, Nat.zero_mul] at hprod
            exact absurd hprod.symm (Nat.mul_pos (Nat.pos_of_ne_zero hzero) (stake_pos he)).ne'
          simp [isPayee, hshare, haccount]
        rw [if_neg (List.ne_nil_of_mem hmem)]
        exact hexact.mpr fun e he => shareOf_exact_iff.mpr (h e he)

end Paid

/-- **What is spent is paid** when the fees divide by stake, and otherwise not, unless the sum of the stakes
wraps. -/
theorem paysAll_iff {env : Env} {s : State} (hlt : s.accumulatedGasFees < u128) (hpayee : HasPayee env s) :
    (Divides s → PaysAll env s) ∧ (stakeSum s < u64 → PaysAll env s → Divides s) := by
  refine ⟨fun h => ?_, fun hfit => (paysAll_of_fit hlt hfit hpayee).mp⟩
  rcases h with hzero | ⟨hfit, h⟩
  · rw [PaysAll, computeGasFeeDistributionDiff]
    simp [hzero]
  · exact (paysAll_of_fit hlt hfit hpayee).mpr (.inr ⟨hfit, h⟩)

def gasState (fees : ℕ) : State :=
  { sampleState with
    accounts := fromList [(firstAccount, .fresh [1]), (secondAccount, .fresh [2])]
    staking := twoValidators
    accumulatedGasFees := fees }

theorem hasPayee_gasState (fees : ℕ) : HasPayee rewardEnv (gasState fees) := by
  have hactive : ([1], 3 * minValidatorStake) ∈ activeValidators twoValidators := by decide +kernel
  have haccount : accountIdFromPubkey rewardEnv [1] ∈ fromList (K := AccountId)
      [(firstAccount, AccountRecord.fresh [1]),
      (secondAccount, .fresh [2])] := by decide +kernel
  exact ⟨_, hactive, haccount⟩

/-- Fees of 1000 divide by the two stakes, and are paid out. -/
theorem paysAll_sample : PaysAll rewardEnv (gasState 1000) :=
  (paysAll_iff (s := gasState 1000) (by decide) (hasPayee_gasState 1000)).1 (.inr (by decide +kernel))

/-- Of fees of 1003 one is spent and paid to nobody. -/
theorem gas_lost : ¬ ∀ env s, s.accumulatedGasFees < u128 → HasPayee env s → PaysAll env s := by
  intro h
  have hall := h rewardEnv (gasState 1003) (by decide) (hasPayee_gasState 1003)
  have hpaid : ((computeGasFeeDistributionDiff rewardEnv (gasState 1003)).nativeTransfers.map
      Prod.snd).sum = 1002 ∧
      (computeGasFeeDistributionDiff rewardEnv (gasState 1003)).gasFeeSpent = 1003 := by decide +kernel
  rw [PaysAll, hpaid.1, hpaid.2] at hall
  exact absurd hall (by decide)

end TruthLinked.Ledger.GasShares
