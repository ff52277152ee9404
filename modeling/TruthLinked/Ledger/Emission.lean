import TruthLinked.Ledger.GasShares
import TruthLinked.Lib.MapSum
import Mathlib.Order.Monotone.Basic
import Mathlib.Tactic.IntervalCases

/-! # The emission

`compute_epoch_emission` takes the powers of the decay in 128 bits and saturates their product with the
emission of the first year. It is right through the first six years (`exactEmission_iff`).
`pay_epoch_emission` debits the treasury before it knows the recipients: what it debits is what it credits
when there is an active validator (`paysExactly_iff`), and it pays once in an epoch (`pays_once`). -/

namespace TruthLinked.Ledger.Emission

open Core.Types Runtime.Cells Runtime.Types Staking.State Staking.Specs Ledger.Model Ledger.Mcp
open Ledger.AccountSpecs Ledger.Distribution Ledger.Maintenance Ledger.Revenue Ledger.GasShares
open Ledger.MergeAgreement Lib.Keyed Lib.MapSum

/-! ## The amount -/

/-- The year of a height, counted in whole epochs. -/
def yearOf (height : ℕ) : ℕ := height / emissionEpochBlocks * emissionEpochBlocks / blocksPerYear

/-- The emission of an epoch, before fees: the first year's less a fifth for each year since, rounded down. -/
def grossEmission (year : ℕ) : ℕ :=
  25000000 * 1000000000 * 8000 ^ year / 10000 ^ year / (blocksPerYear / emissionEpochBlocks)

/-- The emission of an epoch as the code works it out from the exponent. -/
def codeEmission (exponent : ℕ) : ℕ :=
  satMul (satMul 25000000 1000000000) ((10000 - 2000) ^ exponent % u128) / (10000 ^ exponent % u128) /
    (blocksPerYear / emissionEpochBlocks)

/-- The emission is computed without overflow and without a division by zero, and is that of the year. -/
structure ExactEmission (height : ℕ) : Prop where
  decay : (10000 - 2000) ^ (yearOf height % 2 ^ 32) < u128
  unit : 10000 ^ (yearOf height % 2 ^ 32) < u128
  divisor : 10000 ^ (yearOf height % 2 ^ 32) % u128 ≠ 0
  value : ∀ s : State, computeEpochEmission s height = grossEmission (yearOf height) - s.accumulatedEpochFees

theorem computeEpochEmission_eq (s : State) (height : ℕ) :
    computeEpochEmission s height = codeEmission (yearOf height % 2 ^ 32) - s.accumulatedEpochFees := rfl

theorem grossEmission_antitone : Antitone grossEmission := by
  refine antitone_nat_of_succ_le fun year => Nat.div_le_div_right ?_
  rw [Nat.pow_succ, Nat.pow_succ, ← Nat.mul_assoc]
  calc 25000000 * 1000000000 * 8000 ^ year * 8000 / (10000 ^ year * 10000)
      ≤ 25000000 * 1000000000 * 8000 ^ year * 10000 / (10000 ^ year * 10000) :=
        Nat.div_le_div_right (Nat.mul_le_mul_left _ (by decide))
    _ = 25000000 * 1000000000 * 8000 ^ year / 10000 ^ year := Nat.mul_div_mul_right _ _ (by decide)

theorem grossEmission_eq_zero {year : ℕ} (h : 145 ≤ year) : grossEmission year = 0 :=
  Nat.le_zero.mp ((grossEmission_antitone h).trans (by decide +kernel))

theorem yearOf_le_iff (height : ℕ) : yearOf height ≤ 5 ↔ height < 630720000 := by
  unfold yearOf emissionEpochBlocks blocksPerYear
  omega

theorem codeEmission_eq {year : ℕ} (h : year ≤ 5) : codeEmission year = grossEmission year := by
  interval_cases year <;> decide +kernel

/-- From the sixth exponent on the product saturates, which leaves too little. -/
theorem codeEmission_ne {exponent : ℕ} (h : 6 ≤ exponent) (hle : exponent ≤ 9) :
    codeEmission exponent ≠ grossEmission exponent := by
  interval_cases exponent <;> decide +kernel

theorem codeEmission_pos {exponent : ℕ} (h : exponent ≤ 9) : codeEmission exponent ≠ 0 := by
  interval_cases exponent <;> decide +kernel

/-- **When the emission is right**: through the first six years; and it falls from year to year. -/
theorem exactEmission_iff (height : ℕ) :
    Antitone grossEmission ∧ (ExactEmission height ↔ height < 630720000) := by
  refine ⟨grossEmission_antitone, ?_⟩
  rw [← yearOf_le_iff]
  constructor
  · intro h
    have hsmall : yearOf height % 2 ^ 32 ≤ 9 := by
      by_contra hbig
      have hpow := Nat.pow_le_pow_right (show 0 < 10000 by decide) (show 10 ≤ yearOf height % 2 ^ 32 by omega)
      exact absurd (hpow.trans_lt h.unit) (by decide)
    have hvalue := h.value { sampleState with accumulatedEpochFees := 0 }
    rw [computeEpochEmission_eq, Nat.sub_zero, Nat.sub_zero] at hvalue
    by_contra hlate
    rcases Nat.lt_or_ge (yearOf height) (2 ^ 32) with hyear | hyear
    · rw [Nat.mod_eq_of_lt hyear] at hvalue hsmall
      exact codeEmission_ne (by omega) hsmall hvalue
    · -- the exponent is cut to 32 bits, so the emission starts again
      rw [grossEmission_eq_zero (by omega)] at hvalue
      exact codeEmission_pos hsmall hvalue
  · intro h
    have hexponent : yearOf height % 2 ^ 32 = yearOf height := Nat.mod_eq_of_lt (by omega)
    have hpow : ∀ base, 0 < base → base ≤ 10000 → base ^ yearOf height < u128 := by
      intro base hpos hle
      refine (Nat.pow_le_pow_left hle _).trans_lt ?_
      exact (Nat.pow_le_pow_right (by decide) h).trans_lt (by decide)
    refine ⟨?_, ?_, ?_, fun s => ?_⟩
    · rw [hexponent]
      exact hpow _ (by decide) (by decide)
    · rw [hexponent]
      exact hpow _ (by decide) le_rfl
    · rw [hexponent, Nat.mod_eq_of_lt (hpow _ (by decide) le_rfl)]
      exact (Nat.pow_pos (by decide)).ne'
    · rw [computeEpochEmission_eq, hexponent, codeEmission_eq h]

/-- In the seventh year the emission is a nineteenth of what it should be. -/
theorem emission_saturates : ¬ ∀ height < u64, ExactEmission height := by
  intro h
  have hvalue := (h 630720000 (by decide)).value sampleState
  exact absurd hvalue (by decide +kernel)

/-! ## The shares -/

/-- The balances of all accounts together. -/
def balanceSum (m : Accounts) : ℕ := mapSum (fun _ r => r.balance) m

/-- The shares of an amount by stake, rounded down; the last validator gets what is left. -/
def emissionShares (env : Env) (emission total : ℕ) : List (Bytes × ℕ) → ℕ → List (AccountId × ℕ)
  | [], _ => []
  | (pk, stake) :: rest, left =>
    let share := if rest = [] then left else satMul emission stake / total
    (accountIdFromPubkey env pk, share) :: emissionShares env emission total rest (left - share)

/-- No account that gets a share goes over its limit. -/
def Room (m : Accounts) (shares : List (AccountId × ℕ)) : Prop :=
  ∀ a, 0 < moved a shares → balanceOf m a + moved a shares < u128

section Shares
variable {env : Env} {emission total : ℕ} {m : Accounts} {a : AccountId}

theorem valueAt_balance (m : Accounts) (a : AccountId) :
    valueAt (fun _ (r : AccountRecord) => r.balance) m a = balanceOf m a := by
  rw [valueAt, balanceOf, slot]
  cases m[a]? <;> rfl

/-- **All is shared out** when the floors do not exceed it. -/
theorem sum_emissionShares {l : List (Bytes × ℕ)} {left : ℕ} (hne : l ≠ [])
    (hfloors : (l.map fun e => satMul emission e.2 / total).sum ≤ left) :
    ((emissionShares env emission total l left).map Prod.snd).sum = left := by
  induction l generalizing left with
  | nil => exact absurd rfl hne
  | cons e rest ih =>
    obtain ⟨pk, stake⟩ := e
    simp only [List.map_cons, List.sum_cons] at hfloors
    simp only [emissionShares, List.map_cons, List.sum_cons]
    by_cases hlast : rest = []
    · rw [if_pos hlast, hlast]
      rfl
    · rw [if_neg hlast, ih hlast (by omega)]
      omega

theorem balanceSum_credit {r : AccountRecord} (m : Accounts) (a : AccountId) :
    balanceSum (m.insert a r) + balanceOf m a = balanceSum m + r.balance := by
  have h := mapSum_insert (f := fun _ (r : AccountRecord) => r.balance) m a r
  rwa [valueAt_balance] at h

theorem room_cons {share : ℕ} {shares : List (AccountId × ℕ)} {r : AccountRecord} (hpos : 0 < share)
    (hr : r.balance = satAdd (balanceOf m a) share) :
    Room m ((a, share) :: shares) ↔ balanceOf m a + share < u128 ∧ Room (m.insert a r) shares := by
  have hmoved : ∀ b, moved b ((a, share) :: shares) = (if a = b then share else 0) + moved b shares := fun b =>
    total_cons Prod.fst Prod.snd b (a, share) shares
  have hbalance : ∀ b, balanceOf (m.insert a r) b = if a = b then r.balance else balanceOf m b := by
    intro b
    rw [balanceOf, slot_insert]
    split_ifs
    · rfl
    · rfl
  have hself : ∀ (n : ℕ), (if a = a then n else 0) = n := fun n => if_pos rfl
  constructor
  · intro h
    have ha := h a
    rw [hmoved, hself] at ha
    have hlt : balanceOf m a + share < u128 := by
      have := ha (by omega)
      omega
    refine ⟨hlt, fun b hb => ?_⟩
    have hhere := h b
    rw [hmoved] at hhere
    rw [hbalance]
    split_ifs at hhere ⊢ with hab
    · subst hab
      rw [hr, satAdd, min_eq_left (by omega)]
      have := hhere (by omega)
      omega
    · have := hhere (by omega)
      omega
  · rintro ⟨hlt, h⟩ b hb
    have hhere := h b
    rw [hmoved] at hb ⊢
    rw [hbalance] at hhere
    split_ifs at hb hhere ⊢ with hab
    · subst hab
      rw [hr, satAdd, min_eq_left (by omega)] at hhere
      rcases Nat.eq_zero_or_pos (moved a shares) with hnone | hmore
      · omega
      · have := hhere hmore
        omega
    · have := hhere (by omega)
      omega

theorem room_of_sum {shares : List (AccountId × ℕ)} (h : balanceSum m + (shares.map Prod.snd).sum < u128) :
    Room m shares := by
  intro a _
  have hmoved : moved a shares ≤ (shares.map Prod.snd).sum :=
    (List.filter_sublist.map Prod.snd).sum_le_sum fun _ _ => Nat.zero_le _
  have hbalance : balanceOf m a ≤ balanceSum m := by
    rw [← valueAt_balance]
    exact valueAt_le m a
  omega

/-- **One credit**: an empty one is skipped, and what goes over the limit is lost. -/
theorem credit_step (pk : Bytes) (id : AccountId) (share : ℕ) (shares : List (AccountId × ℕ)) (m : Accounts) :
    let r : AccountRecord := { (m[id]?).getD (AccountRecord.fresh pk) with
      balance := satAdd ((m[id]?).getD (AccountRecord.fresh pk)).balance share }
    let m' : Accounts := if share = 0 then m else m.insert id r
    balanceSum m' ≤ balanceSum m + share ∧
      (Room m ((id, share) :: shares) ↔ balanceSum m' = balanceSum m + share ∧ Room m' shares) := by
  intro r m'
  by_cases hzero : share = 0
  · have hm : m' = m := if_pos hzero
    rw [hm, hzero]
    have hmoved : ∀ b, moved b ((id, 0) :: shares) = moved b shares := by
      intro b
      rw [moved, total_cons]
      simp
    refine ⟨le_rfl, ?_⟩
    unfold Room
    simp only [hmoved, Nat.add_zero, true_and]
  · have hm : m' = m.insert id r := if_neg hzero
    have hold : ((m[id]?).getD (AccountRecord.fresh pk)).balance = balanceOf m id := by
      rw [balanceOf, slot]
      cases m[id]? <;> rfl
    have hbalance : r.balance = satAdd (balanceOf m id) share := by rw [← hold]
    have hcredit := @balanceSum_credit r m id
    rw [hm, room_cons (Nat.pos_of_ne_zero hzero) hbalance]
    rw [hbalance] at hcredit
    unfold satAdd at hcredit
    refine ⟨by omega, and_congr_left fun _ => ?_⟩
    constructor
    · omega
    · omega

/-- **What the accounts get** is at most the shares, and all of them when there is room. -/
theorem balanceSum_shareEmission (hlt : emission < u128) (l : List (Bytes × ℕ)) (allocated : ℕ) (m : Accounts) :
    balanceSum (shareEmission env emission total l allocated m) ≤
      balanceSum m + ((emissionShares env emission total l (emission - allocated)).map Prod.snd).sum ∧
    (balanceSum (shareEmission env emission total l allocated m) =
      balanceSum m + ((emissionShares env emission total l (emission - allocated)).map Prod.snd).sum ↔
        Room m (emissionShares env emission total l (emission - allocated))) := by
  induction l generalizing allocated m with
  | nil => exact ⟨le_rfl, iff_of_true rfl fun a ha => absurd ha (lt_irrefl 0)⟩
  | cons e rest ih =>
    obtain ⟨pk, stake⟩ := e
    simp only [shareEmission, emissionShares, List.map_cons, List.sum_cons]
    generalize (if rest = [] then emission - allocated else satMul emission stake / total) = share
    generalize accountIdFromPubkey env pk = id
    have hleft : emission - satAdd allocated share = emission - allocated - share := by
      unfold satAdd
      omega
    obtain ⟨hstep, hroom⟩ := credit_step pk id share
      (emissionShares env emission total rest (emission - allocated - share)) m
    rw [hroom]
    dsimp only at hstep ⊢
    split_ifs at hstep ⊢ with hzero
    · obtain ⟨hle, hiff⟩ := ih allocated m
      rw [hzero, Nat.sub_zero, Nat.zero_add, ← hiff]
      exact ⟨hle, (and_iff_right (Nat.add_zero _).symm).symm⟩
    · generalize m.insert id _ = credited at hstep ⊢
      obtain ⟨hle, hiff⟩ := ih (satAdd allocated share) credited
      rw [hleft] at hle hiff
      rw [← hiff]
      constructor
      · omega
      · constructor
        · intro h
          constructor
          · omega
          · omega
        · rintro ⟨hone, h⟩
          omega

end Shares

/-! ## The payment -/

/-- The balance of the treasury cell. -/
def treasuryOf (env : Env) (s : State) : ℕ :=
  ((s.cells.cells[treasurySystemCellId env]?).map CellAccount.balance).getD 0

/-- What a call takes from the treasury. -/
def due (env : Env) (height : ℕ) (s : State) : ℕ :=
  if height / emissionEpochBlocks ≤ s.lastEmissionEpoch then 0
  else min (computeEpochEmission s height) (treasuryOf env s)

/-- A call takes from the treasury what it gives to the accounts, and no more than is there. -/
def PaysExactly (env : Env) (height : ℕ) (s : State) : Prop :=
  ∃ paid ≤ treasuryOf env s, treasuryOf env (payEpochEmission env height s) + paid = treasuryOf env s ∧
    balanceSum (payEpochEmission env height s).accounts = balanceSum s.accounts + paid

/-- Nothing is due, or there is an active validator and every account has room for its shares. -/
def Payable (env : Env) (height : ℕ) (s : State) : Prop :=
  due env height s = 0 ∨ activeValidators s.staking ≠ [] ∧ stakeSum s < u64 ∧
    Room s.accounts (emissionShares env (due env height s) (stakeSum s) (activeValidators s.staking)
      (due env height s))

section Payment
variable {env : Env} {height : ℕ} {s : State}

theorem payable_eq (st : StakingState) : ((st.validators.toList.filter fun (_, v) =>
    v.isActive st.currentHeight ∧ 0 < v.activeStake).map fun (pk, v) => (pk, v.activeStake)) =
      activeValidators st := by
  unfold activeValidators
  congr 1
  refine List.filter_congr fun e he => ?_
  obtain ⟨pk, v⟩ := e
  by_cases hactive : v.isActive st.currentHeight = true
  · have hmem : (pk, v.activeStake) ∈ activeValidators st :=
      List.mem_map.mpr ⟨(pk, v), List.mem_filter.mpr ⟨he, hactive⟩, rfl⟩
    simp [hactive, stake_pos hmem]
  · simp [hactive]

theorem computeEpochEmission_lt (s : State) (height : ℕ) : computeEpochEmission s height < u128 := by
  rw [computeEpochEmission_eq]
  refine (Nat.sub_le _ _).trans_lt ?_
  refine (Nat.div_le_self _ _).trans_lt ((Nat.div_le_self _ _).trans_lt ?_)
  exact (min_le_right _ _).trans_lt (by decide)

theorem due_lt (env : Env) (height : ℕ) (s : State) : due env height s < u128 := by
  unfold due
  split_ifs
  · exact Nat.two_pow_pos 128
  · exact (min_le_left _ _).trans_lt (computeEpochEmission_lt s height)

theorem due_le (env : Env) (height : ℕ) (s : State) : due env height s ≤ treasuryOf env s := by
  unfold due
  split_ifs
  · exact Nat.zero_le _
  · exact min_le_right _ _

/-- **A call with nothing due** moves nothing. -/
theorem pay_of_not_due (h : due env height s = 0) :
    (payEpochEmission env height s).accounts = s.accounts ∧
      treasuryOf env (payEpochEmission env height s) = treasuryOf env s := by
  unfold due treasuryOf at h
  unfold payEpochEmission
  dsimp only
  split_ifs at h ⊢
  · exact ⟨rfl, rfl⟩
  · exact ⟨rfl, rfl⟩
  · exact ⟨rfl, rfl⟩

/-- **A call with something due**. -/
theorem pay_of_due (h : due env height s ≠ 0) :
    (payEpochEmission env height s).accounts =
        (if sum64 ((activeValidators s.staking).map Prod.snd) = 0 then s.accounts
        else shareEmission env (due env height s) (sum64 ((activeValidators s.staking).map Prod.snd))
          (activeValidators s.staking) 0 s.accounts) ∧
      treasuryOf env (payEpochEmission env height s) + due env height s = treasuryOf env s := by
  have hepoch : ¬ height / emissionEpochBlocks ≤ s.lastEmissionEpoch := fun hle => h (if_pos hle)
  have hdue : due env height s = min (computeEpochEmission s height) (treasuryOf env s) := if_neg hepoch
  have hle := due_le env height s
  rw [hdue] at h hle ⊢
  have hemission : computeEpochEmission s height ≠ 0 := by omega
  unfold treasuryOf at h hle ⊢
  unfold payEpochEmission
  dsimp only
  rw [if_neg hepoch, if_neg hemission, if_neg h, payable_eq]
  refine ⟨rfl, ?_⟩
  dsimp only
  rw [getElem?_modify_ite, if_pos rfl, Option.map_map]
  cases hcell : s.cells.cells[treasurySystemCellId env]? with
  | none =>
    rw [hcell, Option.map_none, Option.getD_none, Nat.min_zero] at h
    exact absurd rfl h
  | some cell =>
    rw [hcell, Option.map_some, Option.getD_some] at hle
    rw [Option.map_some, Option.getD_some, Option.map_some, Option.getD_some, Function.comp_apply]
    exact Nat.sub_add_cancel hle

theorem paysExactly_of_not_due (h : due env height s = 0) : PaysExactly env height s := by
  obtain ⟨haccounts, htreasury⟩ := pay_of_not_due h
  refine ⟨0, Nat.zero_le _, ?_, ?_⟩
  · rw [htreasury, Nat.add_zero]
  · rw [haccounts, Nat.add_zero]

/-- **When a call pays exactly**, if the active stakes fit. -/
theorem paysExactly_of_fit (hfit : stakeSum s < u64) : PaysExactly env height s ↔ Payable env height s := by
  by_cases hdue : due env height s = 0
  · exact iff_of_true (paysExactly_of_not_due hdue) (.inl hdue)
  · unfold PaysExactly Payable
    obtain ⟨haccounts, htreasury⟩ := pay_of_due hdue
    have hpaid : ∀ paid, treasuryOf env (payEpochEmission env height s) + paid = treasuryOf env s ↔
        paid = due env height s := by
      intro paid
      omega
    have hsum : sum64 ((activeValidators s.staking).map Prod.snd) = stakeSum s := sum64_eq hfit
    rw [haccounts, hsum]
    simp only [hpaid, hdue, false_or]
    by_cases hnone : activeValidators s.staking = []
    · -- the treasury is debited, and there is nobody to pay
      have hzero : stakeSum s = 0 := by
        rw [stakeSum, hnone]
        rfl
      refine iff_of_false ?_ fun h => h.1 hnone
      rintro ⟨paid, -, hpay, hcredit⟩
      rw [if_pos hzero] at hcredit
      omega
    · obtain ⟨e, he⟩ := List.exists_mem_of_ne_nil _ hnone
      have hpos : 0 < stakeSum s := (stake_pos he).trans_le (List.le_sum_of_mem (List.mem_map_of_mem he))
      have hfloors : ((activeValidators s.staking).map fun e => satMul (due env height s) e.2 / stakeSum s).sum ≤
          due env height s := by
        refine Lib.ProRata.sum_le hpos (fun e _ => ?_) (le_refl (stakeSum s))
        exact (Nat.div_mul_le_self _ _).trans (min_le_left _ _)
      have hcredits :=
        @balanceSum_shareEmission env _ (stakeSum s) (due_lt env height s) (activeValidators s.staking) 0
        s.accounts
      rw [Nat.sub_zero, sum_emissionShares hnone hfloors] at hcredits
      rw [if_neg hpos.ne']
      constructor
      · rintro ⟨paid, -, rfl, hcredit⟩
        exact ⟨hnone, hfit, hcredits.2.mp hcredit⟩
      · rintro ⟨-, -, hroom⟩
        exact ⟨_, due_le env height s, rfl, hcredits.2.mpr hroom⟩

/-- **When a call pays exactly**: when it is payable, and otherwise not, unless the sum of the stakes
wraps. -/
theorem paysExactly_iff : (Payable env height s → PaysExactly env height s) ∧
    (stakeSum s < u64 → PaysExactly env height s → Payable env height s) := by
  refine ⟨fun h => ?_, fun hfit => (paysExactly_of_fit hfit).mp⟩
  rcases h with hdue | ⟨hne, hfit, hroom⟩
  · exact paysExactly_of_not_due hdue
  · exact (paysExactly_of_fit hfit).mpr (.inr ⟨hne, hfit, hroom⟩)

theorem lastEmissionEpoch_pay : (payEpochEmission env height s).lastEmissionEpoch =
    max s.lastEmissionEpoch (height / emissionEpochBlocks) := by
  unfold payEpochEmission
  dsimp only
  split_ifs with hepoch
  · exact (max_eq_left hepoch).symm
  all_goals exact (max_eq_right (not_le.mp hepoch).le).symm

end Payment

/-! ## Calls in a row -/

/-- A call, with the state that it finds, comes after another: the last epoch has not gone back in between. -/
def Follows (env : Env) (c c' : State × ℕ) : Prop :=
  (payEpochEmission env c.2 c.1).lastEmissionEpoch ≤ c'.1.lastEmissionEpoch

/-- Calls in a row, whatever happens between them. -/
def InRow (env : Env) (calls : List (State × ℕ)) : Prop := calls.IsChain (Follows env)

theorem Follows.trans {env : Env} {a b c : State × ℕ} (hab : Follows env a b) (hbc : Follows env b c) :
    Follows env a c := by
  unfold Follows at hab hbc ⊢
  have hkept : b.1.lastEmissionEpoch ≤ (payEpochEmission env b.2 b.1).lastEmissionEpoch := by
    rw [lastEmissionEpoch_pay]
    exact le_max_left _ _
  exact (hab.trans hkept).trans hbc

/-- **One payment an epoch**: a later call with the same epoch does nothing. -/
theorem pays_once {env : Env} {calls : List (State × ℕ)} (h : InRow env calls) : calls.Pairwise fun c c' =>
    c.2 / emissionEpochBlocks = c'.2 / emissionEpochBlocks → payEpochEmission env c'.2 c'.1 = c'.1 := by
  have htrans : Trans (Follows env) (Follows env) (Follows env) := ⟨Follows.trans⟩
  have hpairs : calls.Pairwise (Follows env) := List.isChain_iff_pairwise.mp h
  refine hpairs.imp fun {c c'} hlast hepoch => ?_
  have hreached : c.2 / emissionEpochBlocks ≤ c'.1.lastEmissionEpoch := by
    rw [Follows, lastEmissionEpoch_pay] at hlast
    exact (le_max_right _ _).trans hlast
  rw [hepoch] at hreached
  unfold payEpochEmission
  exact if_pos hreached

/-- **The payments of the emission**: at most one in an epoch, and what a call takes from the treasury is what
it gives to the accounts when it is payable. -/
theorem emission_payments (env : Env) :
    (∀ calls, InRow env calls → calls.Pairwise fun c c' =>
      c.2 / emissionEpochBlocks = c'.2 / emissionEpochBlocks → payEpochEmission env c'.2 c'.1 = c'.1) ∧
    ∀ height s, (Payable env height s → PaysExactly env height s) ∧
      (stakeSum s < u64 → PaysExactly env height s → Payable env height s) :=
  ⟨fun _ => pays_once, fun _ _ => paysExactly_iff⟩

def treasuryState (staking : StakingState) : State :=
  { sampleState with
    cells := ⟨fromList [(treasuryCell,
      { newCell rewardEnv sampleWorld.globals treasuryCell 0 [] [] [] [] [] 0 0 with balance := 1000 })], ∅, ∅⟩
    staking := staking }

/-- With two validators all that is taken arrives, and a second call in the epoch does nothing. -/
theorem emission_payments_sample :
    PaysExactly rewardEnv 432000 (treasuryState twoValidators) ∧
      payEpochEmission rewardEnv 432000 (payEpochEmission rewardEnv 432000 (treasuryState twoValidators)) =
        payEpochEmission rewardEnv 432000 (treasuryState twoValidators) := by
  have hdue : due rewardEnv 432000 (treasuryState twoValidators) = 1000 := by decide +kernel
  have hshares : emissionShares rewardEnv 1000 (stakeSum (treasuryState twoValidators))
      (activeValidators twoValidators) 1000 = [(firstAccount, 750), (secondAccount, 250)] := by decide +kernel
  have hpayable : Payable rewardEnv 432000 (treasuryState twoValidators) := by
    refine .inr ⟨by decide +kernel, by decide +kernel, ?_⟩
    rw [hdue]
    show Room _ (emissionShares rewardEnv 1000 (stakeSum (treasuryState twoValidators))
        (activeValidators twoValidators) 1000)
    rw [hshares]
    exact room_of_sum (by decide +kernel)
  refine ⟨((emission_payments rewardEnv).2 432000 _).1 hpayable, ?_⟩
  have hrow : InRow rewardEnv [(treasuryState twoValidators, 432000),
      (payEpochEmission rewardEnv 432000 (treasuryState twoValidators), 432000)] :=
    List.isChain_pair.mpr le_rfl
  have hpair := (emission_payments rewardEnv).1 _ hrow
  exact (List.pairwise_cons.mp hpair).1 _ (List.mem_singleton_self _) rfl

/-- Without validators the treasury pays 1000 to nobody. -/
theorem emission_lost : ¬ ∀ env height s, PaysExactly env height s := by
  intro h
  obtain ⟨paid, -, htaken, hgiven⟩ := h rewardEnv 432000 (treasuryState ⟨∅, 0, none⟩)
  have hafter : treasuryOf rewardEnv (payEpochEmission rewardEnv 432000 (treasuryState ⟨∅, 0, none⟩)) = 0 ∧
      treasuryOf rewardEnv (treasuryState ⟨∅, 0, none⟩) = 1000 ∧
      balanceSum (payEpochEmission rewardEnv 432000 (treasuryState ⟨∅, 0, none⟩)).accounts =
        balanceSum (treasuryState ⟨∅, 0, none⟩).accounts := by decide +kernel
  omega

end TruthLinked.Ledger.Emission
