import TruthLinked.Staking.State
import TruthLinked.Lib.Phase

/-! # When the staking operations go through

For each operation of `StakingState` the exact condition under which it succeeds and what it then does. -/

namespace TruthLinked.Staking.Specs

open Core.Types Staking.State Lib.Phase Lib.Wp

variable {st : StakingState} {pk : Bytes}

/-- The staking state with one record written. -/
def StakingState.put (pk : Bytes) (v : ValidatorStake) (st : StakingState) : StakingState :=
  { st with validators := st.validators.insert pk v }

theorem put_put (pk : Bytes) (v v' : ValidatorStake) (st : StakingState) :
    StakingState.put pk v' (StakingState.put pk v st) = StakingState.put pk v' st := by
  simp only [StakingState.put]
  congr 1
  refine Std.ExtTreeMap.ext_getElem? fun {a} => ?_
  simp only [Std.ExtTreeMap.getElem?_insert]
  split_ifs <;> rfl

/-- The record of a validator, a fresh one when it is missing. -/
def validatorAt (st : StakingState) (pk : Bytes) : ValidatorStake :=
  (st.validators[pk]?).getD (ValidatorStake.new 0)

theorem validatorAt_of_some {v : ValidatorStake}
    (h : st.validators[pk]? = some v) : validatorAt st pk = v := by
  rw [validatorAt, h]
  rfl

theorem outcome_getValidator {v : ValidatorStake}
    (h : st.validators[pk]? = some v) : outcome (getValidator pk) st = (.ok v, st) := by
  simp only [getValidator, outcome_bind, outcome_get, h, outcome_pure]

theorem outcome_getValidator_none (h : st.validators[pk]? = none) :
    outcome (getValidator pk) st = (.error "Validator not found", st) := by
  simp only [getValidator, outcome_bind, outcome_get, h, outcome_throw]

theorem outcome_setValidator (pk : Bytes) (v : ValidatorStake) (st : StakingState) :
    outcome (setValidator pk v) st = (.ok (), StakingState.put pk v st) := rfl

/-! ## Sums -/

theorem sum64_le (xs : List ℕ) : sum64 xs ≤ xs.sum := by
  have h : ∀ a, xs.foldl (fun a b => (a + b) % u64) a ≤ a + xs.sum := by
    induction xs with
    | nil => simp
    | cons x xs ih =>
      intro a
      rw [List.foldl_cons, List.sum_cons]
      have := ih ((a + x) % u64)
      have := Nat.mod_le (a + x) u64
      omega
  simpa [sum64] using h 0

theorem sum64_eq_mod (xs : List ℕ) : sum64 xs = xs.sum % u64 := by
  have hfold : ∀ a, xs.foldl (fun a b => (a + b) % u64) a % u64 = (a + xs.sum) % u64 := by
    induction xs with
    | nil => simp
    | cons x xs ih =>
      intro a
      rw [List.foldl_cons, ih, List.sum_cons, Nat.mod_add_mod, Nat.add_assoc]
  have hlt : sum64 xs < u64 := by
    unfold sum64
    rcases List.eq_nil_or_concat xs with rfl | ⟨ys, y, rfl⟩
    · decide
    · rw [List.concat_eq_append, List.foldl_concat]
      exact Nat.mod_lt _ (by decide)
  rw [← Nat.mod_eq_of_lt hlt, sum64, hfold 0, Nat.zero_add]

theorem sum64_eq {xs : List ℕ} (h : xs.sum < u64) : sum64 xs = xs.sum := by
  have hfold : ∀ a, a + xs.sum < u64 → xs.foldl (fun a b => (a + b) % u64) a = a + xs.sum := by
    clear h
    induction xs with
    | nil => simp
    | cons x xs ih =>
      intro a ha
      rw [List.sum_cons] at ha ⊢
      rw [List.foldl_cons, Nat.mod_eq_of_lt (by omega), ih _ (by omega)]
      omega
  simpa [sum64] using hfold 0 (by omega)

/-! ## `stake` -/

/-- The amount reaches the minimum and the new stake stays within the maximum. -/
def StakeFits (pk : Bytes) (amount : ℕ) (st : StakingState) : Prop :=
  minValidatorStake ≤ amount ∧ (validatorAt st pk).activeStake + amount ≤ maxValidatorStake

/-- What `stake` does. -/
def staked (pk : Bytes) (amount : ℕ) (st : StakingState) : StakingState :=
  StakingState.put pk { validatorAt st pk with activeStake := (validatorAt st pk).activeStake + amount } st

theorem spec_stake (pk : Bytes) (amount : ℕ) :
    Spec (stake pk amount) (StakeFits pk amount) (staked pk amount) := by
  have hmax : maxValidatorStake < u64 := by decide
  constructor
  · rintro st ⟨hmin, hle⟩
    have hmin' : ¬ amount < minValidatorStake := by omega
    have h64 : ¬ u64 ≤ (validatorAt st pk).activeStake + amount := by omega
    have hle' : ¬ maxValidatorStake < (validatorAt st pk).activeStake + amount := by omega
    simp only [validatorAt] at h64 hle'
    simp only [stake, outcome_bind, if_neg hmin', outcome_get, outcome_setValidator,
      if_neg h64, if_neg hle', put_put]
    rfl
  · intro st h
    by_cases hmin : amount < minValidatorStake
    · simp only [stake, outcome_bind, if_pos hmin, outcome_throw]
      exact ⟨_, _, rfl⟩
    have hle : maxValidatorStake < (validatorAt st pk).activeStake + amount := by
      by_contra hle
      exact h ⟨by omega, by omega⟩
    simp only [validatorAt] at hle
    by_cases h64 : u64 ≤ ((st.validators[pk]?).getD (ValidatorStake.new 0)).activeStake + amount
    · simp only [stake, outcome_bind, if_neg hmin, outcome_get, outcome_setValidator,
        if_pos h64, outcome_throw]
      exact ⟨_, _, rfl⟩
    · simp only [stake, outcome_bind, if_neg hmin, outcome_get, outcome_setValidator,
        if_neg h64, if_pos hle, outcome_throw]
      exact ⟨_, _, rfl⟩

/-! ## `unstake` -/

/-- The record after a full queue has dropped its mature entries. -/
def roomMade (height : ℕ) (v : ValidatorStake) : ValidatorStake :=
  if maxUnbondingEntries ≤ v.unbonding.length
    then { v with unbonding := immature height v.unbonding } else v

theorem roomMade_activeStake (height : ℕ) (v : ValidatorStake) :
    (roomMade height v).activeStake = v.activeStake := by
  rw [roomMade]
  split_ifs <;> rfl

/-- The validator exists, its queue has room, and what stays is nothing or at least the minimum. -/
def UnstakeFits (pk : Bytes) (amount : ℕ) (st : StakingState) : Prop :=
  pk ∈ st.validators ∧
  (roomMade st.currentHeight (validatorAt st pk)).unbonding.length < maxUnbondingEntries ∧
  amount ≤ (validatorAt st pk).activeStake ∧
  (amount = (validatorAt st pk).activeStake ∨
    minValidatorStake ≤ (validatorAt st pk).activeStake - amount)

/-- What `unstake` does. -/
def unstaked (pk : Bytes) (amount : ℕ) (st : StakingState) : StakingState :=
  let v := roomMade st.currentHeight (validatorAt st pk)
  StakingState.put pk
    { v with
      activeStake := v.activeStake - amount
      unbonding := v.unbonding ++ [⟨amount, (st.currentHeight + unbondingTicks) % u64⟩] } st

theorem spec_unstake (pk : Bytes) (amount : ℕ) :
    Spec (unstake pk amount) (UnstakeFits pk amount) (unstaked pk amount) := by
  constructor
  · rintro st ⟨hmem, hroom, hle, hrest⟩
    obtain ⟨v, hv⟩ := Option.isSome_iff_exists.mp (Std.ExtTreeMap.mem_iff_isSome_getElem?.mp hmem)
    rw [validatorAt_of_some hv] at hroom hle hrest
    have hroom' : ¬ maxUnbondingEntries ≤ (roomMade st.currentHeight v).unbonding.length := by omega
    have hle' : ¬ (roomMade st.currentHeight v).activeStake < amount := by
      rw [roomMade_activeStake]; omega
    have hrest' : ¬ (0 < (roomMade st.currentHeight v).activeStake - amount ∧
        (roomMade st.currentHeight v).activeStake - amount < minValidatorStake) := by
      rw [roomMade_activeStake]; omega
    simp only [roomMade] at hroom' hle' hrest'
    simp only [unstake, outcome_bind, outcome_getValidator hv, outcome_get, outcome_setValidator,
      if_neg hroom', if_neg hle', if_neg hrest', put_put, unstaked,
      validatorAt_of_some hv, roomMade]
  · intro st h
    cases hv : st.validators[pk]? with
    | none =>
      simp only [unstake, outcome_bind, outcome_getValidator_none hv]
      exact ⟨_, _, rfl⟩
    | some v =>
      have hmem : pk ∈ st.validators := by
        rw [Std.ExtTreeMap.mem_iff_isSome_getElem?, hv]
        rfl
      by_cases hroom : maxUnbondingEntries ≤ (roomMade st.currentHeight v).unbonding.length
      · simp only [roomMade] at hroom
        simp only [unstake, outcome_bind, outcome_getValidator hv, outcome_get, outcome_setValidator,
          if_pos hroom, outcome_throw]
        exact ⟨_, _, rfl⟩
      by_cases hle : (roomMade st.currentHeight v).activeStake < amount
      · simp only [roomMade] at hroom hle
        simp only [unstake, outcome_bind, outcome_getValidator hv, outcome_get, outcome_setValidator,
          if_neg hroom, if_pos hle, outcome_throw]
        exact ⟨_, _, rfl⟩
      have hrest : 0 < (roomMade st.currentHeight v).activeStake - amount ∧
          (roomMade st.currentHeight v).activeStake - amount < minValidatorStake := by
        by_contra hrest
        rw [roomMade_activeStake] at hle hrest
        refine h ⟨hmem, ?_, ?_, ?_⟩ <;> rw [validatorAt_of_some hv]
        · omega
        · omega
        · omega
      simp only [roomMade] at hroom hle hrest
      simp only [unstake, outcome_bind, outcome_getValidator hv, outcome_get, outcome_setValidator,
        if_neg hroom, if_neg hle, if_pos hrest, outcome_throw]
      exact ⟨_, _, rfl⟩

/-! ## `withdraw` -/

/-- What `withdraw` pays. -/
def payout (pk : Bytes) (st : StakingState) : ℕ := matured st.currentHeight (validatorAt st pk).unbonding

/-- The record once its mature entries are gone. -/
def drained (height : ℕ) (v : ValidatorStake) : ValidatorStake :=
  { v with unbonding := immature height v.unbonding }

/-- What `withdraw` does: an empty record that is not jailed is removed. -/
def withdrawn (pk : Bytes) (st : StakingState) : StakingState :=
  let v := drained st.currentHeight (validatorAt st pk)
  if v.activeStake = 0 ∧ v.unbonding = [] ∧ v.jailedUntil = none then
    { st with validators := st.validators.erase pk }
  else StakingState.put pk v st

/-- There is something to withdraw. -/
def WithdrawFits (pk : Bytes) (st : StakingState) : Prop := pk ∈ st.validators ∧ payout pk st ≠ 0

theorem erase_put (pk : Bytes) (v : ValidatorStake) (st : StakingState) :
    (StakingState.put pk v st).validators.erase pk = st.validators.erase pk := by
  refine Std.ExtTreeMap.ext_getElem? fun {a} => ?_
  simp only [StakingState.put, Std.ExtTreeMap.getElem?_erase, Std.ExtTreeMap.getElem?_insert]
  split_ifs <;> rfl

theorem outcome_withdraw (h : WithdrawFits pk st) :
    outcome (withdraw pk) st = (.ok (payout pk st), withdrawn pk st) := by
  obtain ⟨hmem, hpay⟩ := h
  obtain ⟨v, hv⟩ := Option.isSome_iff_exists.mp (Std.ExtTreeMap.mem_iff_isSome_getElem?.mp hmem)
  simp only [payout, withdrawn, validatorAt_of_some hv] at hpay ⊢
  by_cases hgone : (drained st.currentHeight v).activeStake = 0 ∧
      (drained st.currentHeight v).unbonding = [] ∧ (drained st.currentHeight v).jailedUntil = none
  · simp only [drained] at hgone
    simp only [withdraw, outcome_bind, outcome_getValidator hv, outcome_get, outcome_setValidator,
      if_neg hpay, drained, if_pos hgone, outcome_modify, outcome_pure, erase_put]
    exact Prod.ext rfl (if_pos hgone).symm
  · simp only [drained] at hgone
    simp only [withdraw, outcome_bind, outcome_getValidator hv, outcome_get, outcome_setValidator,
      if_neg hpay, drained, if_neg hgone, outcome_pure]
    exact Prod.ext rfl (if_neg hgone).symm

theorem outcome_withdraw_err (h : ¬ WithdrawFits pk st) :
    ∃ e st', outcome (withdraw pk) st = (.error e, st') := by
  cases hv : st.validators[pk]? with
  | none =>
    simp only [withdraw, outcome_bind, outcome_getValidator_none hv]
    exact ⟨_, _, rfl⟩
  | some v =>
    have hmem : pk ∈ st.validators := by
      rw [Std.ExtTreeMap.mem_iff_isSome_getElem?, hv]
      rfl
    have hpay : payout pk st = 0 := by
      by_contra hpay
      exact h ⟨hmem, hpay⟩
    rw [payout, validatorAt_of_some hv] at hpay
    simp only [withdraw, outcome_bind, outcome_getValidator hv, outcome_get, outcome_setValidator,
      if_pos hpay, outcome_throw]
    exact ⟨_, _, rfl⟩

/-! ## Slashes and unjailing -/

/-- A slash needs evidence for a double sign, a known validator, and a part of its stake. -/
def SlashFits (pk : Bytes) (reason : SlashReason) (outcome : SlashOutcome) (st : StakingState) : Prop :=
  reason ≠ .doubleSign ∧ pk ∈ st.validators ∧ outcome.amount ≠ 0 ∧
    outcome.amount ≤ (validatorAt st pk).activeStake

/-- What a slash does. -/
def slashed (pk : Bytes) (outcome : SlashOutcome) (st : StakingState) : StakingState :=
  let st' := StakingState.put pk
    { validatorAt st pk with
      activeStake := (validatorAt st pk).activeStake - outcome.amount
      jailedUntil := some ((st.currentHeight + jailDurationBlocks) % u64) } st
  { st' with validators := applyRedistribution outcome.redistribution st'.validators }

theorem spec_applySlashOutcome (pk : Bytes) (reason : SlashReason) (out : SlashOutcome) :
    Spec (applySlashOutcome pk reason out) (SlashFits pk reason out) (slashed pk out) := by
  constructor
  · rintro st ⟨hreason, hmem, hamount, hle⟩
    obtain ⟨v, hv⟩ := Option.isSome_iff_exists.mp (Std.ExtTreeMap.mem_iff_isSome_getElem?.mp hmem)
    rw [validatorAt_of_some hv] at hle
    have hle' : ¬ v.activeStake < out.amount := by omega
    simp only [applySlashOutcome, outcome_bind, if_neg hreason, outcome_getValidator hv, if_neg hamount,
      if_neg hle', outcome_get, outcome_setValidator, outcome_modify, slashed, validatorAt_of_some hv]
  · intro st h
    by_cases hreason : reason = .doubleSign
    · simp only [applySlashOutcome, outcome_bind, if_pos hreason, outcome_throw]
      exact ⟨_, _, rfl⟩
    cases hv : st.validators[pk]? with
    | none =>
      simp only [applySlashOutcome, outcome_bind, if_neg hreason, outcome_getValidator_none hv]
      exact ⟨_, _, rfl⟩
    | some v =>
      by_cases hamount : out.amount = 0
      · simp only [applySlashOutcome, outcome_bind, if_neg hreason, outcome_getValidator hv,
          if_pos hamount, outcome_throw]
        exact ⟨_, _, rfl⟩
      have hle : v.activeStake < out.amount := by
        by_contra hle
        refine h ⟨hreason, ?_, hamount, ?_⟩
        · rw [Std.ExtTreeMap.mem_iff_isSome_getElem?, hv]
          rfl
        · rw [validatorAt_of_some hv]
          omega
      simp only [applySlashOutcome, outcome_bind, if_neg hreason, outcome_getValidator hv,
        if_neg hamount, if_pos hle, outcome_throw]
      exact ⟨_, _, rfl⟩

/-- The validator is known, its jail time is over and its stake reaches the minimum. -/
def UnjailFits (pk : Bytes) (st : StakingState) : Prop :=
  pk ∈ st.validators ∧ (∀ h, (validatorAt st pk).jailedUntil = some h → h ≤ st.currentHeight) ∧
    minValidatorStake ≤ (validatorAt st pk).activeStake

/-- What `unjail` does. -/
def unjailed (pk : Bytes) (st : StakingState) : StakingState :=
  StakingState.put pk { validatorAt st pk with jailedUntil := none } st

theorem spec_unjail (pk : Bytes) : Spec (unjail pk) (UnjailFits pk) (unjailed pk) := by
  constructor
  · rintro st ⟨hmem, hjail, hmin⟩
    obtain ⟨v, hv⟩ := Option.isSome_iff_exists.mp (Std.ExtTreeMap.mem_iff_isSome_getElem?.mp hmem)
    rw [validatorAt_of_some hv] at hjail hmin
    have hmin' : ¬ v.activeStake < minValidatorStake := by omega
    cases hj : v.jailedUntil with
    | none =>
      simp only [unjail, outcome_bind, outcome_getValidator hv, hj, if_neg hmin',
        outcome_setValidator, unjailed, validatorAt_of_some hv]
    | some height =>
      have hh : ¬ st.currentHeight < height := by
        have := hjail height hj
        omega
      simp only [unjail, outcome_bind, outcome_getValidator hv, hj, outcome_get, if_neg hh,
        if_neg hmin', outcome_setValidator, unjailed, validatorAt_of_some hv]
  · intro st h
    cases hv : st.validators[pk]? with
    | none =>
      simp only [unjail, outcome_bind, outcome_getValidator_none hv]
      exact ⟨_, _, rfl⟩
    | some v =>
      have hmem : pk ∈ st.validators := by
        rw [Std.ExtTreeMap.mem_iff_isSome_getElem?, hv]
        rfl
      cases hj : v.jailedUntil with
      | none =>
        have hmin : v.activeStake < minValidatorStake := by
          by_contra hmin
          refine h ⟨hmem, ?_, ?_⟩ <;> rw [validatorAt_of_some hv]
          · simp [hj]
          · omega
        simp only [unjail, outcome_bind, outcome_getValidator hv, hj, if_pos hmin, outcome_throw]
        exact ⟨_, _, rfl⟩
      | some height =>
        by_cases hh : st.currentHeight < height
        · simp only [unjail, outcome_bind, outcome_getValidator hv, hj, outcome_get, if_pos hh,
            outcome_throw]
          exact ⟨_, _, rfl⟩
        have hmin : v.activeStake < minValidatorStake := by
          by_contra hmin
          refine h ⟨hmem, ?_, ?_⟩ <;> rw [validatorAt_of_some hv]
          · intro h' h''
            rw [hj] at h''
            cases h''
            omega
          · omega
        simp only [unjail, outcome_bind, outcome_getValidator hv, hj, outcome_get, if_neg hh,
          if_pos hmin, outcome_throw]
        exact ⟨_, _, rfl⟩

end TruthLinked.Staking.Specs
