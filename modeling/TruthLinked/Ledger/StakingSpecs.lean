import TruthLinked.Ledger.AccountSpecs
import TruthLinked.Staking.Specs

/-! # When the staking updates of a diff go through

A staking update works on the stakes; a withdrawal also pays an account. The updates of a diff go through
exactly when the operations do one after the other on the stakes, and the accounts take the payouts. -/

namespace TruthLinked.Ledger.StakingSpecs

open Core.Types Runtime.Types Staking.State Staking.Specs Ledger.Model Ledger.Phases Ledger.AccountSpecs
open Lib.Phase Lib.Keyed Lib.Wp

/-- The operation of a staking update goes through. -/
def OpFits : StakingUpdate → StakingState → Prop
  | .stake pk amount => StakeFits pk amount
  | .unstake pk amount => UnstakeFits pk amount
  | .withdraw pk => WithdrawFits pk
  | .slash pk reason amount redistribution => SlashFits pk reason ⟨amount, redistribution⟩
  | .unjail pk => UnjailFits pk

/-- What the operation of a staking update does to the stakes. -/
def opEffect : StakingUpdate → StakingState → StakingState
  | .stake pk amount => staked pk amount
  | .unstake pk amount => unstaked pk amount
  | .withdraw pk => withdrawn pk
  | .slash pk _ amount redistribution => slashed pk ⟨amount, redistribution⟩
  | .unjail pk => unjailed pk

/-- What a staking update pays, and to whom. -/
def pays (env : Env) : StakingUpdate → StakingState → List (AccountId × ℕ)
  | .withdraw pk, st => [(accountIdFromPubkey env pk, payout pk st)]
  | _, _ => []

/-- What a list of staking updates pays. -/
def payouts (env : Env) : List StakingUpdate → StakingState → List (AccountId × ℕ)
  | [], _ => []
  | u :: us, st => pays env u st ++ payouts env us (opEffect u st)

/-- A payout added to a balance. -/
def payStep (c : AccountId × ℕ) (m : Accounts) : Accounts :=
  m.modify c.1 fun r => { r with balance := r.balance + c.2 }

/-- The account exists and does not overflow. -/
def PayFits (c : AccountId × ℕ) (m : Accounts) : Prop :=
  (slot m c.1).isSome ∧ balanceOf m c.1 + c.2 < u128

theorem spec_payWithdrawal (a : AccountId) (n : ℕ) :
    Spec (payWithdrawal a n) (PayFits (a, n)) (payStep (a, n)) where
  ok m h := by
    obtain ⟨r, hr⟩ := Option.isSome_iff_exists.mp h.1
    have hr' : m[a]? = some r := hr
    have hlt : r.balance + n < u128 := by
      have hlt := h.2
      simp only [balanceOf, Pocket.held] at hlt
      rw [hr] at hlt
      exact hlt
    simp only [payWithdrawal, outcome_bind, outcome_get, hr', checkedAdd, if_pos hlt, outcome_modify]
    refine Prod.ext rfl (slot_ext fun b => ?_)
    rw [payStep, slot_insert, slot_modify]
    split_ifs with hb
    · subst hb
      rw [hr]
      rfl
    · rfl
  err m h := by
    cases hr : m[a]? with
    | none =>
      simp only [payWithdrawal, outcome_bind, outcome_get, hr]
      exact ⟨_, _, rfl⟩
    | some r =>
      have hlt : ¬ r.balance + n < u128 := by
        intro hlt
        refine h ⟨?_, ?_⟩
        · rw [slot, hr]
          rfl
        · simp only [balanceOf, slot, hr]
          exact hlt
      simp only [payWithdrawal, outcome_bind, outcome_get, hr, checkedAdd, if_neg hlt]
      exact ⟨_, _, rfl⟩

theorem local_pay :
    Local slot Prod.fst payStep
      (fun c o => Option.map (fun r => { r with balance := r.balance + c.2 }) o) where
  at_key c m := by rw [payStep, slot_modify, if_pos rfl]
  off_key c m a h := by rw [payStep, slot_modify, if_neg h]

theorem fits_pay (l : List (AccountId × ℕ)) (m : Accounts) :
    FitsAll PayFits payStep l m ↔
      ∀ c ∈ l, (slot m c.1).isSome ∧ balanceOf m c.1 + moved c.1 l < u128 := by
  refine local_pay.fits_add (O := fun o : Option AccountRecord => o.isSome = true)
    (w := Pocket.held balancePocket) (n := Prod.snd) u128 (fun c o h => ?_) (fun c o h => ?_) l m
  · obtain ⟨r, rfl⟩ := Option.isSome_iff_exists.mp h
    rfl
  · simpa using h

/-! ## One update -/

/-- When a staking update goes through. -/
def UpdateFits (env : Env) (u : StakingUpdate) (w : World) : Prop :=
  OpFits u w.state.staking ∧ FitsAll PayFits payStep (pays env u w.state.staking) w.state.accounts

/-- What a staking update does. -/
def updateEffect (env : Env) (u : StakingUpdate) (w : World) : World :=
  w.onState fun s =>
    { s with
      staking := opEffect u s.staking
      accounts := runAll payStep (pays env u s.staking) s.accounts }

theorem spec_onStaking {m : StakingM Unit} {F : StakingState → Prop} {E : StakingState → StakingState}
    (h : Spec m F E) :
    Spec (onStaking m) (fun w => F w.state.staking)
      (fun w => w.onState fun s => { s with staking := E s.staking }) :=
  h.zoom _ _

theorem outcome_onStaking_withdraw {pk : Bytes} {w : World} (h : WithdrawFits pk w.state.staking) :
    outcome (onStaking (withdraw pk)) w = (.ok (payout pk w.state.staking),
      w.onState fun s => { s with staking := withdrawn pk s.staking }) := by
  rw [onStaking, outcome_zoom, outcome_withdraw h]
  rfl

theorem spec_stakingUpdate (env : Env) (u : StakingUpdate) :
    Spec (stakingUpdate env u) (UpdateFits env u) (updateEffect env u) := by
  cases u with
  | stake pk amount =>
    exact (spec_onStaking (spec_stake pk amount)).congr (fun w => and_iff_left trivial) fun _ _ => rfl
  | unstake pk amount =>
    exact (spec_onStaking (spec_unstake pk amount)).congr (fun w => and_iff_left trivial) fun _ _ => rfl
  | slash pk reason amount redistribution =>
    exact (spec_onStaking (spec_applySlashOutcome pk reason _)).congr
      (fun w => and_iff_left trivial) fun _ _ => rfl
  | unjail pk =>
    exact (spec_onStaking (spec_unjail pk)).congr (fun w => and_iff_left trivial) fun _ _ => rfl
  | withdraw pk =>
    have hcode : stakingUpdate env (.withdraw pk) = onStaking (withdraw pk) >>= fun n =>
        onAccounts (payWithdrawal (accountIdFromPubkey env pk) n) := rfl
    rw [hcode]
    constructor
    · rintro w ⟨hop, hpay, -⟩
      rw [outcome_bind, outcome_onStaking_withdraw hop]
      exact (spec_onAccounts (spec_payWithdrawal _ _)).ok _ hpay
    · intro w h
      rw [outcome_bind]
      by_cases hop : WithdrawFits pk w.state.staking
      · rw [outcome_onStaking_withdraw hop]
        exact (spec_onAccounts (spec_payWithdrawal _ _)).err _ fun hpay => h ⟨hop, hpay, trivial⟩
      · obtain ⟨e, st, he⟩ := outcome_withdraw_err hop
        rw [onStaking, outcome_zoom, he]
        exact ⟨_, _, rfl⟩

/-! ## All updates -/

theorem runAll_updateEffect (env : Env) (us : List StakingUpdate) (w : World) :
    runAll (updateEffect env) us w = w.onState fun s =>
      { s with
        staking := runAll opEffect us s.staking
        accounts := runAll payStep (payouts env us s.staking) s.accounts } := by
  induction us generalizing w with
  | nil => rfl
  | cons u us ih =>
    rw [runAll_cons, ih]
    simp only [updateEffect, World.onState, payouts, runAll_append, runAll_cons]

theorem fitsAll_updateFits (env : Env) (us : List StakingUpdate) (w : World) :
    FitsAll (UpdateFits env) (updateEffect env) us w ↔
      FitsAll OpFits opEffect us w.state.staking ∧
      FitsAll PayFits payStep (payouts env us w.state.staking) w.state.accounts := by
  induction us generalizing w with
  | nil => exact ⟨fun _ => ⟨trivial, trivial⟩, fun _ => trivial⟩
  | cons u us ih =>
    simp only [FitsAll, ih, payouts, fitsAll_append, UpdateFits, updateEffect, World.onState_state]
    tauto

end TruthLinked.Ledger.StakingSpecs
