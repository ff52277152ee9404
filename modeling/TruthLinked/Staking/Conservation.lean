import TruthLinked.Staking.Slash

/-! # Conservation of stake

Stake that is neither active nor unbonding has been paid out, or was slashed with nobody to receive it. A
full queue is cleared by `unstake` without paying its mature entries, so stake is lost there; where no such
entry is cleared and all active stake together is below `2 ^ 64`, every run conserves it
(`conserved_of_careful`). -/

namespace TruthLinked.Staking.Conservation

open Core.Types Staking.State Staking.Specs Staking.Slash Lib.MapSum Lib.Run Lib.Wp

/-! ## The books -/

/-- What the entries of a queue add up to. -/
def queued (entries : List UnbondingEntry) : ℕ := (entries.map UnbondingEntry.amount).sum

/-- The active and unbonding stake of a validator. -/
def bondedOf (v : ValidatorStake) : ℕ := v.activeStake + queued v.unbonding

/-- The active and unbonding stake of all validators. -/
def bonded (st : StakingState) : ℕ := mapSum (fun _ v => bondedOf v) st.validators

/-- The active stake of all validators. -/
def active (st : StakingState) : ℕ := mapSum (fun _ v => v.activeStake) st.validators

/-- The staking state, and what was staked, returned and slashed with no eligible recipient. -/
structure Books where
  st : StakingState
  staked : ℕ
  returned : ℕ
  forfeited : ℕ

section Code
variable {Ev : Type} (check : Ev → Except String Unit) (percentage : SlashReason → ℕ)

/-- A slash, noted if nobody is eligible. -/
def bookSlash (reason : SlashReason) (evidence : Option Ev) (b : Books) (pk : Bytes) : Books :=
  match outcome (slashValidator check percentage pk reason evidence) b.st with
  | (.ok o, st) => { b with st, forfeited := b.forfeited + if eligible b.st pk = [] then o.amount else 0 }
  | (.error _, st) => { b with st }

/-- A call, noted. -/
def step (b : Books) : Action Ev → Books
  | .stake pk amount =>
    match outcome (stake pk amount) b.st with
    | (.ok _, st) => { b with st, staked := b.staked + amount }
    | (.error _, st) => { b with st }
  | .unstake pk amount => { b with st := (outcome (unstake pk amount) b.st).2 }
  | .withdraw pk =>
    match outcome (withdraw pk) b.st with
    | (.ok amount, st) => { b with st, returned := b.returned + amount }
    | (.error _, st) => { b with st }
  | .slash pk reason evidence => bookSlash check percentage reason evidence b pk
  | .slashSilent requestId committed revealed =>
    (silent committed revealed).foldl (bookSlash check percentage (.oracleSilence requestId) none) b
  | .unjail pk => { b with st := (outcome (unjail pk) b.st).2 }
  | .advanceHeight => { b with st := { b.st with currentHeight := (b.st.currentHeight + 1) % u64 } }

/-- **Stake is conserved**: what is bonded, returned and forfeited is what was there and what was staked. -/
def Conserved (total : ℕ) (b : Books) : Prop := bonded b.st + b.returned + b.forfeited = total + b.staked

/-- The shares of a slash neither overflow nor go to a validator in the treasury's name. -/
def Secured (st : StakingState) : Prop :=
  active st < u64 ∧ ∀ treasury, st.treasuryAccountId = some treasury → ofBytes32 treasury ∉ st.validators

/-- Nothing mature with an amount is in a queue that is full. -/
def ClearsNothing (st : StakingState) (pk : Bytes) : Prop :=
  ∀ v, st.validators[pk]? = some v → maxUnbondingEntries ≤ v.unbonding.length →
    ∀ e ∈ v.unbonding, e.completionTick ≤ st.currentHeight → e.amount = 0

/-- The mature entries of a queue add up to a `u64`. -/
def PaysBelow (st : StakingState) (pk : Bytes) : Prop :=
  ∀ v, st.validators[pk]? = some v →
    queued (v.unbonding.filter fun e => decide (e.completionTick ≤ st.currentHeight)) < u64

/-- **A careful call** clears no mature entry of a full queue unpaid, pays out less than `2 ^ 64` and slashes
only where the shares fit. -/
def Careful (b : Books) : Action Ev → Prop
  | .unstake pk _ => ClearsNothing b.st pk
  | .withdraw pk => PaysBelow b.st pk
  | .slash .. | .slashSilent .. => Secured b.st
  | _ => True

end Code

/-! ## Queues -/

theorem queued_filter_add (p : UnbondingEntry → Bool) (entries : List UnbondingEntry) :
    queued (entries.filter p) + queued (entries.filter fun e => !p e) = queued entries := by
  unfold queued
  rw [← List.sum_append, ← List.map_append]
  exact ((List.filter_append_perm p entries).map _).sum_eq

theorem queued_mature_add_immature (height : ℕ) (entries : List UnbondingEntry) :
    queued (entries.filter fun e => decide (e.completionTick ≤ height)) + queued (immature height entries) =
      queued entries := by
  rw [← queued_filter_add (fun e => decide (e.completionTick ≤ height)) entries, immature]
  congr 2
  refine List.filter_congr fun e _ => ?_
  simp only [← decide_not, not_le]

theorem queued_eq_zero {entries : List UnbondingEntry} (h : ∀ e ∈ entries, e.amount = 0) :
    queued entries = 0 := by
  unfold queued
  rw [List.sum_eq_zero_iff]
  intro n hn
  obtain ⟨e, he, rfl⟩ := List.mem_map.mp hn
  exact h e he

/-! ## One record -/

section Record
variable {st : StakingState} {pk : Bytes}

theorem valueAt_validatorAt (f : ValidatorStake → ℕ) (hzero : f (ValidatorStake.new 0) = 0) :
    valueAt (fun _ v => f v) st.validators pk = f (validatorAt st pk) := by
  unfold valueAt validatorAt
  cases st.validators[pk]? with
  | none => exact hzero.symm
  | some v => rfl

theorem bonded_put (v : ValidatorStake) :
    bonded (StakingState.put pk v st) + bondedOf (validatorAt st pk) = bonded st + bondedOf v := by
  rw [← valueAt_validatorAt bondedOf rfl]
  exact mapSum_insert st.validators pk v

theorem active_put (v : ValidatorStake) :
    active (StakingState.put pk v st) + (validatorAt st pk).activeStake = active st + v.activeStake := by
  rw [← valueAt_validatorAt ValidatorStake.activeStake rfl]
  exact mapSum_insert st.validators pk v

theorem bonded_put_eq {v : ValidatorStake} (h : bondedOf v = bondedOf (validatorAt st pk)) :
    bonded (StakingState.put pk v st) = bonded st := by
  have := @bonded_put st pk v
  omega

theorem bondedOf_roomMade {height : ℕ} {v : ValidatorStake}
    (h : maxUnbondingEntries ≤ v.unbonding.length → ∀ e ∈ v.unbonding, e.completionTick ≤ height → e.amount = 0) :
    bondedOf (roomMade height v) = bondedOf v := by
  unfold roomMade
  split_ifs with hfull
  · have hmature : queued (v.unbonding.filter fun e => decide (e.completionTick ≤ height)) = 0 := by
      refine queued_eq_zero fun e he => ?_
      obtain ⟨hmem, htick⟩ := List.mem_filter.mp he
      exact h hfull e hmem (of_decide_eq_true htick)
    have hsplit := queued_mature_add_immature height v.unbonding
    show v.activeStake + queued (immature height v.unbonding) = v.activeStake + queued v.unbonding
    omega
  · rfl

end Record

/-! ## Slashes -/

section Redistribution
variable {f : ValidatorStake → ℕ} (hf : ∀ v n, f { v with activeStake := v.activeStake + n } = f v + n)
include hf

theorem mapSum_share {m : Map Bytes ValidatorStake} {pk : Bytes} {share : ℕ} (hmem : pk ∈ m)
    (hfit : mapSum (fun _ v => v.activeStake) m + share < u64) :
    mapSum (fun _ v => f v) (m.modify pk fun v => { v with activeStake := satAdd64 v.activeStake share }) =
      mapSum (fun _ v => f v) m + share := by
  obtain ⟨v, hv⟩ := Option.isSome_iff_exists.mp (Std.ExtTreeMap.mem_iff_isSome_getElem?.mp hmem)
  have hle : v.activeStake ≤ mapSum (fun _ v => v.activeStake) m := by
    rw [← valueAt_of_some (f := fun _ (v : ValidatorStake) => v.activeStake) hv]
    exact valueAt_le m pk
  have hsum := mapSum_modify (f := fun _ v => f v) hv fun v =>
    { v with activeStake := satAdd64 v.activeStake share }
  rw [satAdd64_eq (by omega), hf] at hsum
  omega

/-- **The shares** of known validators. -/
theorem mapSum_redistribution {shares : List (Bytes × ℕ)} {m : Map Bytes ValidatorStake}
    (hmem : ∀ e ∈ shares, e.1 ∈ m)
    (hfit : mapSum (fun _ v => v.activeStake) m + (shares.map Prod.snd).sum < u64) :
    mapSum (fun _ v => f v) (applyRedistribution shares m) =
      mapSum (fun _ v => f v) m + (shares.map Prod.snd).sum := by
  induction shares generalizing m with
  | nil => rfl
  | cons e shares ih =>
    obtain ⟨pk, share⟩ := e
    have hpk : pk ∈ m := hmem _ List.mem_cons_self
    have hrest : ∀ e ∈ shares, e.1 ∈ m := fun e he => hmem e (List.mem_cons_of_mem _ he)
    simp only [List.map_cons, List.sum_cons] at hfit ⊢
    rw [applyRedistribution, List.foldl_cons, ← applyRedistribution]
    dsimp only
    split_ifs with hzero
    · rw [ih hrest (by omega)]
      omega
    · have hactive := mapSum_share (f := ValidatorStake.activeStake) (fun _ _ => rfl) hpk
        (show mapSum (fun _ v => v.activeStake) m + share < u64 by omega)
      have hkeys : ∀ e ∈ shares, e.1 ∈ m.modify pk fun v =>
          { v with activeStake := satAdd64 v.activeStake share } := fun e he =>
        Std.ExtTreeMap.mem_modify.mpr (hrest e he)
      rw [ih hkeys (by omega), mapSum_share hf hpk (by omega)]
      omega

end Redistribution

theorem mem_applyRedistribution (shares : List (Bytes × ℕ)) (m : Map Bytes ValidatorStake) (k : Bytes) :
    k ∈ applyRedistribution shares m ↔ k ∈ m := by
  induction shares generalizing m with
  | nil => rfl
  | cons e shares ih =>
    rw [applyRedistribution, List.foldl_cons, ← applyRedistribution, ih]
    dsimp only
    split_ifs
    · rfl
    · exact Std.ExtTreeMap.mem_modify

theorem applyRedistribution_unknown {pk : Bytes} {m : Map Bytes ValidatorStake} (h : pk ∉ m) (share : ℕ) :
    applyRedistribution [(pk, share)] m = m := by
  rw [applyRedistribution, List.foldl_cons, List.foldl_nil]
  dsimp only
  split_ifs
  · rfl
  · refine Std.ExtTreeMap.ext_getElem? fun {k} => ?_
    rw [getElem?_modify_ite]
    by_cases hk : k = pk
    · rw [if_pos hk, hk, Std.ExtTreeMap.getElem?_eq_none h, Option.map_none]
    · rw [if_neg hk]

section Slashed
variable {st : StakingState} {pk : Bytes} {p : ℕ} {o : SlashOutcome}

/-- The record of a slashed validator. -/
def penalised (height : ℕ) (o : SlashOutcome) (v : ValidatorStake) : ValidatorStake :=
  { v with
    activeStake := v.activeStake - o.amount
    jailedUntil := some ((height + jailDurationBlocks) % u64) }

theorem bondedOf_penalised (height : ℕ) {v : ValidatorStake} (h : o.amount ≤ v.activeStake) :
    bondedOf (penalised height o v) + o.amount = bondedOf v := by
  simp only [bondedOf, penalised]
  omega

/-- The state between the two writes of a slash. -/
def debited (pk : Bytes) (o : SlashOutcome) (st : StakingState) : StakingState :=
  StakingState.put pk (penalised st.currentHeight o (validatorAt st pk)) st

theorem slashed_eq : slashed pk o st =
    { debited pk o st with validators := applyRedistribution o.redistribution (debited pk o st).validators
      } := rfl

theorem mem_debited (h : pk ∈ st.validators) (k : Bytes) :
    k ∈ (debited pk o st).validators ↔ k ∈ st.validators := by
  unfold debited StakingState.put
  rw [Std.ExtTreeMap.mem_insert, Std.LawfulEqOrd.compare_eq_iff_eq]
  exact ⟨fun hk => hk.elim (fun hk => hk ▸ h) id, .inr⟩

theorem bonded_debited (h : o.amount ≤ (validatorAt st pk).activeStake) :
    bonded (debited pk o st) + o.amount = bonded st := by
  have hput := @bonded_put st pk (penalised st.currentHeight o (validatorAt st pk))
  have hrecord := bondedOf_penalised st.currentHeight h
  rw [debited]
  omega

theorem active_debited (h : o.amount ≤ (validatorAt st pk).activeStake) :
    active (debited pk o st) + o.amount = active st := by
  have hput := @active_put st pk (penalised st.currentHeight o (validatorAt st pk))
  have hrecord : (penalised st.currentHeight o (validatorAt st pk)).activeStake =
      (validatorAt st pk).activeStake - o.amount := rfl
  rw [debited]
  omega

theorem eligible_mem {e : Bytes × ℕ} (h : e ∈ eligible st pk) : e.1 ∈ st.validators := by
  obtain ⟨⟨key, v⟩, hmem, rfl⟩ := List.mem_map.mp h
  have hlook := Std.ExtTreeMap.mem_toList_iff_getElem?_eq_some.mp (List.mem_filter.mp hmem).1
  rw [Std.ExtTreeMap.mem_iff_isSome_getElem?, hlook]
  rfl

theorem sum_eligible_add_le :
    ((eligible st pk).map Prod.snd).sum + (validatorAt st pk).activeStake ≤ active st := by
  rw [← valueAt_validatorAt ValidatorStake.activeStake rfl, eligible, List.map_map]
  refine sum_filter_add_le (f := fun _ (v : ValidatorStake) => v.activeStake) (fun e he => ?_) st.validators
  exact (of_decide_eq_true he).1

/-- **A slash** takes its amount from all stake if nobody is eligible, and nothing otherwise. -/
theorem bonded_slashed (hsecured : Secured st) (h : computeSlashOutcome st pk p = .ok o) :
    bonded (slashed pk o st) + (if eligible st pk = [] then o.amount else 0) = bonded st ∧
      Secured (slashed pk o st) := by
  obtain ⟨v, hv, hamount, hle, hred⟩ := computeSlashOutcome_eq_ok h
  have hmem : pk ∈ st.validators := by
    rw [Std.ExtTreeMap.mem_iff_isSome_getElem?, hv]
    rfl
  rw [← validatorAt_of_some hv] at hle
  obtain ⟨hfit, htreasury⟩ := hsecured
  have hbonded := bonded_debited hle
  have hactive := active_debited hle
  have hkeys : ∀ treasury, st.treasuryAccountId = some treasury →
      ofBytes32 treasury ∉ (slashed pk o st).validators := by
    intro treasury ht
    rw [slashed_eq, mem_applyRedistribution, mem_debited hmem]
    exact htreasury treasury ht
  by_cases hnone : eligible st pk = []
  · -- nobody is eligible: the shares, if any, go to a key that is no validator's
    have hsame : slashed pk o st = debited pk o st := by
      rw [slashed_eq, hred, computeRedistribution]
      simp only [hnone, if_true]
      cases ht : st.treasuryAccountId with
      | none => rfl
      | some treasury =>
        rw [applyRedistribution_unknown]
        rw [mem_debited hmem]
        exact htreasury treasury ht
    rw [if_pos hnone]
    refine ⟨by rw [hsame]; exact hbonded, ?_, hkeys⟩
    rw [hsame]
    omega
  · have hsum := @sum_eligible_add_le st pk
    obtain ⟨hshares, hfst⟩ := @sum_redistribution st pk o.amount hnone (by omega) (by omega)
    rw [← hred] at hshares hfst
    have hknown : ∀ e ∈ o.redistribution, e.1 ∈ (debited pk o st).validators := by
      intro e he
      rw [mem_debited hmem]
      have hin : e.1 ∈ (eligible st pk).map Prod.fst := by
        rw [← hfst]
        exact List.mem_map_of_mem he
      obtain ⟨e', he', heq⟩ := List.mem_map.mp hin
      rw [← heq]
      exact eligible_mem he'
    have hroom : active (debited pk o st) + (o.redistribution.map Prod.snd).sum < u64 := by omega
    have h1 := mapSum_redistribution (f := bondedOf)
      (fun v n => by simp only [bondedOf]; omega) hknown hroom
    have h2 := mapSum_redistribution (f := ValidatorStake.activeStake) (fun _ _ => rfl) hknown hroom
    rw [hshares] at h1 h2
    have hb : bonded (slashed pk o st) = bonded (debited pk o st) + o.amount := h1
    have ha : active (slashed pk o st) = active (debited pk o st) + o.amount := h2
    rw [if_neg hnone]
    refine ⟨by omega, ?_, hkeys⟩
    omega

end Slashed

/-! ## One call -/

section Calls
variable {st st' : StakingState} {pk : Bytes} {amount : ℕ}

theorem bonded_stake_ok (h : outcome (stake pk amount) st = (.ok (), st')) :
    bonded st' = bonded st + amount := by
  obtain ⟨-, rfl⟩ := (spec_stake pk amount).of_ok h
  have hput := @bonded_put st pk
    { validatorAt st pk with activeStake := (validatorAt st pk).activeStake + amount }
  have hrecord : bondedOf { validatorAt st pk with activeStake := (validatorAt st pk).activeStake + amount } =
      bondedOf (validatorAt st pk) + amount := by
    simp only [bondedOf]
    omega
  rw [hrecord] at hput
  rw [staked]
  omega

theorem bonded_stake_error {e : String} (h : outcome (stake pk amount) st = (.error e, st')) :
    bonded st' = bonded st := by
  rcases stake_error h with rfl | ⟨-, rfl⟩
  · rfl
  · exact bonded_put_eq rfl

theorem ClearsNothing.bondedOf_roomMade (h : ClearsNothing st pk) :
    bondedOf (roomMade st.currentHeight (validatorAt st pk)) = bondedOf (validatorAt st pk) := by
  refine Conservation.bondedOf_roomMade ?_
  cases hv : st.validators[pk]? with
  | none =>
    intro hfull
    rw [validatorAt, hv] at hfull
    exact absurd hfull (by decide)
  | some v =>
    rw [validatorAt_of_some hv]
    exact h v hv

theorem bonded_unstake (h : ClearsNothing st pk) : bonded (outcome (unstake pk amount) st).2 = bonded st := by
  cases ho : outcome (unstake pk amount) st with
  | mk r st' =>
    cases r with
    | error e =>
      rcases unstake_error ho with rfl | ⟨-, rfl⟩
      · rfl
      · exact bonded_put_eq h.bondedOf_roomMade
    | ok u =>
      obtain ⟨⟨-, -, hle, -⟩, rfl⟩ := (spec_unstake pk amount).of_ok ho
      refine bonded_put_eq ?_
      rw [← h.bondedOf_roomMade]
      have hactive := roomMade_activeStake st.currentHeight (validatorAt st pk)
      simp only [bondedOf, queued, List.map_append, List.sum_append, List.map_cons, List.map_nil, List.sum_cons,
        List.sum_nil]
      omega

theorem payout_eq (h : PaysBelow st pk) :
    payout pk st =
      queued ((validatorAt st pk).unbonding.filter fun e => decide (e.completionTick ≤ st.currentHeight)) := by
  rw [payout, matured, queued]
  cases hv : st.validators[pk]? with
  | none =>
    rw [validatorAt, hv]
    rfl
  | some v =>
    rw [validatorAt_of_some hv]
    exact sum64_eq (h v hv)

theorem bondedOf_drained (v : ValidatorStake) (height : ℕ) :
    bondedOf (drained height v) + queued (v.unbonding.filter fun e => decide (e.completionTick ≤ height)) =
      bondedOf v := by
  have hsplit := queued_mature_add_immature height v.unbonding
  simp only [bondedOf, drained]
  omega

theorem bonded_withdraw_ok {n : ℕ} (hfits : PaysBelow st pk)
    (h : outcome (withdraw pk) st = (.ok n, st')) : bonded st' + n = bonded st := by
  have hpay := payout_eq hfits
  by_cases hw : WithdrawFits pk st
  · rw [outcome_withdraw hw] at h
    cases h
    have hdrained := bondedOf_drained (validatorAt st pk) st.currentHeight
    have hput := @bonded_put st pk (drained st.currentHeight (validatorAt st pk))
    have herase := mapSum_erase (f := fun _ v => bondedOf v) st.validators pk
    rw [valueAt_validatorAt bondedOf rfl] at herase
    rw [withdrawn]
    split_ifs with hgone
    · have hzero : bondedOf (drained st.currentHeight (validatorAt st pk)) = 0 := by
        rw [bondedOf, hgone.1, hgone.2.1]
        rfl
      have hb : bonded { st with validators := st.validators.erase pk } + bondedOf (validatorAt st pk) =
          bonded st := herase
      omega
    · omega
  · obtain ⟨e, st'', herr⟩ := outcome_withdraw_err hw
    rw [herr] at h
    cases h

theorem bonded_withdraw_error {e : String} (hfits : PaysBelow st pk)
    (h : outcome (withdraw pk) st = (.error e, st')) : bonded st' = bonded st := by
  rcases withdraw_error h with rfl | ⟨-, hzero, rfl⟩
  · rfl
  · refine bonded_put_eq ?_
    have hpay := payout_eq hfits
    have hdrained := bondedOf_drained (validatorAt st pk) st.currentHeight
    omega

theorem bonded_unjail : bonded (outcome (unjail pk) st).2 = bonded st := by
  cases ho : outcome (unjail pk) st with
  | mk r st' =>
    cases r with
    | error e => rw [unjail_error ho]
    | ok u =>
      obtain ⟨-, rfl⟩ := (spec_unjail pk).of_ok ho
      exact bonded_put_eq rfl

end Calls

section Runs
variable {Ev : Type} {check : Ev → Except String Unit} {percentage : SlashReason → ℕ} {total : ℕ} {b : Books}

theorem Conserved.bookSlash {reason : SlashReason} {evidence : Option Ev} {pk : Bytes} (h : Conserved total b)
    (hsecured : Secured b.st) :
    Conserved total (Conservation.bookSlash check percentage reason evidence b pk) ∧
      Secured (Conservation.bookSlash check percentage reason evidence b pk).st := by
  unfold Conservation.bookSlash
  cases ho : computeSlash check percentage b.st pk reason evidence with
  | error e =>
    rw [outcome_slashValidator_error ho]
    exact ⟨h, hsecured⟩
  | ok o =>
    obtain ⟨hbonded, hsecured'⟩ := bonded_slashed hsecured (computeSlash_eq_ok ho).2
    rw [outcome_slashValidator_ok ho]
    refine ⟨?_, hsecured'⟩
    unfold Conserved at h ⊢
    dsimp only
    omega

theorem Conserved.bookSlashes {reason : SlashReason} {evidence : Option Ev} (h : Conserved total b)
    (keys : List Bytes) (hsecured : Secured b.st) :
    Conserved total (keys.foldl (Conservation.bookSlash check percentage reason evidence) b) := by
  induction keys generalizing b with
  | nil => exact h
  | cons pk keys ih =>
    obtain ⟨h1, h2⟩ := h.bookSlash hsecured
    exact ih h1 h2

/-- **A careful call conserves stake.** -/
theorem Conserved.step (h : Conserved total b) {a : Action Ev} (ha : Careful b a) :
    Conserved total (Conservation.step check percentage b a) := by
  cases a with
  | stake pk amount =>
    rw [Conservation.step]
    cases ho : outcome (stake pk amount) b.st with
    | mk r st' =>
      cases r with
      | error e =>
        have hsame := bonded_stake_error ho
        unfold Conserved at h ⊢
        dsimp only
        omega
      | ok u =>
        have hmore := bonded_stake_ok ho
        unfold Conserved at h ⊢
        dsimp only
        omega
  | unstake pk amount =>
    have hsame := @bonded_unstake b.st pk amount ha
    unfold Conserved at h ⊢
    rw [Conservation.step]
    dsimp only
    omega
  | withdraw pk =>
    rw [Conservation.step]
    cases ho : outcome (withdraw pk) b.st with
    | mk r st' =>
      cases r with
      | error e =>
        have hsame := bonded_withdraw_error ha ho
        unfold Conserved at h ⊢
        dsimp only
        omega
      | ok n =>
        have hless := bonded_withdraw_ok ha ho
        unfold Conserved at h ⊢
        dsimp only
        omega
  | slash pk reason evidence => exact (h.bookSlash ha).1
  | slashSilent requestId committed revealed =>
    rw [Conservation.step]
    exact h.bookSlashes _ ha
  | unjail pk =>
    have hsame := @bonded_unjail b.st pk
    unfold Conserved at h ⊢
    rw [Conservation.step]
    dsimp only
    omega
  | advanceHeight => exact h

end Runs

/-- **Stake conservation.** In every run of careful calls, from any state, the stake that is bonded is what
was bonded at the start and what was staked since, less what was returned and what was slashed with no
eligible recipient. -/
theorem conserved_of_careful {Ev : Type} (check : Ev → Except String Unit) (percentage : SlashReason → ℕ)
    (st : StakingState) (actions : List (Action Ev))
    (h : Along (step check percentage) Careful ⟨st, 0, 0, 0⟩ actions) :
    Conserved (bonded st) (run (step check percentage) ⟨st, 0, 0, 0⟩ actions) :=
  h.invariant (fun _ _ hb ha => hb.step ha) rfl

/-! ### Sample runs -/

def sampleKey (n : UInt8) : Bytes := List.replicate 8 n

/-- Nobody has staked yet. -/
def noStake : StakingState := ⟨∅, 0, none⟩

/-- Two validators stake, one unstakes, the other is slashed for downtime. -/
def sampleCalls : List (Action Unit) :=
  [.stake (sampleKey 1) minValidatorStake, .stake (sampleKey 2) minValidatorStake,
    .unstake (sampleKey 1) minValidatorStake, .slash (sampleKey 2) .downtime none]

theorem conserved_sample :
    bonded noStake = 0 ∧
      Conserved 0 (run (step (fun _ : Unit => .ok ()) fun _ => 1) ⟨noStake, 0, 0, 0⟩ sampleCalls) := by
  refine ⟨by decide +kernel, conserved_of_careful _ _ noStake sampleCalls ⟨trivial, trivial, ?_, ?_, trivial⟩⟩
  · intro v hv hfull
    have hqueue : ((run (step (fun _ : Unit => .ok ()) fun _ => 1) ⟨noStake, 0, 0, 0⟩
        (sampleCalls.take 2)).st.validators[sampleKey 1]?).map ValidatorStake.unbonding = some [] := by
      decide +kernel
    have hempty : v.unbonding = [] := by
      have hv' := congrArg (Option.map ValidatorStake.unbonding) hv
      exact Option.some.inj (hv'.symm.trans hqueue)
    rw [hempty] at hfull
    exact absurd hfull (by decide)
  · have hnone : (run (step (fun _ : Unit => .ok ()) fun _ => 1) ⟨noStake, 0, 0, 0⟩
        (sampleCalls.take 3)).st.treasuryAccountId = none := by decide +kernel
    refine ⟨by decide +kernel, fun treasury ht => ?_⟩
    have ht' := hnone.symm.trans ht
    cases ht'

def fullQueue : StakingState :=
  ⟨(∅ : Map Bytes ValidatorStake).insert (sampleKey 1)
    ⟨2 * minValidatorStake, List.replicate maxUnbondingEntries ⟨1, 5⟩, none⟩, 5, none⟩

/-- It unstakes, and 100 tokens that waited for it are neither bonded nor returned. -/
theorem cleared_queue_unpaid :
    ¬ ∀ (check : Unit → Except String Unit) percentage st actions,
      Conserved (bonded st) (run (step check percentage) ⟨st, 0, 0, 0⟩ actions) := by
  intro h
  have hrun := h (fun _ => .ok ()) (fun _ => 1) fullQueue [.unstake (sampleKey 1) minValidatorStake]
  exact absurd hrun (by unfold Conserved; decide +kernel)

end TruthLinked.Staking.Conservation
