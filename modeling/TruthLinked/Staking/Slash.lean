import TruthLinked.Lib.Except
import TruthLinked.Lib.MapSum
import TruthLinked.Lib.ProRata
import TruthLinked.Lib.Run
import TruthLinked.Lib.SortKey
import TruthLinked.Staking.Specs

/-! # Slashes and runs of staking operations

`slash_validator` and `slash_silent_oracle_validators` of `truthlinked-staking/src/lib.rs`, and the calls of
`StakingState` as actions with their results. The check of evidence and the percentages of the reasons are
parameters. What `compute_redistribution` hands out adds up to what was taken (`sum_redistribution`), as long
as the stake of the recipients together is below `2 ^ 64`. -/

namespace TruthLinked.Staking.Slash

open Core.Types Staking.State Staking.Specs Lib.Except Lib.SortKey Lib.Wp

/-! ## The code -/

section Code
variable {Ev : Type} (check : Ev → Except String Unit) (percentage : SlashReason → ℕ)

/-- The evidence that a double sign needs. -/
def checkEvidence (reason : SlashReason) (evidence : Option Ev) : Except String Unit :=
  if reason = .doubleSign then do
    let ev ← okOr evidence "Double-sign requires evidence"
    check ev
  else pure ()

/-- `StakingState::compute_slash_outcome`. -/
def computeSlash (st : StakingState) (pk : Bytes) (reason : SlashReason) (evidence : Option Ev) :
    Except String SlashOutcome := do
  checkEvidence check reason evidence
  computeSlashOutcome st pk (percentage reason)

/-- `StakingState::apply_slash_outcome`. -/
def applySlash (pk : Bytes) (reason : SlashReason) (outcome : SlashOutcome) (evidence : Option Ev) :
    StakingM Unit := do
  ExceptT.mk (pure (checkEvidence check reason evidence))
  let v ← getValidator pk
  if outcome.amount = 0 then throw "No stake to slash"
  if v.activeStake < outcome.amount then throw "Slash amount exceeds active stake"
  setValidator pk
    { v with
      activeStake := v.activeStake - outcome.amount
      jailedUntil := some (((← get).currentHeight + jailDurationBlocks) % u64) }
  modify fun st => { st with validators := applyRedistribution outcome.redistribution st.validators }

/-- `StakingState::slash_validator`. -/
def slashValidator (pk : Bytes) (reason : SlashReason) (evidence : Option Ev) : StakingM SlashOutcome := do
  let outcome ← ExceptT.mk (pure (computeSlash check percentage (← get) pk reason evidence))
  applySlash check pk reason outcome evidence
  pure outcome

/-- Those that committed and did not reveal, sorted and without duplicates. -/
def silent (committed revealed : List Bytes) : List Bytes :=
  sortByKey id (committed.filter fun pk => pk ∉ revealed).dedup

/-- A call of the staking state. -/
inductive Action (Ev : Type) where
  | stake (pk : Bytes) (amount : ℕ)
  | unstake (pk : Bytes) (amount : ℕ)
  | withdraw (pk : Bytes)
  | slash (pk : Bytes) (reason : SlashReason) (evidence : Option Ev)
  | slashSilent (requestId : Bytes32) (committed revealed : List Bytes)
  | unjail (pk : Bytes)
  | advanceHeight

end Code

/-! ## What a slash does -/

section Slash
variable {Ev : Type} {check : Ev → Except String Unit} {percentage : SlashReason → ℕ} {st : StakingState}
  {pk : Bytes} {reason : SlashReason} {evidence : Option Ev} {o : SlashOutcome}

theorem computeSlashOutcome_eq_ok {p : ℕ} (h : computeSlashOutcome st pk p = .ok o) :
    ∃ v, st.validators[pk]? = some v ∧ o.amount ≠ 0 ∧ o.amount ≤ v.activeStake ∧
      o.redistribution = computeRedistribution st pk o.amount := by
  unfold computeSlashOutcome at h
  cases hv : st.validators[pk]? with
  | none => simp [hv] at h
  | some v =>
    simp only [hv] at h
    split_ifs at h with hzero hraw
    · cases h
      refine ⟨v, rfl, ?_, min_le_right _ _, rfl⟩
      show min 1 v.activeStake ≠ 0
      omega
    · cases h
      refine ⟨v, rfl, ?_, min_le_right _ _, rfl⟩
      show min (v.activeStake * p % u64 / 100) v.activeStake ≠ 0
      omega

theorem computeSlash_eq_ok (h : computeSlash check percentage st pk reason evidence = .ok o) :
    checkEvidence check reason evidence = .ok () ∧
      computeSlashOutcome st pk (percentage reason) = .ok o := by
  obtain ⟨⟨⟩, hcheck, hcompute⟩ := bind_eq_ok.mp h
  exact ⟨hcheck, hcompute⟩

theorem outcome_slashValidator_ok (h : computeSlash check percentage st pk reason evidence = .ok o) :
    outcome (slashValidator check percentage pk reason evidence) st = (.ok o, slashed pk o st) := by
  obtain ⟨hcheck, hcompute⟩ := computeSlash_eq_ok h
  obtain ⟨v, hv, hamount, hle, -⟩ := computeSlashOutcome_eq_ok hcompute
  have hle' : ¬ v.activeStake < o.amount := by omega
  have hlift : ∀ {α : Type} (x : Except String α),
      outcome (ExceptT.mk (pure x) : StakingM α) st = (x, st) := fun _ => rfl
  simp only [slashValidator, applySlash, outcome_bind, outcome_get, hlift, h, hcheck, outcome_getValidator hv,
    if_neg hamount, if_neg hle', outcome_setValidator, outcome_modify, outcome_pure, slashed,
    validatorAt_of_some hv]

theorem outcome_slashValidator_error {e : String}
    (h : computeSlash check percentage st pk reason evidence = .error e) :
    outcome (slashValidator check percentage pk reason evidence) st = (.error e, st) := by
  have hlift : ∀ {α : Type} (x : Except String α),
      outcome (ExceptT.mk (pure x) : StakingM α) st = (x, st) := fun _ => rfl
  simp only [slashValidator, outcome_bind, outcome_get, hlift, h]

end Slash

/-! ## What a call that fails leaves

`stake`, `unstake` and `withdraw` write before their last check. -/

section Failing
variable {st st' : StakingState} {pk : Bytes} {amount : ℕ} {e : String}

theorem stake_error (h : outcome (stake pk amount) st = (.error e, st')) :
    st' = st ∨ (maxValidatorStake < (validatorAt st pk).activeStake + amount ∧
      st' = StakingState.put pk (validatorAt st pk) st) := by
  have hu64 : maxValidatorStake < u64 := by decide
  by_cases hmin : amount < minValidatorStake
  · simp only [stake, outcome_bind, if_pos hmin, outcome_throw] at h
    cases h
    exact .inl rfl
  by_cases h64 : u64 ≤ ((st.validators[pk]?).getD (ValidatorStake.new 0)).activeStake + amount
  · simp only [stake, outcome_bind, if_neg hmin, outcome_get, outcome_setValidator, if_pos h64,
      outcome_throw] at h
    cases h
    refine .inr ⟨?_, rfl⟩
    simp only [validatorAt]
    omega
  by_cases hmax : maxValidatorStake < ((st.validators[pk]?).getD (ValidatorStake.new 0)).activeStake + amount
  · simp only [stake, outcome_bind, if_neg hmin, outcome_get, outcome_setValidator, if_neg h64, if_pos hmax,
      outcome_throw] at h
    cases h
    exact .inr ⟨hmax, rfl⟩
  · simp only [stake, outcome_bind, if_neg hmin, outcome_get, outcome_setValidator, if_neg h64,
      if_neg hmax] at h
    cases h

theorem unstake_error (h : outcome (unstake pk amount) st = (.error e, st')) :
    st' = st ∨ (pk ∈ st.validators ∧
      st' = StakingState.put pk (roomMade st.currentHeight (validatorAt st pk)) st) := by
  cases hv : st.validators[pk]? with
  | none =>
    simp only [unstake, outcome_bind, outcome_getValidator_none hv] at h
    cases h
    exact .inl rfl
  | some v =>
    have hmem : pk ∈ st.validators := by
      rw [Std.ExtTreeMap.mem_iff_isSome_getElem?, hv]
      rfl
    refine .inr ⟨hmem, ?_⟩
    rw [validatorAt_of_some hv]
    simp only [unstake, outcome_bind, outcome_getValidator hv, outcome_get, outcome_setValidator] at h
    rw [← roomMade] at h
    split at h
    · cases h
      rfl
    split at h
    · cases h
      rfl
    split at h
    · cases h
      rfl
    · cases h

theorem withdraw_error (h : outcome (withdraw pk) st = (.error e, st')) :
    st' = st ∨ (pk ∈ st.validators ∧ payout pk st = 0 ∧
      st' = StakingState.put pk (drained st.currentHeight (validatorAt st pk)) st) := by
  cases hv : st.validators[pk]? with
  | none =>
    simp only [withdraw, outcome_bind, outcome_getValidator_none hv] at h
    cases h
    exact .inl rfl
  | some v =>
    have hmem : pk ∈ st.validators := by
      rw [Std.ExtTreeMap.mem_iff_isSome_getElem?, hv]
      rfl
    by_cases hpay : payout pk st = 0
    · refine .inr ⟨hmem, hpay, ?_⟩
      rw [payout, validatorAt_of_some hv] at hpay
      simp only [withdraw, outcome_bind, outcome_getValidator hv, outcome_get, outcome_setValidator,
        if_pos hpay, outcome_throw] at h
      cases h
      rw [validatorAt_of_some hv]
      rfl
    · rw [outcome_withdraw ⟨hmem, hpay⟩] at h
      cases h

theorem unjail_error (h : outcome (unjail pk) st = (.error e, st')) : st' = st := by
  cases hv : st.validators[pk]? with
  | none =>
    simp only [unjail, outcome_bind, outcome_getValidator_none hv] at h
    cases h
    rfl
  | some v =>
    simp only [unjail, outcome_bind, outcome_getValidator hv] at h
    cases hj : v.jailedUntil with
    | none =>
      simp only [hj] at h
      split_ifs at h
      · cases h
        rfl
      · cases h
    | some height =>
      simp only [hj, outcome_get, outcome_bind] at h
      split at h
      · cases h
        rfl
      split at h
      · cases h
        rfl
      · cases h

end Failing

/-! ## What is handed out -/

theorem map_modify_of_eq {α β : Type} (g : α → β) (f : α → α) (hf : ∀ a, g (f a) = g a) (l : List α) (i : ℕ) :
    (l.modify i f).map g = l.map g := by
  refine List.ext_getElem? fun j => ?_
  rw [List.getElem?_map, List.getElem?_map, List.getElem?_modify]
  cases l[j]? with
  | none => simp
  | some a =>
    by_cases hij : i = j
    · simp [hij, hf]
    · simp [hij]

theorem satAdd64_eq {a b : ℕ} (h : a + b < u64) : satAdd64 a b = a + b := min_eq_left (by omega)

theorem map_fst_spreadDust (order : List ℕ) (dust idx : ℕ) (shares : List (Bytes × ℕ)) :
    (spreadDust order dust idx shares).map Prod.fst = shares.map Prod.fst := by
  induction dust generalizing idx shares with
  | zero => rfl
  | succ dust ih =>
    rw [spreadDust, ih]
    exact map_modify_of_eq Prod.fst (fun e : Bytes × ℕ => (e.1, satAdd64 e.2 1)) (fun _ => rfl) _ _

theorem spreadDust_succ (order : List ℕ) (dust idx : ℕ) (shares : List (Bytes × ℕ)) :
    spreadDust order (dust + 1) idx shares = spreadDust order dust (idx + 1)
      (shares.modify (order.getD (idx % order.length) 0) fun e => (e.1, satAdd64 e.2 1)) := rfl

theorem sum_spreadDust {order : List ℕ} {dust idx : ℕ} {shares : List (Bytes × ℕ)} (hpos : 0 < order.length)
    (hmem : ∀ i ∈ order, i < shares.length) (hfit : (shares.map Prod.snd).sum + dust < u64) :
    ((spreadDust order dust idx shares).map Prod.snd).sum = (shares.map Prod.snd).sum + dust := by
  induction dust generalizing idx shares with
  | zero => rfl
  | succ dust ih =>
    rw [spreadDust_succ]
    set slot := order.getD (idx % order.length) 0 with hslot
    have hlt : idx % order.length < order.length := Nat.mod_lt _ hpos
    have hslot' : slot < shares.length := by
      rw [hslot, List.getD_eq_getElem?_getD, List.getElem?_eq_getElem hlt, Option.getD_some]
      exact hmem _ (List.getElem_mem hlt)
    have hone : shares[slot].2 ≤ (shares.map Prod.snd).sum :=
      List.le_sum_of_mem (List.mem_map_of_mem (List.getElem_mem hslot'))
    set addOne : Bytes × ℕ → Bytes × ℕ := fun e => (e.1, satAdd64 e.2 1) with haddOne
    have hsum := Lib.ProRata.sum_map_modify Prod.snd addOne hslot'
    have hroom : shares[slot].2 + 1 < u64 := by omega
    have hadd : (addOne shares[slot]).2 = shares[slot].2 + 1 := satAdd64_eq hroom
    rw [hadd] at hsum
    have hmem' : ∀ i ∈ order, i < (shares.modify slot addOne).length := by rwa [List.length_modify]
    have hrest := @ih (idx + 1) _ hmem' (by omega)
    omega

section Redistribution
variable {st : StakingState} {pk : Bytes} {total : ℕ}

theorem eligible_pos {e : Bytes × ℕ} (h : e ∈ eligible st pk) : minValidatorStake ≤ e.2 := by
  obtain ⟨⟨key, v⟩, hmem, rfl⟩ := List.mem_map.mp h
  have hactive := (of_decide_eq_true (List.mem_filter.mp hmem).2).2
  unfold ValidatorStake.isActive at hactive
  rw [Bool.and_eq_true, decide_eq_true_eq] at hactive
  exact hactive.2

theorem sum_eligible_pos (hne : eligible st pk ≠ []) : 0 < ((eligible st pk).map Prod.snd).sum := by
  obtain ⟨e, rest, he⟩ := List.exists_cons_of_ne_nil hne
  have hin : e ∈ eligible st pk := by
    rw [he]
    exact List.mem_cons_self
  have hmin := eligible_pos hin
  have : 0 < minValidatorStake := by decide
  rw [he, List.map_cons, List.sum_cons]
  omega

/-- The shares before the dust. -/
def floors (st : StakingState) (pk : Bytes) (total : ℕ) : List (Bytes × ℕ) :=
  (eligible st pk).map fun e => (e.1, total * e.2 / ((eligible st pk).map Prod.snd).sum)

theorem map_snd_floors : (floors st pk total).map Prod.snd = ((eligible st pk).map Prod.snd).map fun s =>
    total * s / ((eligible st pk).map Prod.snd).sum := by
  rw [floors, List.map_map, List.map_map]
  rfl

theorem map_fst_floors : (floors st pk total).map Prod.fst = (eligible st pk).map Prod.fst := by
  rw [floors, List.map_map]
  rfl

theorem sum_floors_le : ((floors st pk total).map Prod.snd).sum ≤ total := by
  rw [map_snd_floors]
  exact Lib.ProRata.sum_floor_le _ _ _ le_rfl

theorem shares_eq_floors (st : StakingState) (pk : Bytes) (htotal : total < u64) :
    ((eligible st pk).map fun (e : Bytes × ℕ) => (e.1, total * e.2 / ((eligible st pk).map Prod.snd).sum % u64)) =
      floors st pk total := by
  refine List.map_congr_left fun e he => ?_
  have hle : e.2 ≤ ((eligible st pk).map Prod.snd).sum := List.le_sum_of_mem (List.mem_map_of_mem he)
  have hdiv : total * e.2 / ((eligible st pk).map Prod.snd).sum ≤ total :=
    Nat.div_le_of_le_mul (by rw [mul_comm]; exact Nat.mul_le_mul_right total hle)
  rw [Nat.mod_eq_of_lt (by omega)]

/-- Where nothing wraps, the floors of the shares and the dust are handed out. -/
theorem computeRedistribution_eq (hne : eligible st pk ≠ []) (hfit : ((eligible st pk).map Prod.snd).sum < u64)
    (htotal : total < u64) :
    ∃ order : List ℕ, order.Perm (List.range (eligible st pk).length) ∧
      computeRedistribution st pk total =
        spreadDust order (total - ((floors st pk total).map Prod.snd).sum) 0 (floors st pk total) := by
  have hsum : sum64 ((eligible st pk).map Prod.snd) = ((eligible st pk).map Prod.snd).sum := sum64_eq hfit
  have hpos : ((eligible st pk).map Prod.snd).sum ≠ 0 := (sum_eligible_pos hne).ne'
  -- no share wraps, and together they stay below what was taken
  have hshares := shares_eq_floors st pk htotal
  have hfloor := @sum_floors_le st pk total
  have hdust : sum64 ((floors st pk total).map Prod.snd) = ((floors st pk total).map Prod.snd).sum :=
    sum64_eq (by omega)
  refine ⟨_, List.mergeSort_perm _ fun a b =>
    decide (((eligible st pk).getD b default).2 ≤ ((eligible st pk).getD a default).2), ?_⟩
  have hlen : (floors st pk total).length = (eligible st pk).length := List.length_map _
  unfold computeRedistribution
  simp only [if_neg hne, hsum, if_neg hpos, hshares, hdust, hlen]

/-- **What is handed out adds up to what was taken.** -/
theorem sum_redistribution (hne : eligible st pk ≠ []) (hfit : ((eligible st pk).map Prod.snd).sum < u64)
    (htotal : total < u64) :
    ((computeRedistribution st pk total).map Prod.snd).sum = total ∧
      (computeRedistribution st pk total).map Prod.fst = (eligible st pk).map Prod.fst := by
  obtain ⟨order, hperm, hcompute⟩ := computeRedistribution_eq hne hfit htotal
  have hlen : 0 < order.length := by
    rw [hperm.length_eq, List.length_range]
    exact List.length_pos_iff.mpr hne
  have hmem : ∀ i ∈ order, i < (floors st pk total).length := by
    intro i hi
    rw [floors, List.length_map]
    exact List.mem_range.mp (hperm.mem_iff.mp hi)
  have hle := @sum_floors_le st pk total
  have hsum := @sum_spreadDust order (total - ((floors st pk total).map Prod.snd).sum) 0
    (floors st pk total) hlen hmem (by omega)
  rw [hcompute, hsum, map_fst_spreadDust, map_fst_floors]
  exact ⟨by omega, rfl⟩

theorem fst_mem_redistribution (hne : eligible st pk ≠ []) {e : Bytes × ℕ}
    (h : e ∈ computeRedistribution st pk total) : e.1 ∈ (eligible st pk).map Prod.fst := by
  unfold computeRedistribution at h
  simp only [if_neg hne] at h
  split_ifs at h
  · cases h
  · have hmem := List.mem_map_of_mem (f := Prod.fst) h
    rw [map_fst_spreadDust, List.map_map] at hmem
    exact hmem

end Redistribution

end TruthLinked.Staking.Slash
