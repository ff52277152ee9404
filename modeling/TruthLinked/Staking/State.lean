import TruthLinked.Core.Types
import TruthLinked.Lib.Wp

/-! # Validator stakes

`StakingState` of `truthlinked-staking/src/lib.rs`: active stake, unbonding queue and jail time of each
validator. An operation that fails keeps what it changed before the failing check, so operations are
computations over the staking state with an error. Stakes and heights are `u64`: checked and saturating
operations are written out, plain sums wrap modulo `2 ^ 64`. -/

namespace TruthLinked.Staking.State

open Core.Types

/-- One more than `u64::MAX`. -/
abbrev u64 : ℕ := 2 ^ 64

/-- `u64::saturating_add`. -/
def satAdd64 (a b : ℕ) : ℕ := min (a + b) (u64 - 1)

/-- `u64::saturating_mul`. -/
def satMul64 (a b : ℕ) : ℕ := min (a * b) (u64 - 1)

/-- `MIN_VALIDATOR_STAKE`. -/
def minValidatorStake : ℕ := 10000000000

/-- `MAX_VALIDATOR_STAKE`. -/
def maxValidatorStake : ℕ := 1000000000000000000

/-- `UNBONDING_TICKS`. -/
def unbondingTicks : ℕ := 181440000

/-- `JAIL_DURATION_BLOCKS`. -/
def jailDurationBlocks : ℕ := 100

/-- `MAX_UNBONDING_ENTRIES`. -/
def maxUnbondingEntries : ℕ := 100

/-- `SlashReason`. -/
inductive SlashReason where
  | doubleSign
  | invalidStateRoot
  | downtime
  | invalidSnapshot
  | censorship
  | oracleLie
  | oracleSilence (requestId : Bytes32)
  deriving DecidableEq

/-- `UnbondingEntry`. -/
structure UnbondingEntry where
  amount : ℕ
  completionTick : ℕ
  deriving DecidableEq

/-- `ValidatorStake`. -/
structure ValidatorStake where
  activeStake : ℕ
  unbonding : List UnbondingEntry
  jailedUntil : Option ℕ
  deriving DecidableEq

/-- `ValidatorStake::new`. -/
def ValidatorStake.new (stake : ℕ) : ValidatorStake := ⟨stake, [], none⟩

/-- `ValidatorStake::is_active`. -/
def ValidatorStake.isActive (v : ValidatorStake) (currentHeight : ℕ) : Bool :=
  (match v.jailedUntil with
    | some jailHeight => decide (jailHeight ≤ currentHeight)
    | none => true) && decide (minValidatorStake ≤ v.activeStake)

/-- `StakingState`. -/
structure StakingState where
  validators : Map Bytes ValidatorStake
  currentHeight : ℕ
  treasuryAccountId : Option AccountId
  deriving DecidableEq

/-- `SlashOutcome`. -/
structure SlashOutcome where
  amount : ℕ
  redistribution : List (Bytes × ℕ)
  deriving DecidableEq

/-- A wrapping `u64` sum. -/
def sum64 (xs : List ℕ) : ℕ := xs.foldl (fun a b => (a + b) % u64) 0

/-- The stake of the validators that pass `p`. -/
def StakingState.stakeOf (st : StakingState) (p : ValidatorStake → Bool) : ℕ :=
  sum64 (((st.validators.toList.map Prod.snd).filter p).map ValidatorStake.activeStake)

/-- The stake of every validator. -/
def StakingState.totalStake (st : StakingState) : ℕ := st.stakeOf fun _ => true

/-- The stake of the active validators. -/
def StakingState.activeTotal (st : StakingState) : ℕ := st.stakeOf fun v => v.isActive st.currentHeight

/-- `staking.validators.get(pk).map(|v| v.active_stake).unwrap_or(0)`. -/
def StakingState.stakeAt (st : StakingState) (pk : Bytes) : ℕ :=
  (st.validators[pk]?.map ValidatorStake.activeStake).getD 0

/-- Operations on the staking state. -/
abbrev StakingM := ExceptT String (StateM StakingState)

/-- Writes the record of one validator. -/
def setValidator (pk : Bytes) (v : ValidatorStake) : StakingM Unit :=
  modify fun st => { st with validators := st.validators.insert pk v }

/-- `validators.get_mut(pk).ok_or("Validator not found")`. -/
def getValidator (pk : Bytes) : StakingM ValidatorStake := do
  match (← get).validators[pk]? with
  | some v => pure v
  | none => throw "Validator not found"

/-- `StakingState::stake`. The entry is created before the two checks of the new stake. -/
def stake (pk : Bytes) (amount : ℕ) : StakingM Unit := do
  if amount < minValidatorStake then
    throw s!"Stake below minimum: {amount} < {minValidatorStake}"
  let v := ((← get).validators[pk]?).getD (ValidatorStake.new 0)
  setValidator pk v
  let newStake := v.activeStake + amount
  if u64 ≤ newStake then throw "Stake overflow"
  if maxValidatorStake < newStake then throw "Exceeds maximum validator stake"
  setValidator pk { v with activeStake := newStake }

/-- The entries that have not reached their completion tick. -/
def immature (currentHeight : ℕ) (entries : List UnbondingEntry) : List UnbondingEntry :=
  entries.filter fun e => decide (currentHeight < e.completionTick)

/-- What the entries that have reached their completion tick add up to. -/
def matured (currentHeight : ℕ) (entries : List UnbondingEntry) : ℕ :=
  sum64 ((entries.filter fun e => decide (e.completionTick ≤ currentHeight)).map UnbondingEntry.amount)

/-- `StakingState::unstake`. A full queue first drops its mature entries. -/
def unstake (pk : Bytes) (amount : ℕ) : StakingM Unit := do
  let v ← getValidator pk
  let height := (← get).currentHeight
  let v' := if maxUnbondingEntries ≤ v.unbonding.length
    then { v with unbonding := immature height v.unbonding } else v
  setValidator pk v'
  if maxUnbondingEntries ≤ v'.unbonding.length then
    throw "Too many unbonding entries, withdraw first"
  if v'.activeStake < amount then throw "Insufficient active stake"
  let remaining := v'.activeStake - amount
  if 0 < remaining ∧ remaining < minValidatorStake then
    throw "Unstaking would leave stake below minimum (must unstake all)"
  setValidator pk
    { v' with
      activeStake := remaining
      unbonding := v'.unbonding ++ [⟨amount, (height + unbondingTicks) % u64⟩] }

/-- `StakingState::withdraw`. The mature entries are dropped before the sum is looked at. -/
def withdraw (pk : Bytes) : StakingM ℕ := do
  let v ← getValidator pk
  let height := (← get).currentHeight
  let total := matured height v.unbonding
  let v' := { v with unbonding := immature height v.unbonding }
  setValidator pk v'
  if total = 0 then throw "No unbonded stake available"
  if v'.activeStake = 0 ∧ v'.unbonding = [] ∧ v'.jailedUntil = none then
    modify fun st => { st with validators := st.validators.erase pk }
  pure total

/-- `apply_redistribution`: shares of unknown keys and empty shares are skipped. -/
def applyRedistribution (shares : List (Bytes × ℕ)) (validators : Map Bytes ValidatorStake) :
    Map Bytes ValidatorStake :=
  shares.foldl (fun vs (pk, share) =>
    if share = 0 then vs
    else vs.modify pk fun v => { v with activeStake := satAdd64 v.activeStake share }) validators

/-- `StakingState::apply_slash_outcome` without evidence, as a state diff applies it. -/
def applySlashOutcome (pk : Bytes) (reason : SlashReason) (outcome : SlashOutcome) : StakingM Unit := do
  if reason = .doubleSign then throw "Double-sign requires evidence"
  let v ← getValidator pk
  if outcome.amount = 0 then throw "No stake to slash"
  if v.activeStake < outcome.amount then throw "Slash amount exceeds active stake"
  setValidator pk
    { v with
      activeStake := v.activeStake - outcome.amount
      jailedUntil := some (((← get).currentHeight + jailDurationBlocks) % u64) }
  modify fun st => { st with validators := applyRedistribution outcome.redistribution st.validators }

/-- `StakingState::unjail`. Its log line, like that of a slash, takes the first 8 bytes of the key, which has
1952. -/
def unjail (pk : Bytes) : StakingM Unit := do
  let v ← getValidator pk
  match v.jailedUntil with
  | some jailHeight =>
    if (← get).currentHeight < jailHeight then throw s!"Still jailed until height {jailHeight}"
  | none => pure ()
  if v.activeStake < minValidatorStake then throw "Insufficient stake to unjail"
  setValidator pk { v with jailedUntil := none }

/-! ## Slash amounts -/

/-- The validators other than `slashed` that take part in a redistribution, in key order. -/
def eligible (st : StakingState) (slashed : Bytes) : List (Bytes × ℕ) :=
  (st.validators.toList.filter fun (pk, v) => pk ≠ slashed ∧ v.isActive st.currentHeight).map
    fun (pk, v) => (pk, v.activeStake)

/-- One more token to each of the first `dust` slots of `order`, round after round. -/
def spreadDust (order : List ℕ) : ℕ → ℕ → List (Bytes × ℕ) → List (Bytes × ℕ)
  | 0, _, shares => shares
  | dust + 1, idx, shares =>
    let slot := order.getD (idx % order.length) 0
    spreadDust order dust (idx + 1)
      (shares.modify slot fun (pk, s) => (pk, satAdd64 s 1))

/-- `compute_redistribution`. -/
def computeRedistribution (st : StakingState) (slashed : Bytes) (total : ℕ) : List (Bytes × ℕ) :=
  let active := eligible st slashed
  if active = [] then
    match st.treasuryAccountId with
    | some treasury => [(ofBytes32 treasury, total)]
    | none => []
  else
    let totalActive := sum64 (active.map Prod.snd)
    if totalActive = 0 then []
    else
      let shares := active.map fun (pk, s) => (pk, total * s / totalActive % u64)
      let dust := total - sum64 (shares.map Prod.snd)
      let order := (List.range shares.length).mergeSort fun a b =>
        decide ((active.getD b default).2 ≤ (active.getD a default).2)
      spreadDust order dust 0 shares

/-- `StakingState::compute_slash_outcome` for a reason that needs no evidence, with the percentage the
reason stands for. -/
def computeSlashOutcome (st : StakingState) (pk : Bytes) (percentage : ℕ) :
    Except String SlashOutcome :=
  match st.validators[pk]? with
  | none => .error "Validator not found"
  | some v =>
    if v.activeStake = 0 then .error "No stake to slash"
    else
      let raw := v.activeStake * percentage % u64 / 100
      let amount := min (if raw = 0 then 1 else raw) v.activeStake
      .ok ⟨amount, computeRedistribution st pk amount⟩

end TruthLinked.Staking.State
