import TruthLinked.Ledger.Execution

/-! # System cells

`truthlinked-state/src/system_cells.rs`: the native handlers of the staking, governance, treasury and name
registry cells. A handler refuses with a message; a refused call uses all its gas. The call data starts
with the selector of the method. -/

namespace TruthLinked.Ledger.SystemCells

open Core.Types Governance.Types Staking.State Ledger.Model Ledger.Execution Lib.Except

/-- The storage of a cell. -/
abbrev Storage := Map Bytes32 Bytes32

/-- `PUBKEY_LEN`. -/
def pubkeyLen : ℕ := 1952

/-! ## Call data and slots -/

/-- `sel`: the FNV-1a hash of a method name. -/
def sel (name : String) : Bytes :=
  leBytes 4 (name.toUTF8.toList.foldl (fun h b => Nat.xor h b.toNat * 0x01000193 % 2 ^ 32) 0x811c9dc5)

/-- `read_sel(cd).unwrap_or_default()`. -/
def readSel (cd : Bytes) : Bytes := if cd.length < 4 then [0, 0, 0, 0] else cd.take 4

/-- `read32`. -/
def read32 (cd : Bytes) (off : ℕ) : Option Bytes32 :=
  if cd.length < off + 32 then none else some (toBytes32 (slice cd off (off + 32)))

/-- `read_u64`. -/
def readU64 (cd : Bytes) (off : ℕ) : Option ℕ := readLe 8 cd off

/-- `read_u128`. -/
def readU128 (cd : Bytes) (off : ℕ) : Option ℕ := readLe 16 cd off

/-- A public key in the call data, when the call data reaches past it. -/
def readPubkey (cd : Bytes) (off : ℕ) : Option Bytes :=
  if cd.length < off + pubkeyLen then none else some (slice cd off (off + pubkeyLen))

/-- `ns`. -/
def ns (env : Env) (name : String) : Bytes32 := env.sha256 name.toUTF8.toList

/-- `storage_key`. -/
def storageKey (env : Env) (space key : Bytes32) : Bytes32 :=
  env.sha256 (ofBytes32 space ++ ofBytes32 key)

/-- `derive_slot`. -/
def deriveSlot (env : Env) (space : Bytes32) (parts : List Bytes) : Bytes32 :=
  env.sha256 ("trth:sdk:slot:v1".toUTF8.toList ++ [0] ++ ofBytes32 space ++
    parts.flatMap fun part => 0xFF :: part)

/-- The first byte of a slot, 0 for an empty one. -/
def flagAt (storage : Storage) (key : Bytes32) : UInt8 :=
  ((storage[key]?).map fun v => (ofBytes32 v).headD 0).getD 0

/-- A slot with a first byte and zeros. -/
def flagWord (b : UInt8) : Bytes32 := toBytes32 (b :: List.replicate 31 0)

/-- `read_slot_u64` and `storage_u64`. -/
def readSlotU64 (storage : Storage) (key : Bytes32) : ℕ := ((storage[key]?).map decodeU64).getD 0

/-- `read_slot_u128`. -/
def readSlotU128 (storage : Storage) (key : Bytes32) : ℕ := ((storage[key]?).map decodeU128).getD 0

/-- `pack_u64`. -/
def packU64 (v : ℕ) : Bytes32 := encodeU64 v

/-- `pack_u128`. -/
def packU128 (v : ℕ) : Bytes32 := toBytes32 (leBytes 16 v ++ List.replicate 16 0)

/-- A successful result. -/
def ok (gasUsed : ℕ) (r : ExecutionResult) : ExecutionResult :=
  { r with success := true, gasUsed := gasUsed }

/-- `err`. -/
def err (msg : String) (gasUsed : ℕ) : ExecutionResult :=
  { success := false, error := some msg, gasUsed := gasUsed }

/-! ## The staking cell -/

/-- `staking_exists_slot`. -/
def stakingExistsSlot (env : Env) (owner : AccountId) : Bytes32 :=
  deriveSlot env (ns env "truthlinked.staking.positions") ["map:exists".toUTF8.toList, ofBytes32 owner]

/-- `staking_value_slot`. -/
def stakingValueSlot (env : Env) (owner : AccountId) : Bytes32 :=
  deriveSlot env (ns env "truthlinked.staking.positions") ["map:value".toUTF8.toList, ofBytes32 owner]

/-- `staking_holders_len_slot`. -/
def stakingHoldersLenSlot (env : Env) : Bytes32 :=
  deriveSlot env (ns env "truthlinked.staking.holders") ["vec:len".toUTF8.toList]

/-- `staking_holders_elem_slot`. -/
def stakingHoldersElemSlot (env : Env) (index : ℕ) : Bytes32 :=
  deriveSlot env (ns env "truthlinked.staking.holders") ["vec:elem".toUTF8.toList, leBytes 8 index]

/-- `pack_staking_position`. -/
def packStakingPosition (amount lockEnd : ℕ) : Bytes32 :=
  toBytes32 (leBytes 16 amount ++ List.replicate 8 0 ++ leBytes 8 lockEnd)

/-- `unpack_staking_position`. -/
def unpackStakingPosition (raw : Bytes32) : ℕ × ℕ :=
  (leNat ((ofBytes32 raw).take 16), leNat ((ofBytes32 raw).drop 24))

/-- The slot of a delegation. -/
def delegateKey (env : Env) (owner delegate : AccountId) : Bytes32 :=
  storageKey env (ns env "truthlinked.staking.delegates")
    (env.sha256 (ofBytes32 owner ++ ofBytes32 delegate))

/-- `delegate_add` and `delegate_remove`. -/
def stakingDelegate (env : Env) (cd : Bytes) (caller : AccountId) : Except String ExecutionResult := do
  let delegate ← okOr (read32 cd 4) "bad calldata"
  let allowed : UInt8 := if readSel cd = sel "delegate_add" then 1 else 0
  pure (ok 100 { storageDiff := [(delegateKey env caller delegate, some (flagWord allowed))] })

/-- `lock`, `extend` and `unlock`. -/
def stakingPosition (env : Env) (cd : Bytes) (caller : AccountId) (storage : Storage)
    (height value : ℕ) : Except String ExecutionResult := do
  let owner ← okOr (read32 cd 4) "bad calldata"
  failIf (caller ≠ owner) "unauthorized"
  let existsSlot := stakingExistsSlot env owner
  let valueSlot := stakingValueSlot env owner
  let held := flagAt storage existsSlot = 1
  let current := ((storage[valueSlot]?).map unpackStakingPosition).getD (0, 0)
  if readSel cd = sel "lock" then
    let lockBlocks ← okOr (readU64 cd 36) "bad calldata"
    failIf (value = 0 ∨ lockBlocks = 0) "zero lock"
    let lockEnd := max current.2 (satAdd64 height lockBlocks)
    let len := readSlotU64 storage (stakingHoldersLenSlot env)
    let entry := if held then [] else
      [(stakingHoldersElemSlot env len, some owner),
        (stakingHoldersLenSlot env, some (packU64 (satAdd64 len 1)))]
    pure (ok 500 { storageDiff := [(existsSlot, some (flagWord 1)),
      (valueSlot, some (packStakingPosition (satAdd current.1 value) lockEnd))] ++ entry })
  else
    failIf (¬ held) "no staking lock"
    if readSel cd = sel "extend" then
      let lockBlocks ← okOr (readU64 cd 36) "bad calldata"
      failIf (lockBlocks = 0) "zero extension"
      let lockEnd := max current.2 (satAdd64 height lockBlocks)
      pure (ok 500 { storageDiff := [(valueSlot, some (packStakingPosition current.1 lockEnd))] })
    else
      failIf (height < current.2) "staking lock has not matured"
      pure (ok 500
        { storageDiff := [(existsSlot, none), (valueSlot, none)]
          nativeCredits := [(owner, current.1)]
          cellDebits := [(stakingSystemCellId env, current.1)] })

/-- `staking_op`, with the method without its `_for`. -/
def stakingOp (method pubkey cd : Bytes) (amountOff : ℕ) : Except String ExecutionResult := do
  if method = sel "stake" then
    let amount ← okOr (readU64 cd amountOff) "bad calldata"
    failIf (amount = 0) "zero amount"
    pure (ok 500 { stakingUpdates := [.stake pubkey amount] })
  else if method = sel "unstake" then
    let amount ← okOr (readU64 cd amountOff) "bad calldata"
    failIf (amount = 0) "zero amount"
    pure (ok 500 { stakingUpdates := [.unstake pubkey amount] })
  else if method = sel "withdraw" then pure (ok 500 { stakingUpdates := [.withdraw pubkey] })
  else if method = sel "unjail" then pure (ok 500 { stakingUpdates := [.unjail pubkey] })
  else pure (ok 500 {})

/-- `stake`, `unstake`, `withdraw` and `unjail`. -/
def stakingSelf (env : Env) (cd : Bytes) (caller : AccountId) : Except String ExecutionResult := do
  let pubkey ← okOr (readPubkey cd 4) "bad calldata"
  failIf (accountIdFromPubkey env pubkey ≠ caller) "unauthorized"
  stakingOp (readSel cd) pubkey cd (4 + pubkeyLen)

/-- `stake_for`, `unstake_for`, `withdraw_for` and `unjail_for`. -/
def stakingFor (env : Env) (cd : Bytes) (caller : AccountId) (storage : Storage) :
    Except String ExecutionResult := do
  let pubkey ← okOr (readPubkey cd 36) "bad calldata"
  let owner := toBytes32 (slice cd 4 36)
  failIf (accountIdFromPubkey env pubkey ≠ owner) "pubkey mismatch"
  failIf (caller ≠ owner ∧ flagAt storage (delegateKey env owner caller) ≠ 1) "unauthorized"
  let s := readSel cd
  let method := if s = sel "stake_for" then sel "stake"
    else if s = sel "unstake_for" then sel "unstake"
    else if s = sel "withdraw_for" then sel "withdraw"
    else sel "unjail"
  stakingOp method pubkey cd (36 + pubkeyLen)

/-- `staking`. -/
def staking (env : Env) (cd : Bytes) (caller : AccountId) (storage : Storage) (height value : ℕ) :
    Except String ExecutionResult :=
  let s := readSel cd
  if s ∈ [sel "delegate_add", sel "delegate_remove"] then stakingDelegate env cd caller
  else if s ∈ [sel "lock", sel "extend", sel "unlock"] then
    stakingPosition env cd caller storage height value
  else if s ∈ [sel "stake", sel "unstake", sel "withdraw", sel "unjail"] then stakingSelf env cd caller
  else if s ∈ [sel "stake_for", sel "unstake_for", sel "withdraw_for", sel "unjail_for"] then
    stakingFor env cd caller storage
  else throw "unknown selector"

/-! ## Votes by stake -/

/-- `ValidatorStake::total_stake`. -/
def totalStakeOf (v : ValidatorStake) : ℕ :=
  (v.activeStake + sum64 (v.unbonding.map UnbondingEntry.amount)) % u64

/-- The stake of the key `pubkey`, with what it is unbonding. -/
def stakeOfKey (st : StakingState) (pubkey : Bytes) : ℕ :=
  ((st.validators[pubkey]?).map totalStakeOf).getD 0

/-- The stake of the first active validator with account `caller`, in key order. -/
def stakeOfCaller (env : Env) (st : StakingState) (caller : AccountId) : ℕ :=
  ((st.validators.toList.find? fun (pk, v) =>
    v.isActive st.currentHeight && decide (accountIdFromPubkey env pk = caller)).map
    fun (_, v) => v.activeStake).getD 0

/-- Whether the votes reach the quorum of a third and the approval of two thirds. -/
def checkVotes (votesFor votesAgainst totalStake : ℕ) : Except String Unit := do
  let votesTotal := satAdd64 votesFor votesAgainst
  failIf (satMul64 votesTotal 3 < satMul64 totalStake 1) "quorum not met"
  failIf (satMul64 votesFor 3 < satMul64 votesTotal 2) "approval not met"

/-! ## The governance cell -/

/-- `gov_key`. -/
def govKey (env : Env) (sub : String) (key : Bytes32) : Bytes32 :=
  storageKey env (ns env ("truthlinked.gov." ++ sub)) key

/-- `propose_param`. -/
def proposeParam (env : Env) (cd : Bytes) (caller : AccountId) (storage : Storage) (height : ℕ)
    (st : StakingState) : Except String ExecutionResult := do
  let key ← okOr (read32 cd 4) "bad calldata"
  failIf (!isKnownParamKey env.sha256 key) "unknown param key"
  let value ← okOr (read32 cd 36) "bad calldata"
  let votingPeriod ← okOr (readU64 cd 68) "bad calldata"
  let timelock ← okOr (readU64 cd 76) "bad calldata"
  failIf (votingPeriod = 0) "zero voting period"
  let pubkey ← okOr (readPubkey cd 84) "bad calldata"
  failIf (accountIdFromPubkey env pubkey ≠ caller) "unauthorized"
  failIf (stakeOfKey st pubkey = 0) "zero stake"
  failIf (flagAt storage (govKey env "proposal.exists" key) = 1 ∧
    flagAt storage (govKey env "proposal.executed" key) = 0) "proposal exists"
  let nonce := satAdd64 (readSlotU64 storage (govKey env "proposal.nonce" key)) 1
  pure (ok 500 { storageDiff :=
    [(govKey env "proposal.exists" key, some (flagWord 1)),
      (govKey env "proposal.nonce" key, some (packU64 nonce)),
      (govKey env "proposal.value" key, some value),
      (govKey env "proposal.proposer" key, some caller),
      (govKey env "proposal.created" key, some (packU64 height)),
      (govKey env "proposal.voting_ends" key, some (packU64 (satAdd64 height votingPeriod))),
      (govKey env "proposal.timelock" key, some (packU64 timelock)),
      (govKey env "proposal.votes_for" key, some 0),
      (govKey env "proposal.votes_against" key, some 0),
      (govKey env "proposal.executed" key, some 0)] })

/-- `vote_param`. -/
def voteParam (env : Env) (cd : Bytes) (caller : AccountId) (storage : Storage) (height : ℕ)
    (st : StakingState) : Except String ExecutionResult := do
  let key ← okOr (read32 cd 4) "bad calldata"
  let approve ← okOr (readU64 cd 36) "bad calldata"
  let pubkey ← okOr (readPubkey cd 44) "bad calldata"
  failIf (accountIdFromPubkey env pubkey ≠ caller) "unauthorized"
  let stake := stakeOfKey st pubkey
  failIf (stake = 0) "zero stake"
  failIf (flagAt storage (govKey env "proposal.exists" key) ≠ 1) "no proposal"
  failIf (flagAt storage (govKey env "proposal.executed" key) = 1) "voting closed"
  failIf (readSlotU64 storage (govKey env "proposal.voting_ends" key) < height) "voting closed"
  let nonce := readSlotU64 storage (govKey env "proposal.nonce" key)
  let voteKey := env.sha256 ("truthlinked.gov.vote.v1".toUTF8.toList ++ ofBytes32 key ++
    leBytes 8 nonce ++ pubkey)
  failIf (flagAt storage voteKey = 1) "already voted"
  let side := govKey env (if approve ≠ 0 then "proposal.votes_for" else "proposal.votes_against") key
  pure (ok 200 { storageDiff := [(voteKey, some (flagWord 1)),
    (side, some (packU64 (satAdd64 (readSlotU64 storage side) stake)))] })

/-- `execute_param`. -/
def executeParam (env : Env) (cd : Bytes) (storage : Storage) (height : ℕ) (st : StakingState) :
    Except String ExecutionResult := do
  let key ← okOr (read32 cd 4) "bad calldata"
  failIf (!isKnownParamKey env.sha256 key) "unknown param key"
  failIf (flagAt storage (govKey env "proposal.exists" key) ≠ 1) "no proposal"
  failIf (flagAt storage (govKey env "proposal.executed" key) = 1) "already executed"
  failIf (height ≤ readSlotU64 storage (govKey env "proposal.voting_ends" key)) "voting open"
  let created := readSlotU64 storage (govKey env "proposal.created" key)
  let timelock := readSlotU64 storage (govKey env "proposal.timelock" key)
  failIf (height < satAdd64 created timelock) "timelock"
  failIf (st.activeTotal = 0) "zero stake"
  let votesFor := readSlotU64 storage (govKey env "proposal.votes_for" key)
  let votesAgainst := readSlotU64 storage (govKey env "proposal.votes_against" key)
  checkVotes votesFor votesAgainst st.activeTotal
  failIf (votesFor ≤ votesAgainst) "approval not met"
  let newValue := (storage[govKey env "proposal.value" key]?).getD 0
  pure (ok 1000
    { storageDiff := [(govKey env "proposal.executed" key, some (flagWord 1)),
        (govKey env "params" key, some newValue)]
      paramUpdates := [(key, newValue)] })

/-- `get_param`. -/
def getParam (cd : Bytes) (params : Map Bytes32 Bytes32) : Except String ExecutionResult := do
  let key ← okOr (read32 cd 4) "bad calldata"
  pure (ok 50 { returnData := ofBytes32 ((params[key]?).getD 0) })

/-- `governance`. -/
def governance (env : Env) (cd : Bytes) (caller : AccountId) (storage : Storage) (height : ℕ)
    (s : State) : Except String ExecutionResult :=
  if readSel cd = sel "get_param" then getParam cd s.params
  else if readSel cd = sel "propose_param" then proposeParam env cd caller storage height s.staking
  else if readSel cd = sel "vote_param" then voteParam env cd caller storage height s.staking
  else if readSel cd = sel "execute_param" then executeParam env cd storage height s.staking
  else throw "unknown selector"

/-! ## The treasury cell -/

/-- `treas_key`. -/
def treasKey (env : Env) (sub : String) (id : Bytes32) : Bytes32 :=
  storageKey env (ns env ("truthlinked.treasury." ++ sub)) id

/-- `VOTING_PERIOD`. -/
def votingPeriod : ℕ := 432000

/-- `propose_spend`. -/
def proposeSpend (env : Env) (cd : Bytes) (storage : Storage) (height : ℕ) :
    Except String ExecutionResult := do
  failIf (cd.length < 92) "bad calldata"
  let id ← okOr (read32 cd 4) "bad calldata"
  let recipient ← okOr (read32 cd 36) "bad calldata"
  let amount ← okOr (readU128 cd 68) "bad calldata"
  let timelock ← okOr (readU64 cd 84) "bad calldata"
  failIf (amount = 0) "zero amount"
  failIf (flagAt storage (treasKey env "proposal.exists" id) = 1) "proposal exists"
  pure (ok 500 { storageDiff :=
    [(treasKey env "proposal.exists" id, some (flagWord 1)),
      (treasKey env "proposal.recipient" id, some recipient),
      (treasKey env "proposal.amount" id, some (packU128 amount)),
      (treasKey env "proposal.created" id, some (packU64 height)),
      (treasKey env "proposal.timelock" id, some (packU64 timelock)),
      (treasKey env "proposal.votes_for" id, some 0),
      (treasKey env "proposal.votes_against" id, some 0),
      (treasKey env "proposal.executed" id, some 0)] })

/-- `vote_spend`. -/
def voteSpend (env : Env) (cd : Bytes) (caller : AccountId) (storage : Storage) (height : ℕ)
    (st : StakingState) : Except String ExecutionResult := do
  failIf (cd.length < 37) "bad calldata"
  let id ← okOr (read32 cd 4) "bad calldata"
  let approve := cd.getD 36 0 ≠ 0
  failIf (flagAt storage (treasKey env "proposal.exists" id) ≠ 1) "no proposal"
  let created := readSlotU64 storage (treasKey env "proposal.created" id)
  failIf (satAdd64 created votingPeriod < height) "voting closed"
  let voteKey := env.sha256 (ofBytes32 id ++ ofBytes32 caller)
  failIf (flagAt storage voteKey = 1) "already voted"
  let stake := stakeOfCaller env st caller
  failIf (stake = 0) "zero stake"
  let side := treasKey env (if approve then "proposal.votes_for" else "proposal.votes_against") id
  pure (ok 200 { storageDiff := [(voteKey, some (flagWord 1)),
    (side, some (packU64 (satAdd64 (readSlotU64 storage side) stake)))] })

/-- `execute_spend`. -/
def executeSpend (env : Env) (cd : Bytes) (storage : Storage) (height : ℕ) (st : StakingState) :
    Except String ExecutionResult := do
  failIf (cd.length < 36) "bad calldata"
  let id ← okOr (read32 cd 4) "bad calldata"
  failIf (flagAt storage (treasKey env "proposal.exists" id) ≠ 1) "no proposal"
  failIf (flagAt storage (treasKey env "proposal.executed" id) = 1) "already executed"
  let created := readSlotU64 storage (treasKey env "proposal.created" id)
  failIf (height ≤ satAdd64 created votingPeriod) "voting open"
  let timelock := readSlotU64 storage (treasKey env "proposal.timelock" id)
  failIf (height < satAdd64 created timelock) "timelock"
  failIf (st.activeTotal = 0) "zero stake"
  checkVotes (readSlotU64 storage (treasKey env "proposal.votes_for" id))
    (readSlotU64 storage (treasKey env "proposal.votes_against" id)) st.activeTotal
  let recipient := (storage[treasKey env "proposal.recipient" id]?).getD 0
  let amount := readSlotU128 storage (treasKey env "proposal.amount" id)
  failIf (amount = 0) "zero amount"
  pure (ok 1000
    { storageDiff := [(treasKey env "proposal.executed" id, some (flagWord 1))]
      nativeCredits := [(recipient, amount)]
      cellDebits := [(treasurySystemCellId env, amount)] })

/-- `treasury`. -/
def treasury (env : Env) (cd : Bytes) (caller : AccountId) (storage : Storage) (height : ℕ)
    (s : State) : Except String ExecutionResult :=
  if readSel cd = sel "propose_spend" then proposeSpend env cd storage height
  else if readSel cd = sel "vote_spend" then voteSpend env cd caller storage height s.staking
  else if readSel cd = sel "execute_spend" then executeSpend env cd storage height s.staking
  else throw "unknown selector"

/-! ## The name registry cell -/

/-- `read_name`: the name at `off`, and the position after it. -/
def readName (cd : Bytes) (off : ℕ) : Option (String × ℕ) := do
  let len ← cd[off]?
  let stop := off + 1 + len.toNat
  if cd.length < stop then none
  else
    let name ← fromUtf8 (slice cd (off + 1) stop)
    some (name, stop)

/-- `propose_name`. -/
def proposeName (cd : Bytes) (caller : AccountId) (s : State) (height : ℕ) :
    Except String ExecutionResult := do
  let (name, off) ← okOr (readName cd 4) "bad calldata"
  let target ← okOr (read32 cd off) "bad calldata"
  let owner ← okOr (read32 cd (off + 32)) "bad calldata"
  failIf (name ∈ s.nameRegistry ∨ name ∈ s.pendingNames) "name already registered or pending"
  let pending : PendingNameRegistration :=
    { name := name, cellId := target, owner := owner, isCell := false, proposer := ofBytes32 caller,
      votes := ∅, totalStakeVoted := 0, proposedAt := height }
  pure (ok 300 { pendingNameProposals := [(name, pending, caller, false)] })

/-- `vote_name`. -/
def voteName (env : Env) (cd : Bytes) (caller : AccountId) (s : State) :
    Except String ExecutionResult := do
  let (name, off) ← okOr (readName cd 4) "bad calldata"
  failIf (cd.length ≤ off) "bad calldata"
  let stake := stakeOfCaller env s.staking caller
  pure (ok 100
    { nameVotes := [(name, ofBytes32 caller, if cd.getD off 0 ≠ 0 then stake else 0)] })

/-- `renew_name`. -/
def renewName (cd : Bytes) (height : ℕ) : Except String ExecutionResult := do
  let (name, _) ← okOr (readName cd 4) "bad calldata"
  pure (ok 100 { nameRenewals := [(name, height)] })

/-- `transfer_name`. -/
def transferName (cd : Bytes) (caller : AccountId) (s : State) : Except String ExecutionResult := do
  let (name, off) ← okOr (readName cd 4) "bad calldata"
  let newOwner ← okOr (read32 cd off) "bad calldata"
  let reg ← okOr s.nameRegistry[name]? "name not found"
  failIf (reg.owner ≠ caller) "unauthorized"
  pure (ok 100 { nameTransfers := [(name, newOwner)] })

/-- `name_registry`. -/
def nameRegistry (env : Env) (cd : Bytes) (caller : AccountId) (s : State) (height : ℕ) :
    Except String ExecutionResult :=
  if readSel cd = sel "propose_name" then proposeName cd caller s height
  else if readSel cd = sel "vote_name" then voteName env cd caller s
  else if readSel cd = sel "renew_name" then renewName cd height
  else if readSel cd = sel "transfer_name" then transferName cd caller s
  else throw "unknown selector"

/-! ## Dispatch -/

/-- The handler of a system cell. -/
def handler (env : Env) (cellId : AccountId) (cd : Bytes) (caller : AccountId) (storage : Storage)
    (height value : ℕ) (s : State) : Except String ExecutionResult :=
  if cellId = stakingSystemCellId env then staking env cd caller storage height value
  else if cellId = governanceSystemCellId env then governance env cd caller storage height s
  else if cellId = treasurySystemCellId env then treasury env cd caller storage height s
  else if cellId = nameRegistrySystemCellId env then nameRegistry env cd caller s height
  else throw "Unknown system cell"

/-- `dispatch`. -/
def dispatch (env : Env) (cellId : AccountId) (cd : Bytes) (caller : AccountId) (storage : Storage)
    (height value gasLimit : ℕ) (s : State) : ExecutionResult :=
  match handler env cellId cd caller storage height value s with
  | .ok r => r
  | .error msg => err msg gasLimit

end TruthLinked.Ledger.SystemCells
