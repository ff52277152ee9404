import TruthLinked.Ledger.Mcp

/-! # Private balances

`truthlinked-mcp/src/private_balance.rs`: the circuits that open a private balance cell, move public money
in and out of it, and transfer between two of them. -/

namespace TruthLinked.Ledger.PrivateBalance

open Core.Types Core.Manifest Runtime.Cells Runtime.Types Staking.State Ledger.Model Ledger.SystemCells
open Ledger.Mcp Lib.Except

/-- `PRIVATE_BALANCE_MIN_STAKE`. -/
def privateBalanceMinStake : ℕ := 100000 * 1000000000

/-- `MAX_PRIVATE_BALANCE`. -/
def maxPrivateBalance : ℕ := 2 ^ 96 - 1

/-- `MAX_TRANSFER_AMOUNT`. -/
def maxTransferAmount : ℕ := 2 ^ 64 - 1

/-- `CIPHERTEXT_LEN`. -/
def ciphertextLen : ℕ := 44

/-- `MAX_PROOF_BYTES`. -/
def maxProofBytes : ℕ := 512 * 1024

/-- `pb_keys::key`. -/
def pbKey (tag : String) : Bytes32 := mcpKey ("pb:" ++ tag)

/-- `pb_keys::cell_for_agent`. -/
def cellForAgent (env : Env) (agentId : AccountId) : AccountId :=
  blake3Key env "pb:cell:" (ofBytes32 agentId)

/-- `pack_ciphertext`: the two slots of a ciphertext. -/
def packCiphertext (ct : Bytes) : Except String (Bytes32 × Bytes32) := do
  failIf (ct.length ≠ ciphertextLen) s!"Ciphertext must be {ciphertextLen} bytes, got {ct.length}"
  pure (padded (ct.take 32), padded (ct.drop 32))

/-- The bytes of a commitment nonce; its number is their little-endian reading. -/
def nonceBytes (n : BitVec 128) : Bytes := beBytes 16 n.toNat

/-- `pack_nonce`. -/
def packNonce (n : BitVec 128) : Bytes32 := padded (nonceBytes n)

/-- `read_commit_nonce`. -/
def readCommitNonce (cell : CellAccount) : ℕ := readSlotU128 cell.storage (pbKey "n")

/-- `check_balance`. -/
def checkBalance (v : ℕ) (label : String) : Except String Unit :=
  failIf (maxPrivateBalance < v) s!"{label} ({v}) exceeds MAX_PRIVATE_BALANCE"

/-- `check_amount`. -/
def checkAmount (v : ℕ) (label : String) : Except String Unit := do
  failIf (v = 0) s!"{label} must be > 0"
  failIf (maxTransferAmount < v) s!"{label} ({v}) exceeds MAX_TRANSFER_AMOUNT"

/-- `check_nonce`. -/
def checkNonce (n : BitVec 128) : Except String Unit := failIf (n = 0) "Commit nonce must be non-zero"

/-- `check_new_nonce`. -/
def checkNewNonce (n : BitVec 128) (oldNonce : ℕ) : Except String Unit := do
  checkNonce n
  failIf (leNat (nonceBytes n) = oldNonce) "new_commit_nonce must differ from current nonce"

/-- `check_stake_gate`. -/
def checkStakeGate (st : StakingState) (pubkey : Bytes) : Except String Unit := do
  let stake := st.stakeAt pubkey
  failIf (stake < privateBalanceMinStake)
    s!"Insufficient stake: owner has {stake} staked, minimum required is {privateBalanceMinStake} (100,000 TLKD)"

/-- `owner_pubkey`. -/
def ownerPubkey (s : State) (owner : AccountId) : Except String Bytes := do
  let account ← okOr s.accounts[owner]? "Owner account not found"
  failIf (account.pubkeyBytes = []) "Owner account has no registered pubkey"
  pure account.pubkeyBytes

/-- A slot of a private balance cell. -/
def slotOf (cell : CellAccount) (tag : String) : Bytes32 := (cell.storage[pbKey tag]?).getD 0

/-- `load_and_guard`: the cell; its stored owner and nonce are read from it. -/
def loadAndGuard (s : State) (cellId agentId sender : AccountId) (oldCommitment : Bytes32) :
    Except String CellAccount := do
  let cell ← okOr s.cells.cells[cellId]? ("Private balance cell " ++ hexEncode cellId ++ " not found")
  failIf (flagAt cell.storage (pbKey "L") ≠ 1) "Cell not initialized"
  failIf (sender ≠ slotOf cell "o" ∧ sender ≠ slotOf cell "a")
    "Unauthorized: sender is neither owner nor agent"
  failIf (agentId ≠ slotOf cell "a") "agent_id does not match cell's registered agent"
  failIf (oldCommitment ≠ slotOf cell "c") "old_commitment mismatch: stale or replayed transaction"
  pure cell

/-- The stake gate of a cell's owner. -/
def checkOwnerStake (s : State) (cell : CellAccount) : Except String Unit := do
  let pubkey ← ownerPubkey s (slotOf cell "o")
  checkStakeGate s.staking pubkey

/-- The slots that every update of a private balance writes. -/
def balanceSlots (commitment : Bytes32) (cipher : Bytes32 × Bytes32) (nonce : BitVec 128) :
    List (Bytes32 × Option Bytes32) :=
  [(pbKey "c", some commitment), (pbKey "l", some cipher.1), (pbKey "h", some cipher.2),
    (pbKey "n", some (packNonce nonce))]

/-- `circuit_init_private_balance`. -/
def circuitInitPrivateBalance (env : Env) (w : World) (sender cellId agentId : AccountId)
    (encryptedBalance : Bytes) (commitment : Bytes32) (commitNonce : BitVec 128) (timestamp : ℕ) :
    Except String StateDiff := do
  let pubkey ← ownerPubkey w.state sender
  checkStakeGate w.state.staking pubkey
  failIf (sender = agentId) "Owner and agent must be different accounts"
  failIf (cellId ∈ w.state.cells.cells) ("Cell " ++ hexEncode cellId ++ " already exists")
  failIf (cellId ≠ cellForAgent env agentId)
    ("cell_id mismatch: expected " ++ hexEncode (cellForAgent env agentId))
  failIf (commitment = 0) "Commitment must be non-zero"
  checkNonce commitNonce
  failIf (encryptedBalance.length ≠ ciphertextLen) s!"encrypted_balance must be {ciphertextLen} bytes"
  let rent := rentDeposit env w.globals
  let account ← okOr w.state.accounts[sender]? "Sender not found"
  failIf (account.balance < rent) "Insufficient balance for rent"
  let cipher ← packCiphertext encryptedBalance
  let cell := newCell env w.globals cellId (systemAuthorityId env) [] [] [] [] [] rent timestamp
  pure
    { accountUpdates := fromList [(sender, { account with balance := account.balance - rent })]
      nativeDebits := [(sender, rent)]
      cellUpdates := [.deploy cellId { cell with
        storage := fromList
          [(pbKey "c", commitment), (pbKey "l", cipher.1), (pbKey "h", cipher.2),
            (pbKey "n", packNonce commitNonce), (pbKey "o", sender), (pbKey "a", agentId),
            (pbKey "td", 0), (pbKey "tw", 0), (pbKey "tf", 0), (pbKey "to", 0),
            (pbKey "L", flagWord 1), (pbKey "sv", flagWord 1)]
        declaredReads := [pbKey "c", pbKey "n", pbKey "o", pbKey "a", pbKey "L", pbKey "sv"]
        declaredWrites := [pbKey "c", pbKey "l", pbKey "h", pbKey "n", pbKey "td", pbKey "tw",
          pbKey "tf", pbKey "to"]
        manifestVersion := 2 }]
      cuFee := w.globals.getU64 env "gas.deploy_cell" }

/-- `circuit_deposit`. -/
def circuitDeposit (env : Env) (w : World) (sender cellId agentId : AccountId) (amount : ℕ)
    (newEnc : Bytes) (newComm : Bytes32) (newNonce : BitVec 128) (oldComm : Bytes32) :
    Except String StateDiff := do
  let cell ← loadAndGuard w.state cellId agentId sender oldComm
  checkOwnerStake w.state cell
  failIf (sender ≠ slotOf cell "o") "Only the owner can deposit into a private balance cell"
  checkAmount amount "deposit amount"
  let account ← okOr w.state.accounts[sender]? "Sender not found"
  failIf (account.balance < amount) "Insufficient on-chain balance for deposit"
  checkNewNonce newNonce (readCommitNonce cell)
  failIf (newComm = 0) "new_commitment must be non-zero"
  failIf (newEnc.length ≠ ciphertextLen) s!"new_encrypted_balance must be {ciphertextLen} bytes"
  let newDeposited ← okOr (checkedAdd (readSlotU128 cell.storage (pbKey "td")) amount)
    "TOTAL_DEPOSITED overflow"
  checkBalance newDeposited "total_deposited"
  let cipher ← packCiphertext newEnc
  pure
    { accountUpdates := fromList [(sender, { account with balance := account.balance - amount })]
      nativeDebits := [(sender, amount)]
      cellUpdates := [.storageChange cellId (fromList
        (balanceSlots newComm cipher newNonce ++ [(pbKey "td", some (packU128 newDeposited))]))]
      cuFee := w.globals.getU64 env "gas.transfer" }

/-- `circuit_withdraw`. -/
def circuitWithdraw (env : Env) (w : World) (sender cellId agentId : AccountId) (amount : ℕ)
    (recipient : AccountId) (newEnc : Bytes) (newComm : Bytes32) (newNonce : BitVec 128)
    (oldComm : Bytes32) : Except String StateDiff := do
  let cell ← loadAndGuard w.state cellId agentId sender oldComm
  checkOwnerStake w.state cell
  checkAmount amount "withdrawal amount"
  checkNewNonce newNonce (readCommitNonce cell)
  failIf (newComm = 0) "new_commitment must be non-zero"
  failIf (newEnc.length ≠ ciphertextLen) s!"new_encrypted_balance must be {ciphertextLen} bytes"
  let account ← okOr w.state.accounts[recipient]? "Recipient not found"
  let newBalance ← okOr (checkedAdd account.balance amount) "Recipient balance overflow"
  checkBalance newBalance "recipient new balance"
  let newWithdrawn ← okOr (checkedAdd (readSlotU128 cell.storage (pbKey "tw")) amount)
    "TOTAL_WITHDRAWN overflow"
  checkBalance newWithdrawn "total_withdrawn"
  let cipher ← packCiphertext newEnc
  pure
    { accountUpdates := fromList [(recipient, { account with balance := newBalance })]
      nativeTransfers := [(recipient, amount)]
      cellUpdates := [.storageChange cellId (fromList
        (balanceSlots newComm cipher newNonce ++ [(pbKey "tw", some (packU128 newWithdrawn))]))]
      cuFee := w.globals.getU64 env "gas.transfer" }

/-- `circuit_confidential_transfer`. -/
def circuitConfidentialTransfer (env : Env) (w : World)
    (sender senderCellId senderAgentId recipientCellId : AccountId) (amountCommitment : Bytes32)
    (starkProof sNewEnc : Bytes) (sNewComm : Bytes32) (sNewNonce : BitVec 128) (sOldComm : Bytes32)
    (rNewEnc : Bytes) (rNewComm : Bytes32) (rNewNonce : BitVec 128) (rOldComm : Bytes32) :
    Except String StateDiff := do
  let sCell ← loadAndGuard w.state senderCellId senderAgentId sender sOldComm
  checkOwnerStake w.state sCell
  let rCell ← okOr w.state.cells.cells[recipientCellId]?
    ("Recipient cell " ++ hexEncode recipientCellId ++ " not found")
  failIf (flagAt rCell.storage (pbKey "L") ≠ 1) "Recipient cell not initialized"
  failIf (rOldComm ≠ slotOf rCell "c") "recipient_old_commitment mismatch"
  failIf (senderCellId = recipientCellId) "Sender and recipient cells must be different"
  checkNewNonce sNewNonce (readCommitNonce sCell)
  checkNewNonce rNewNonce (readCommitNonce rCell)
  failIf (sNewComm = 0) "sender new_commitment must be non-zero"
  failIf (rNewComm = 0) "recipient new_commitment must be non-zero"
  failIf (amountCommitment = 0) "amount_commitment must be non-zero"
  failIf (sNewEnc.length ≠ ciphertextLen) s!"sender new_encrypted must be {ciphertextLen} bytes"
  failIf (rNewEnc.length ≠ ciphertextLen) s!"recipient new_encrypted must be {ciphertextLen} bytes"
  failIf (starkProof = []) "STARK proof is empty"
  failIf (maxProofBytes < starkProof.length)
    s!"STARK proof too large: {starkProof.length} bytes (max {maxProofBytes})"
  env.verifyCtProof starkProof [sOldComm, sNewComm, rOldComm, rNewComm, amountCommitment]
  let newCtOut ← okOr (checkedAdd (readSlotU128 sCell.storage (pbKey "to")) 1) "TOTAL_CT_OUT overflow"
  let sCipher ← packCiphertext sNewEnc
  let rCipher ← packCiphertext rNewEnc
  pure
    { cellUpdates :=
        [.storageChange senderCellId (fromList
          (balanceSlots sNewComm sCipher sNewNonce ++ [(pbKey "to", some (packU128 newCtOut))])),
          .storageChange recipientCellId (fromList (balanceSlots rNewComm rCipher rNewNonce))]
      cuFee := w.globals.getU64 env "gas.transfer" * 3 }

end TruthLinked.Ledger.PrivateBalance
