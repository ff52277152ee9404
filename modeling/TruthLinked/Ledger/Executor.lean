import TruthLinked.Ledger.ComputeCells
import TruthLinked.Ledger.Apply
import TruthLinked.Runtime.CompilerAware

/-! # The batch executors

`truthlinked-state/src/parallel_executor.rs`: the sequential executor applies one diff after the other; the
parallel one computes all diffs on the state before the batch, composes them and merges the composition. How
the work is divided among threads is a parameter: any tree over the parts of the batch (`Split`). Times are
left out. -/

namespace TruthLinked.Ledger.Executor

open Core.Types Core.Manifest Runtime.Types Runtime.CompilerAware Ledger.Model Ledger.Apply
open Ledger.ComputeCells Lib.Except Lib.Wp

/-- `BatchResult`, with the world that the batch leaves. -/
structure BatchResult where
  world : World
  applied : ℕ
  failed : List (ℕ × String)
  totalFees : ℕ

/-! ## The sequential executor -/

/-- `diff_total_fees`. -/
def diffTotalFees (d : StateDiff) : ℕ :=
  satAdd (satAdd (satAdd d.gasFee d.nameFee) d.computeFeeTlkd) d.treasuryFee

/-- One transaction: its fees or the reason it failed, and the world it leaves. -/
def runTransaction (env : Env) (tx : Transaction) (w : World) : Except String ℕ × World :=
  match computeTransactionDiffSkipSig env w tx with
  | .error e => (.error e, w)
  | .ok d =>
    match outcome (applyDiff env d) w with
    | (.ok (), w') => (.ok (diffTotalFees d), w')
    | (.error e, w') => (.error e, w')

/-- The loop of `execute_sequential`, from position `idx` on. -/
def sequentialLoop (env : Env) : List Transaction → ℕ → World → List (ℕ × String) → ℕ →
    World × List (ℕ × String) × ℕ
  | [], _, w, failed, fees => (w, failed, fees)
  | tx :: txs, idx, w, failed, fees =>
    match runTransaction env tx w with
    | (.ok n, w') => sequentialLoop env txs (idx + 1) w' failed (satAdd fees n)
    | (.error e, w') => sequentialLoop env txs (idx + 1) w' (failed ++ [(idx, e)]) fees

/-- `execute_sequential`. -/
def executeSequential (env : Env) (w : World) (batch : List Transaction) : BatchResult :=
  let r := sequentialLoop env batch 0 w [] 0
  { world := r.1, applied := batch.length - r.2.1.length, failed := r.2.1, totalFees := r.2.2 }

/-! ## Composition of diffs -/

/-- What the threads pass on: errors, the number of diffs, and the composed diff. -/
structure Composed where
  errors : List (ℕ × String) := []
  count : ℕ := 0
  diff : StateDiff := {}

/-- The mark of a conflict. -/
def fallback : ℕ × String := (0, "PARTITION_FALLBACK")

/-- `map.insert` of every entry, unless one is there already. -/
def insertNew {K V : Type} [Ord K] [Std.TransOrd K] (m : Map K V) (l : List (K × V)) : Option (Map K V) :=
  l.foldlM (fun m (k, v) => if k ∈ m then none else some (m.insert k v)) m

/-- The storage deltas of two diffs. -/
def composeDeltas (c d : Map AccountId StorageDelta) : Map AccountId StorageDelta :=
  d.toList.foldl (fun m (cellId, delta) =>
    m.insert cellId (composeDelta ((m[cellId]?).getD ∅) delta)) c

/-- The lists and fees of two diffs. Hashes, account and NFT records are left to the caller; minted amounts
and parameter updates are not composed. -/
def compose (c d : StateDiff) : StateDiff :=
  { c with
    nativeTransfers := c.nativeTransfers ++ d.nativeTransfers
    nativeDebits := c.nativeDebits ++ d.nativeDebits
    computeEscrowCredits := c.computeEscrowCredits ++ d.computeEscrowCredits
    computeEscrowDebits := c.computeEscrowDebits ++ d.computeEscrowDebits
    tokenCredits := c.tokenCredits ++ d.tokenCredits
    tokenBalanceUpdates := c.tokenBalanceUpdates ++ d.tokenBalanceUpdates
    stakingRewards := c.stakingRewards ++ d.stakingRewards
    cellCredits := c.cellCredits ++ d.cellCredits
    cellDebits := c.cellDebits ++ d.cellDebits
    stakingUpdates := c.stakingUpdates ++ d.stakingUpdates
    cellUpdates := c.cellUpdates ++ d.cellUpdates
    pendingNameProposals := c.pendingNameProposals ++ d.pendingNameProposals
    nameVotes := c.nameVotes ++ d.nameVotes
    pendingTokenAuthorityProposals :=
      c.pendingTokenAuthorityProposals ++ d.pendingTokenAuthorityProposals
    tokenAuthorityVotes := c.tokenAuthorityVotes ++ d.tokenAuthorityVotes
    nameRenewals := c.nameRenewals ++ d.nameRenewals
    nameTransfers := c.nameTransfers ++ d.nameTransfers
    frozenAccountUpdates := c.frozenAccountUpdates ++ d.frozenAccountUpdates
    oracleUpdates := c.oracleUpdates ++ d.oracleUpdates
    nonceUpdates := c.nonceUpdates ++ d.nonceUpdates
    airdropClaims := c.airdropClaims ++ d.airdropClaims
    gasFee := (c.gasFee + d.gasFee) % u128
    nameFee := (c.nameFee + d.nameFee) % u128
    cuFee := satAdd c.cuFee d.cuFee
    treasuryFee := satAdd c.treasuryFee d.treasuryFee
    computeFeeTlkd := satAdd c.computeFeeTlkd d.computeFeeTlkd
    gasFeeSpent := satAdd c.gasFeeSpent d.gasFeeSpent
    nameFeeSpent := satAdd c.nameFeeSpent d.nameFeeSpent
    computeFeeSpent := satAdd c.computeFeeSpent d.computeFeeSpent
    treasuryFeeSpent := satAdd c.treasuryFeeSpent d.treasuryFeeSpent
    isSystem := c.isSystem || d.isSystem
    storageDeltas := composeDeltas c.storageDeltas d.storageDeltas }

/-- A diff composed with another, unless both write an account or an NFT. -/
def composeRecords (c d : StateDiff) : Option StateDiff := do
  let accounts ← insertNew c.accountUpdates d.accountUpdates.toList
  let nfts ← insertNew c.nftUpdates d.nftUpdates.toList
  some { compose c d with accountUpdates := accounts, nftUpdates := nfts }

/-- The diffs of one part, added to a bucket. After a conflict the rest of the part is skipped; the diff
composed so far is not used any more, since a conflict sends the whole batch to the sequential executor. -/
def foldDiffs : List StateDiff → Composed → Composed
  | [], acc => acc
  | d :: ds, acc =>
    if d.txHash ∈ acc.diff.txHashes then
      foldDiffs ds
        { acc with
          count := acc.count - 1
          errors := acc.errors ++ [(0, "in-batch replay rejected: " ++ hexEncode d.txHash)] }
    else
      match composeRecords acc.diff d with
      | none => { acc with errors := acc.errors ++ [fallback] }
      | some c => foldDiffs ds { acc with diff := { c with txHashes := c.txHashes.insert d.txHash } }

/-- The diffs and errors of one part of the batch. -/
abbrev PartResult := List StateDiff × List (ℕ × String)

/-- The step of the fold. -/
def foldPart (acc : Composed) (part : PartResult) : Composed :=
  foldDiffs part.1 { acc with count := acc.count + part.1.length, errors := acc.errors ++ part.2 }

/-- The replays that the join of two buckets reports, and the hashes after it. -/
def joinHashes (hashes : FSet Bytes32) (l : List Bytes32) : FSet Bytes32 × List (ℕ × String) :=
  l.foldl (fun (hashes, errors) h =>
    if h ∈ hashes then
      (hashes, errors ++ [(0, "in-batch replay rejected (reduce): " ++ hexEncode h)])
    else (hashes.insert h, errors)) (hashes, [])

/-- The join of two buckets. -/
def joinBuckets (a b : Composed) : Composed :=
  let hashes := joinHashes a.diff.txHashes b.diff.txHashes.toList
  let errors := a.errors ++ b.errors ++ hashes.2
  match composeRecords a.diff b.diff with
  | none => { errors := errors ++ [fallback], count := a.count + b.count, diff := a.diff }
  | some c => { errors := errors, count := a.count + b.count, diff := { c with txHashes := hashes.1 } }

/-- A division of a list of work items among threads: buckets of neighbours, joined in a tree. -/
inductive Split (α : Type) where
  | bucket (items : List α)
  | join (left right : Split α)

/-- The work items of a division, in order. -/
def Split.flatten {α : Type} : Split α → List α
  | .bucket items => items
  | .join left right => left.flatten ++ right.flatten

/-- The fold and the reduction over a division of the parts. -/
def composeSplit : Split PartResult → Composed
  | .bucket parts => joinBuckets {} (parts.foldl foldPart {})
  | .join left right => joinBuckets (composeSplit left) (composeSplit right)

/-! ## The parallel executor -/

/-- `compact_account_u128_pairs`. -/
def compactPairs {K : Type} [Ord K] [Std.TransOrd K] (label : String) (l : List (K × ℕ)) :
    Except String (List (K × ℕ)) :=
  if l.length ≤ 1 then pure l
  else do
    let m ← l.foldlM (fun (m : Map K ℕ) (k, n) => do
      let total ← okOr (checkedAdd ((m[k]?).getD 0) n) label
      pure (m.insert k total)) ∅
    pure m.toList

/-- `compact_token_credit_triples`. -/
def compactTriples (l : List (AccountId × AccountId × ℕ)) :
    Except String (List (AccountId × AccountId × ℕ)) := do
  let pairs ← compactPairs "Token credit overflow during merge compaction"
    (l.map fun (token, account, n) => ((token, account), n))
  pure (pairs.map fun ((token, account), n) => (token, account, n))

/-- The payment lists of the composed diff, one entry for each account. -/
def compact (d : StateDiff) : Except String StateDiff := do
  let transfers ← compactPairs "Native transfer overflow" d.nativeTransfers
  let debits ← compactPairs "Native debit overflow" d.nativeDebits
  let escrowCredits ← compactPairs "Compute escrow credit overflow" d.computeEscrowCredits
  let escrowDebits ← compactPairs "Compute escrow debit overflow" d.computeEscrowDebits
  let rewards ← compactPairs "Staking reward overflow" d.stakingRewards
  let cellCredits ← compactPairs "Cell credit overflow" d.cellCredits
  let tokenCredits ← compactTriples d.tokenCredits
  pure
    { d with
      nativeTransfers := transfers
      nativeDebits := debits
      computeEscrowCredits := escrowCredits
      computeEscrowDebits := escrowDebits
      stakingRewards := rewards
      cellCredits := cellCredits
      tokenCredits := tokenCredits }

/-- The diffs and errors of one part, computed on the world before the batch. -/
def computePart (env : Env) (w : World) (batch : List Transaction) (part : List ℕ) : PartResult :=
  part.foldl (fun (diffs, errors) idx =>
    match batch[idx]? with
    | none => (diffs, errors)
    | some tx =>
      match computeTransactionDiffSkipSig env w tx with
      | .ok d => (diffs ++ [d], errors)
      | .error e => (diffs, errors ++ [(idx, e)])) ([], [])

/-- The results of all parts. -/
def computeParts (env : Env) (w : World) (batch : List Transaction) : List PartResult :=
  (partitionByCompilerDomains batch w.state.cells.cells).map (computePart env w batch)

/-- The composed diff merged into the world. -/
def mergeComposed (env : Env) (w : World) (c : Composed) : Except String BatchResult := do
  let d ← compact c.diff
  match outcome (mergeDiffInplace env d) w with
  | (.ok (), w') => pure { world := w', applied := c.count, failed := c.errors, totalFees := diffTotalFees d }
  | (.error e, _) => throw ("Merge failed after partial execution: " ++ e)

/-- `execute_batch_parallel`, where `split` is how the threads divide the parts. -/
def executeBatchParallel (env : Env) (split : List PartResult → Split PartResult) (w : World)
    (batch : List Transaction) : Except String BatchResult :=
  if batch = [] then pure { world := w, applied := 0, failed := [], totalFees := 0 }
  else if batch.length < 8 then pure (executeSequential env w batch)
  else if ¬ (batch.map Transaction.sender).Nodup then pure (executeSequential env w batch)
  else
    let c := composeSplit (split (computeParts env w batch))
    if c.errors.any fun e => e.2 == fallback.2 then pure (executeSequential env w batch)
    else mergeComposed env w c

end TruthLinked.Ledger.Executor
