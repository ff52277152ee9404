import TruthLinked.Ledger.ComputeCells
import TruthLinked.Lib.SortKey

/-! # The batch that leaves the mempool

`batch_timer_task` of `streaming_consensus.rs`: the order in which the drained transactions are looked at, the
nonce gate that they pass, and the size that the batch is cut to. Serialisation into a growing buffer does not
fail, so every transaction has a hash. -/

namespace TruthLinked.Consensus.Mempool

open Core.Types Staking.State Ledger.Model Ledger.ComputeCells Lib.SortKey

/-- `TxLifecycleStatus`. -/
inductive TxLifecycleStatus where
  | pending (sinceHeight : ℕ)
  | confirmed
  | rejected (reason : String)
  deriving DecidableEq

section
variable (env : Env)

/-- `compute_tx_hash`. -/
def computeTxHash (tx : Transaction) : Bytes32 := txHashOf env tx

/-- `gp::get_usize(gp::PARAM_MAX_BATCH_SIZE)`. -/
def maxBatchSize (w : World) : ℕ := w.globals.getU64 env "consensus.max_batch_size"

/-- The order in which the drained transactions are looked at: by sender, nonce and hash. -/
def gateOrder (batch : List Transaction) : List Transaction :=
  sortByKey (fun tx => (tx.sender, tx.nonce, computeTxHash env tx)) batch

/-- The locals of the nonce gate of `batch_timer_task`. -/
structure Gate where
  todo : List Transaction
  current : Option (AccountId × ℕ) := none
  executable : List Transaction := []
  deferred : List Transaction := []
  rejections : List (Bytes32 × TxLifecycleStatus) := []

/-- The nonce that the gate expects of a sender: the one after the last it let through, else the one after
the committed one. -/
def Gate.expected (g : Gate) (w : World) (sender : AccountId) : ℕ :=
  match g.current with
  | some (s, n) => if s = sender then n else satAdd64 ((w.state.accounts[sender]?.map (·.nonce)).getD 0) 1
  | none => satAdd64 ((w.state.accounts[sender]?.map (·.nonce)).getD 0) 1

/-- A transaction with the expected nonce is let through. -/
def Gate.pass (g : Gate) (tx : Transaction) (expected : ℕ) : Gate :=
  { g with current := some (tx.sender, satAdd64 expected 1), executable := g.executable ++ [tx] }

/-- A transaction is rejected; the nonce that is expected stays. -/
def Gate.reject (g : Gate) (tx : Transaction) (expected : ℕ) (reason : String) : Gate :=
  { g with
    current := some (tx.sender, expected)
    rejections := g.rejections ++ [(computeTxHash env tx, .rejected reason)] }

/-- A transaction waits for a lower nonce that is in flight. -/
def Gate.defer (g : Gate) (tx : Transaction) (expected : ℕ) : Gate :=
  { g with current := some (tx.sender, expected), deferred := g.deferred ++ [tx] }

/-- The gate after the transactions `todo`, and the first of them that comes before its nonce is
expected, with the nonce that is. -/
def gateUntilGap (w : World) : List Transaction → Gate → Gate × Option (Transaction × ℕ)
  | [], g => ({ g with todo := [] }, none)
  | tx :: txs, g =>
    let expected := g.expected w tx.sender
    if tx.nonce = expected then gateUntilGap w txs (g.pass tx expected)
    else if expected < tx.nonce then ({ g with todo := txs }, some (tx, expected))
    else
      gateUntilGap w txs
        (g.reject env tx expected s!"stale nonce {tx.nonce} below expected {expected}")

/-- The target size of a batch after one that took `lastMs`. Below a maximum of 1000 the `clamp` panics, and
this is the maximum. -/
def adaptiveTarget (w : World) (lastMs len : ℕ) : ℕ := min (max (len * 200 / lastMs) 1000) (maxBatchSize env w)

/-- How much of the batch is kept; the excess goes back to the mempool. -/
def splitExcess (w : World) (lastMs : ℕ) (batch : List Transaction) : List Transaction × List Transaction :=
  if 200 < lastMs ∧ adaptiveTarget env w lastMs batch.length < batch.length then
    (batch.take (adaptiveTarget env w lastMs batch.length),
      batch.drop (adaptiveTarget env w lastMs batch.length))
  else (batch, [])

end

end TruthLinked.Consensus.Mempool
