import TruthLinked.Governance.Types
import TruthLinked.Staking.State
import Mathlib.Data.List.Sort

/-! # Oracle requests and tallies

`truthlinked-oracle/src/http_oracle.rs`: the commit-reveal records and the stake tally of a request.
The code walks hash maps; the model walks them in key order, which is one of the orders the code may
take. -/

namespace TruthLinked.Oracle.Tally

open Core.Types Governance.Types Staking.State

/-- `OracleRequest`. -/
structure OracleRequest where
  requestId : Bytes32
  url : String
  method : String
  body : Bytes
  responseFormat : UrlResponseFormat
  schemaId : Option Bytes32
  requestedAt : ℕ
  expiresAt : ℕ
  requestingCell : AccountId
  deriving DecidableEq

/-- `OracleCommit`. -/
structure OracleCommit where
  requestId : Bytes32
  commitHash : Bytes32
  validatorPk : Bytes
  committedAt : ℕ
  deriving DecidableEq

/-- `OracleReveal`. -/
structure OracleReveal where
  requestId : Bytes32
  responseBody : Bytes
  responseStatus : ℕ
  validatorPk : Bytes
  revealedAt : ℕ
  deriving DecidableEq

/-- `OracleResult`. -/
structure OracleResult where
  requestId : Bytes32
  url : String
  method : String
  responseBody : Bytes
  responseStatus : ℕ
  bodyHash : Bytes32
  finalizedAt : ℕ
  expiresAt : ℕ
  quorumStakeNum : ℕ
  quorumStakeDen : ℕ
  requestingCell : AccountId
  deriving DecidableEq

/-- `OracleTally`. -/
structure OracleTally where
  requestId : Bytes32
  commits : Map Bytes Bytes32
  reveals : Map Bytes (Bytes × ℕ)
  committedStake : ℕ
  totalStake : ℕ
  commitPhaseClosed : Bool
  deriving DecidableEq

/-- What a tally uses of third-party code: the hash, and the reading and writing of JSON prices. -/
structure TallyEnv where
  blake3 : Bytes → Bytes32
  parsePriceUsdMicros : Bytes → Option ℕ
  priceUsdBody : ℕ → ℕ → Bytes

/-- `compute_commit_hash`. -/
def computeCommitHash (env : TallyEnv) (validatorPk : Bytes) (reqId : Bytes32) (responseBody : Bytes)
    (responseStatus : ℕ) : Bytes32 :=
  env.blake3 ("oracle:commit:".toUTF8.toList ++ validatorPk ++ ofBytes32 reqId ++ responseBody ++
    leBytes 2 responseStatus)

/-- `request_id`. -/
def requestIdOf (env : TallyEnv) (url method : String) (body : Bytes) (format : UrlResponseFormat)
    (schemaId : Option Bytes32) : Bytes32 :=
  let tag := match format with
    | .raw => "raw"
    | .jsonCanonical => "json"
    | .priceUsd => "price_usd"
  env.blake3 ("oracle:request:".toUTF8.toList ++ url.toUTF8.toList ++ ":".toUTF8.toList ++
    method.toUTF8.toList ++ ":".toUTF8.toList ++ body ++ ":".toUTF8.toList ++ tag.toUTF8.toList ++
    match schemaId with
    | some id => ":schema:".toUTF8.toList ++ ofBytes32 id
    | none => [])

/-- `OracleTally::commit_quorum_reached`. -/
def OracleTally.commitQuorumReached (t : OracleTally) (quorumPercent : ℕ) : Bool :=
  t.totalStake ≠ 0 ∧ quorumPercent ≤ t.committedStake * 100 % u64 / t.totalStake

/-- The reveals that match their commit, with the stake of their validator. -/
def OracleTally.matching (env : TallyEnv) (t : OracleTally) (staking : StakingState) :
    List (Bytes × ℕ × ℕ) :=
  (t.reveals.toList.filter fun (pk, body, status) =>
    decide (t.commits[pk]? = some (computeCommitHash env pk t.requestId body status))).map
    fun (pk, body, status) => (body, status, staking.stakeAt pk)

/-- The stake behind each body hash; the first reveal of a body gives its status. -/
def tallyBodies (env : TallyEnv) (reveals : List (Bytes × ℕ × ℕ)) : Map Bytes32 (Bytes × ℕ × ℕ) :=
  reveals.foldl (fun m (body, status, stake) =>
    m.alter (env.blake3 body) fun
      | some (b, s, n) => some (b, s, (n + stake) % u64)
      | none => some (body, status, stake)) ∅

/-- `PRICE_TOLERANCE_BPS`. -/
def priceToleranceBps : ℕ := 10

/-- The stake of the samples from `anchor` on that lie within `tolerance`, and their number. -/
def window (anchor tolerance : ℕ) : List (ℕ × ℕ × ℕ) → ℕ → ℕ × ℕ
  | [], stake => (0, stake)
  | (price, s, _) :: rest, stake =>
    if price - anchor ≤ tolerance then
      let (n, total) := window anchor tolerance rest (satAdd64 stake s)
      (n + 1, total)
    else (0, stake)

/-- The window with the most stake, the earliest of equals: start, length, stake. -/
def bestWindow : List (ℕ × ℕ × ℕ) → ℕ → Option (ℕ × ℕ × ℕ) → Option (ℕ × ℕ × ℕ)
  | [], _, best => best
  | sample :: rest, start, best =>
    let anchor := max sample.1 1
    let (n, stake) := window anchor (anchor * priceToleranceBps / 10000 % u64) (sample :: rest) 0
    let better := match best with
      | some (_, _, bestStake) => decide (bestStake < stake)
      | none => true
    bestWindow rest (start + 1) (if better then some (start, n, stake) else best)

/-- The price at which the running stake first reaches `target`. -/
def weightedMedian (target : ℕ) : List (ℕ × ℕ × ℕ) → ℕ → ℕ → ℕ
  | [], _, median => median
  | (price, stake, _) :: rest, cumulative, median =>
    let cumulative' := satAdd64 cumulative stake
    if target ≤ cumulative' then price else weightedMedian target rest cumulative' median

/-- The reveals as price samples: a reveal without a commit ends the whole attempt, a reveal that does
not match its commit, of no stake or without a price is skipped. -/
def priceSamples (env : TallyEnv) (t : OracleTally) (staking : StakingState) :
    List (Bytes × Bytes × ℕ) → Option (List (ℕ × ℕ × ℕ))
  | [] => some []
  | (pk, body, status) :: rest =>
    match t.commits[pk]? with
    | none => none
    | some commitHash =>
      if computeCommitHash env pk t.requestId body status ≠ commitHash ∨ staking.stakeAt pk = 0 then
        priceSamples env t staking rest
      else
        match env.parsePriceUsdMicros body, priceSamples env t staking rest with
        | some price, some samples => some ((price, staking.stakeAt pk, status) :: samples)
        | none, some samples => some samples
        | _, none => none

/-- `try_finalize_price_usd` along a walk of the reveals. -/
def priceIn (env : TallyEnv) (t : OracleTally) (staking : StakingState) (quorumPercent : ℕ)
    (reveals : List (Bytes × Bytes × ℕ)) : Option (Bytes × ℕ × ℕ × ℕ) :=
  let totalStake := staking.activeTotal
  if totalStake = 0 then none
  else
    match priceSamples env t staking reveals with
    | none => none
    | some unsorted =>
      let samples := unsorted.mergeSort fun a b => decide (a.1 ≤ b.1)
      match bestWindow samples 0 none with
      | none => none
      | some (start, n, agreeing) =>
        if agreeing * 100 % u64 / totalStake < quorumPercent then none
        else
          let span := (samples.drop start).take n
          let median := weightedMedian (satAdd64 agreeing 1 / 2) span 0 ((span.map Prod.fst).headD 0)
          let status := ((span.find? fun x => decide (x.1 = median)).map fun x => x.2.2).getD 200
          some (env.priceUsdBody median n, status, agreeing, totalStake)

/-- `OracleTally::try_finalize_price_usd`. -/
def OracleTally.tryFinalizePriceUsd (env : TallyEnv) (t : OracleTally) (staking : StakingState)
    (quorumPercent : ℕ) : Option (Bytes × ℕ × ℕ × ℕ) :=
  priceIn env t staking quorumPercent t.reveals.toList

/-- `OracleTally::try_finalize_with_format`: body, status, agreeing stake and total stake. -/
def OracleTally.tryFinalizeWithFormat (env : TallyEnv) (t : OracleTally) (staking : StakingState)
    (format : UrlResponseFormat) (quorumPercent : ℕ) : Option (Bytes × ℕ × ℕ × ℕ) :=
  if format = .priceUsd then t.tryFinalizePriceUsd env staking quorumPercent
  else
    let totalStake := staking.activeTotal
    if totalStake = 0 then none
    else
      ((tallyBodies env (t.matching env staking)).toList.find? fun (_, _, _, agreeing) =>
        decide (quorumPercent ≤ agreeing * 100 % u64 / totalStake)).map
        fun (_, body, status, agreeing) => (body, status, agreeing, totalStake)

end TruthLinked.Oracle.Tally
