import TruthLinked.Consensus.Types

/-! # Rounds of votes

`RoundState` of `round_state.rs`, the vote handlers of `streaming_consensus.rs` and the steps of
`bft_consensus_task`. Every wait of the task is a step of its own, so that votes of peers can be handled
between any two of them. Votes are taken as authentic: the signature check is that a vote of a correct
validator was cast by it. The tallies are `u64` sums and wrap. Hash maps are walked in key order, which is
one of the orders the code may take. -/

namespace TruthLinked.Consensus.Rounds

open Core.Types Staking.State Consensus.Types

/-- `Step`. -/
inductive Step where
  | propose
  | prevote
  | precommit
  | committed
  deriving DecidableEq

/-- `Vote`; a vote without a block hash is a nil vote. -/
structure Vote where
  height : ℕ
  round : ℕ
  blockHash : Option Bytes32
  validatorPubkey : Bytes
  deriving DecidableEq

/-- The votes by round and validator. -/
abbrev VoteTable := Map ℕ (Map Bytes Vote)

/-- `RoundState`. -/
structure RoundState where
  height : ℕ
  round : ℕ
  step : Step
  proposal : Option Bytes32
  prevotes : VoteTable
  precommits : VoteTable
  lockedBlock : Option Bytes32
  lockedRound : ℤ

/-! ## Tables of votes -/

/-- The votes of one round. -/
def votesIn (table : VoteTable) (round : ℕ) : Map Bytes Vote := table[round]?.getD ∅

/-- Records a vote unless its validator has one in that round. -/
def addVote (table : VoteTable) (vote : Vote) : VoteTable :=
  let byVal := votesIn table vote.round
  table.insert vote.round
    (if byVal.contains vote.validatorPubkey then byVal else byVal.insert vote.validatorPubkey vote)

/-- The stake behind `blockHash` in a round. -/
def voteStake (table : VoteTable) (round : ℕ) (blockHash : Option Bytes32) (stakeMap : StakeMap) : ℕ :=
  sum64 (((votesIn table round).toList.filter fun e => decide (e.2.blockHash = blockHash)).filterMap
    fun e => stakeMap[e.2.validatorPubkey]?)

/-- `prevote_quorum` and `precommit_quorum`: a block hash whose stake in a round reaches the threshold. -/
def voteQuorum (table : VoteTable) (round threshold : ℕ) (stakeMap : StakeMap) : Option Bytes32 :=
  ((votesIn table round).toList.filterMap fun e => e.2.blockHash).find? fun h =>
    decide (threshold ≤ voteStake table round (some h) stakeMap)

namespace RoundState

/-- `RoundState::new`. -/
def new (height : ℕ) : RoundState :=
  { height, round := 0, step := .propose, proposal := none, prevotes := ∅, precommits := ∅,
    lockedBlock := none, lockedRound := -1 }

/-- `next_round`: the lock is carried on. -/
def nextRound (rs : RoundState) : RoundState :=
  { rs with round := (rs.round + 1) % 2 ^ 32, step := .propose, proposal := none }

/-- `add_prevote`. -/
def addPrevote (rs : RoundState) (vote : Vote) : RoundState :=
  { rs with prevotes := addVote rs.prevotes vote }

/-- `add_precommit`. -/
def addPrecommit (rs : RoundState) (vote : Vote) : RoundState :=
  { rs with precommits := addVote rs.precommits vote }

/-- `prevote_stake`. -/
def prevoteStake (rs : RoundState) := voteStake rs.prevotes

/-- `should_prevote`: the lock allows a vote for the proposal. -/
def shouldPrevote (rs : RoundState) (proposalHash : Bytes32) (threshold : ℕ) (stakeMap : StakeMap) :
    Bool :=
  match rs.lockedBlock with
  | none => true
  | some locked =>
    decide (locked = proposalHash) ||
      rs.prevotes.keys.any fun r => decide (rs.lockedRound < r) &&
        decide (threshold ≤ rs.prevoteStake r (some proposalHash) stakeMap)

/-- The state in which a block of this height is voted on: the round starts over. -/
def restart (rs : RoundState) (hash : Bytes32) : RoundState :=
  { rs with proposal := some hash, step := .prevote, round := 0, prevotes := ∅, precommits := ∅ }

end RoundState

/-! ## Handling votes -/

/-- `MAX_BFT_ROUND`. -/
def maxBftRound : ℕ := 10

/-- Catches up with a round that a peer is in. -/
def fastForward (rs : RoundState) (round : ℕ) : RoundState :=
  if rs.round < round ∧ round ≤ maxBftRound then
    Nat.iterate RoundState.nextRound (round - rs.round) rs
  else rs

/-- `handle_prevote` of an authentic vote. A second vote of a validator in a round is only reported. -/
def handlePrevote (stakeMap : StakeMap) (rs : RoundState) (vote : Vote) : RoundState :=
  if stakeMap.contains vote.validatorPubkey = false then rs
  else if rs.height ≠ vote.height then rs
  else (fastForward rs vote.round).addPrevote vote

/-- `handle_precommit`. -/
def handlePrecommit (stakeMap : StakeMap) (rs : RoundState) (vote : Vote) : RoundState :=
  if stakeMap.contains vote.validatorPubkey = false then rs
  else if rs.height ≠ vote.height then rs
  else (fastForward rs vote.round).addPrecommit vote

/-- The sum of all stakes. -/
def totalStake (stakeMap : StakeMap) : ℕ := sum64 (stakeMap.toList.map Prod.snd)

/-- `(total * 2 / 3) + 1`. -/
def bftThreshold (stakeMap : StakeMap) : ℕ := totalStake stakeMap * 2 % u64 / 3 + 1

/-- The first round, up to the current one, with a quorum. -/
def bftQuorum (rs : RoundState) (table : VoteTable) (stakeMap : StakeMap) : Option Bytes32 :=
  if totalStake stakeMap = 0 then none
  else (List.range (rs.round + 1)).findSome? fun r => voteQuorum table r (bftThreshold stakeMap) stakeMap

/-- `bft_precommit_quorum`. -/
def bftPrecommitQuorum (stakeMap : StakeMap) (rs : RoundState) : Option Bytes32 :=
  bftQuorum rs rs.precommits stakeMap

/-! ## The task -/

/-- A vote on its way. -/
inductive Ballot where
  | prevote (vote : Vote)
  | precommit (vote : Vote)
  deriving DecidableEq

/-- The vote of a ballot. -/
def voteOf : Ballot → Vote
  | .prevote vote => vote
  | .precommit vote => vote

/-- A ballot of a peer, or of the validator itself, is handled. -/
def handleBallot (stakeMap : StakeMap) (rs : RoundState) : Ballot → RoundState
  | .prevote vote => handlePrevote stakeMap rs vote
  | .precommit vote => handlePrecommit stakeMap rs vote

/-- Where `bft_consensus_task` stands, with its local variables. -/
inductive Pc where
  | start
  | propose (height : ℕ)
  | prevote (height : ℕ)
  | voting (height round : ℕ) (proposal : Option Bytes32)
  | waitPrevotes (height round : ℕ)
  | precommit (height round : ℕ) (hash : Option Bytes32)
  | waitPrecommits (height round : ℕ)
  deriving DecidableEq

/-- What the task works on. -/
structure Voter where
  rs : RoundState
  pc : Pc
  finalizedHeight : ℕ

/-- The next move of the task. `found` is the block of the height on the canonical chain; `expired` says
that the time of the step is over. -/
inductive Move where
  | go
  | found (hash : Bytes32)
  | poll (expired : Bool)

/-- `broadcast_prevote` and `broadcast_precommit`: the own vote is handled, then sent. Only an active
validator votes. -/
def castBallot (stakeMap : StakeMap) (rs : RoundState) (self : Bytes) (ballot : Vote → Ballot)
    (height round : ℕ) (hash : Option Bytes32) : RoundState × List Ballot :=
  if stakeMap.contains self then
    (handleBallot stakeMap rs (ballot ⟨height, round, hash, self⟩), [ballot ⟨height, round, hash, self⟩])
  else (rs, [])

/-- What a wait for votes ends with: a quorum, the height having been finalised elsewhere (the zero hash then
stands for it), a nil quorum or the end of the time. -/
def endOfWait (stakeMap : StakeMap) (v : Voter) (height : ℕ) (table : VoteTable) (expired : Bool) :
    Option (Option Bytes32) :=
  match bftQuorum v.rs table stakeMap with
  | some h => some (some h)
  | none =>
    if height ≤ v.finalizedHeight then some (some 0)
    else if bftThreshold stakeMap ≤ voteStake table v.rs.round none stakeMap then some none
    else if expired then some none
    else none

/-- One step of `bft_consensus_task` of the validator `self`, with the ballots it casts. -/
def taskStep (stakeMap : StakeMap) (self : Bytes) (v : Voter) (m : Move) : Voter × List Ballot :=
  match v.pc, m with
  | .start, .go =>
    let height := v.finalizedHeight + 1
    ({ v with
        rs := if v.rs.height ≠ height then RoundState.new height else v.rs
        pc := .propose height }, [])
  | .propose height, .found hash => ({ v with rs := v.rs.restart hash, pc := .prevote height }, [])
  | .propose height, .poll true => ({ v with rs := { v.rs with step := .prevote }, pc := .prevote height }, [])
  | .prevote height, .go => ({ v with pc := .voting height v.rs.round v.rs.proposal }, [])
  | .voting height round proposal, .go =>
    let hash := match proposal with
      | some ph => if v.rs.shouldPrevote ph (bftThreshold stakeMap) stakeMap then some ph else none
      | none => none
    let cast := castBallot stakeMap v.rs self .prevote height round hash
    ({ v with rs := cast.1, pc := .waitPrevotes height round }, cast.2)
  | .waitPrevotes height round, .poll expired =>
    match endOfWait stakeMap v height v.rs.prevotes expired with
    | some hash => ({ v with pc := .precommit height round hash }, [])
    | none => (v, [])
  | .precommit height round hash, .go =>
    let rs := match hash with
      | some h => { v.rs with lockedBlock := some h, lockedRound := round, step := .precommit }
      | none => v.rs
    let cast := castBallot stakeMap rs self .precommit height round hash
    ({ v with rs := cast.1, pc := .waitPrecommits height round }, cast.2)
  | .waitPrecommits height _, .poll expired =>
    match endOfWait stakeMap v height v.rs.precommits expired with
    | some (some _) =>
      ({ v with
          rs := { v.rs with step := .committed }
          pc := .start
          finalizedHeight := max v.finalizedHeight height }, [])
    | some none => ({ v with rs := v.rs.nextRound, pc := .start }, [])
    | none => (v, [])
  | _, _ => (v, [])

end TruthLinked.Consensus.Rounds
