import TruthLinked.Consensus.ForkChoice
import TruthLinked.Consensus.Rounds

/-! # What one validator signs

One node without restart: the attestations of `send_attestation`, the inline votes of the leader's
commit and of `process_header_with_batch`, and the votes of `bft_consensus_task`, taken in any order with
the votes of peers. Beside its state the node carries a log of what it signed and of the voting passes it
began. An attestation is checked against the ones remembered, votes are not: a block that comes after the
time to propose it is voted on in round `0` again (`late_block_voted`). Where no voting pass and no
attestation comes back to a place that the node has left, it signs one statement of a kind for each height
and round (`no_equivocation`). -/

namespace TruthLinked.Consensus.Equivocation

open Core.Types Consensus.Types Consensus.ForkChoice Consensus.Rounds Lib.Run

variable {hash : Bytes32} {round : ℕ} {b : Ballot}

/-! ## The node -/

/-- A voting pass: the votes on one block outside the rounds, or one pass of the task. -/
inductive Pass where
  | inline (height : ℕ) (hash : Bytes32)
  | task (height round : ℕ)
  deriving DecidableEq

/-- The height and round that a pass votes in. -/
def Pass.place : Pass → ℕ × ℕ
  | .inline height _ => (height, 0)
  | .task height round => (height, round)

/-- An attestation as it is signed. -/
structure Statement where
  height : ℕ
  round : ℕ
  batchHash : Bytes32
  stateRoot : Bytes32
  deriving DecidableEq

/-- Inline votes that are still to be sent; `prevoted` when the first of the two is out. -/
structure InlineVote where
  height : ℕ
  hash : Bytes32
  prevoted : Bool

/-- The parts of a node that its votes depend on, and its log. -/
structure Node where
  voter : Voter
  chain : BlockChain
  signedAttestations : Map (ℕ × ℕ) (Bytes32 × Bytes32)
  inlineVotes : List InlineVote
  attested : List Statement
  cast : List Ballot
  passes : List Pass

/-- A node that has signed nothing yet. -/
structure Fresh (s : Node) : Prop where
  pc : s.voter.pc = .start
  signed : s.signedAttestations = ∅
  inlineVotes : s.inlineVotes = []
  attested : s.attested = []
  cast : s.cast = []
  passes : s.passes = []

/-- What can happen next. The outcomes of checks that are not modelled here come with the event: that a
header was `verified` against its batch and the state, and that a fork switch went through. -/
inductive NodeEvent where
  | attest (height round : ℕ) (batchHash stateRoot : Bytes32)
  | leaderCommit (header : BatchHeader) (totalStake : ℕ)
  | processHeader (header : BatchHeader) (totalStake : ℕ) (verified switchOk : Bool)
  | inlineVote (i : ℕ)
  | task (move : Move)
  | deliver (ballot : Ballot)

section Node
variable (self : Bytes) (stakeMap : StakeMap)

/-- `send_attestation`. -/
def sendAttestation (s : Node) (height round : ℕ) (batchHash stateRoot : Bytes32) : Node :=
  if stakeMap.contains self = false then s
  else match s.signedAttestations[(height, round)]? with
    | some _ => s
    | none =>
      { s with
        signedAttestations :=
          (s.signedAttestations.insert (height, round) (batchHash, stateRoot)).filter
            fun k _ => decide (height - 256 ≤ k.1)
        attested := s.attested ++ [⟨height, round, batchHash, stateRoot⟩] }

/-- `advance_finalized_height`. -/
def advanceFinalizedHeight (s : Node) (height : ℕ) : Node :=
  { s with
    voter := { s.voter with finalizedHeight := max s.voter.finalizedHeight height }
    chain := if s.voter.finalizedHeight < height then s.chain.finalizeHeight height else s.chain }

/-- The round state starts over for a committed block; `votes` says that votes on it follow. -/
def inlineBft (s : Node) (height : ℕ) (hash : Bytes32) (votes : Bool) : Node :=
  let rs := if s.voter.rs.height ≠ height then RoundState.new height else s.voter.rs
  let s := { s with voter := { s.voter with rs := rs.restart hash } }
  if votes then
    { s with
      inlineVotes := s.inlineVotes ++ [⟨height, hash, false⟩]
      passes := s.passes ++ [.inline height hash] }
  else s

/-- The end of the leader's commit, from `add_header` on. -/
def leaderCommit (s : Node) (header : BatchHeader) (totalStake : ℕ) : Node :=
  match s.chain.addHeader header with
  | (.error _, _) => s
  | (.ok _, chain) =>
    match chain.setCanonicalTip header.batchHash totalStake with
    | (.error _, chain) => { s with chain }
    | (.ok _, chain) =>
      inlineBft (advanceFinalizedHeight { s with chain } header.height) header.height header.batchHash
        (stakeMap.contains self)

/-- `process_header_with_batch`. -/
def processHeader (s : Node) (header : BatchHeader) (totalStake : ℕ) (verified switchOk : Bool) : Node :=
  if verified = false then s
  else match s.chain.addHeader header with
    | (.error _, _) => s
    | (.ok _, chain) =>
      match chain.setCanonicalTip header.batchHash totalStake with
      | (.error _, chain) => { s with chain }
      | (.ok (switched, _), chain) =>
        let s := { s with chain }
        if chain.canonicalTip ≠ header.batchHash then s
        else if switched && !switchOk then s
        else
          let votes := stakeMap.contains self && decide (header.leaderPubkey ≠ self)
          let s := if votes then
              sendAttestation self stakeMap s header.height header.leaderRound header.batchHash
                header.stateRoot
            else s
          inlineBft (advanceFinalizedHeight s header.height) header.height header.batchHash votes

/-- `broadcast_prevote` and `broadcast_precommit`. -/
def broadcast (s : Node) (ballot : Ballot) : Node :=
  { s with
    voter := { s.voter with rs := handleBallot stakeMap s.voter.rs ballot }
    cast := s.cast ++ [ballot] }

/-- The next of the two votes of an inline pass. -/
def sendInline (s : Node) (i : ℕ) : Node :=
  match s.inlineVotes[i]? with
  | none => s
  | some v =>
    if v.prevoted then
      broadcast stakeMap { s with inlineVotes := s.inlineVotes.eraseIdx i }
        (.precommit ⟨v.height, 0, some v.hash, self⟩)
    else
      broadcast stakeMap { s with inlineVotes := s.inlineVotes.set i { v with prevoted := true } }
        (.prevote ⟨v.height, 0, some v.hash, self⟩)

/-- The pass that the task begins with a move: the one in which it reads round and proposal. -/
def beginsPass (v : Voter) (m : Move) : List Pass :=
  match v.pc, m with
  | .prevote height, .go => [.task height v.rs.round]
  | _, _ => []

/-- A step of the node. -/
def nodeStep (s : Node) : NodeEvent → Node
  | .attest height round batchHash stateRoot => sendAttestation self stakeMap s height round batchHash stateRoot
  | .leaderCommit header totalStake => leaderCommit self stakeMap s header totalStake
  | .processHeader header totalStake verified switchOk =>
    processHeader self stakeMap s header totalStake verified switchOk
  | .inlineVote i => sendInline self stakeMap s i
  | .task move =>
    let r := taskStep stakeMap self s.voter move
    { s with voter := r.1, cast := s.cast ++ r.2, passes := s.passes ++ beginsPass s.voter move }
  | .deliver ballot =>
    { s with voter := { s.voter with rs := handleBallot stakeMap s.voter.rs ballot } }

end Node

/-- A step under the stakes of the moment. -/
def step (self : Bytes) (s : Node) (e : StakeMap × NodeEvent) : Node := nodeStep self e.1 s e.2

/-- The blocks that the votes of a step are on, if it begins an inline pass. -/
def inlineBlock : NodeEvent → Option (ℕ × Bytes32)
  | .leaderCommit header _ => some (header.height, header.batchHash)
  | .processHeader header _ true _ => some (header.height, header.batchHash)
  | _ => none

/-- The attestation that a step may sign. -/
def attestedHeight : NodeEvent → Option ℕ
  | .attest height _ _ _ => some height
  | .processHeader header _ true _ => some header.height
  | _ => none

/-- **Where the node does not equivocate**: a block is committed or processed at a height only if every
earlier pass in round `0` of the height was on that block, outside the rounds; the task begins a pass only
in a round without one; and nothing is attested more than 256 heights below an attestation. -/
structure NoReturn (s : Node) (e : StakeMap × NodeEvent) : Prop where
  inline : ∀ height hash, inlineBlock e.2 = some (height, hash) →
    ∀ p ∈ s.passes, p.place = (height, 0) → p = .inline height hash
  task : ∀ move, e.2 = .task move → ∀ p ∈ beginsPass s.voter move, ∀ q ∈ s.passes, q.place ≠ p.place
  attest : ∀ height, attestedHeight e.2 = some height → ∀ a ∈ s.attested, a.height ≤ height + 256

/-- Signed statements of one height and round are the same. -/
structure Consistent (s : Node) : Prop where
  attested : ∀ a ∈ s.attested, ∀ b ∈ s.attested, a.height = b.height → a.round = b.round →
    a.batchHash = b.batchHash ∧ a.stateRoot = b.stateRoot
  prevotes : ∀ a b : Vote, .prevote a ∈ s.cast → .prevote b ∈ s.cast → a.height = b.height →
    a.round = b.round → a.blockHash = b.blockHash
  precommits : ∀ a b : Vote, .precommit a ∈ s.cast → .precommit b ∈ s.cast → a.height = b.height →
    a.round = b.round → a.blockHash = b.blockHash

/-! ## Attestations -/

/-- The guard remembers every attestation that is not far below another one. -/
structure AttestInv (s : Node) : Prop where
  remembered : ∀ a ∈ s.attested, (∀ b ∈ s.attested, b.height ≤ a.height + 256) →
    s.signedAttestations[(a.height, a.round)]? = some (a.batchHash, a.stateRoot)
  agree : ∀ a ∈ s.attested, ∀ b ∈ s.attested, a.height = b.height → a.round = b.round →
    a.batchHash = b.batchHash ∧ a.stateRoot = b.stateRoot

theorem AttestInv.congr {s t : Node} (h : AttestInv s) (hs : t.signedAttestations = s.signedAttestations)
    (ha : t.attested = s.attested) : AttestInv t := by
  refine ⟨?_, ?_⟩
  · rw [ha, hs]
    exact h.remembered
  · rw [ha]
    exact h.agree

/-- **An attestation** that is not far below another one agrees with the ones signed before. -/
theorem AttestInv.sendAttestation {s : Node} (h : AttestInv s) (self : Bytes) (stakeMap : StakeMap)
    {height : ℕ} (round : ℕ) (batchHash stateRoot : Bytes32)
    (hnear : ∀ a ∈ s.attested, a.height ≤ height + 256) :
    AttestInv (sendAttestation self stakeMap s height round batchHash stateRoot) := by
  unfold Equivocation.sendAttestation
  split_ifs with hact
  · exact h
  · cases hget : s.signedAttestations[(height, round)]? with
    | some prev => exact h
    | none =>
      -- an earlier attestation of this place would be remembered
      have hnew : ∀ a ∈ s.attested, ¬ (a.height = height ∧ a.round = round) := by
        rintro a ha ⟨rfl, rfl⟩
        rw [h.remembered a ha hnear] at hget
        cases hget
      dsimp only
      refine ⟨?_, ?_⟩
      · intro a ha hall
        dsimp only at ha hall ⊢
        have hretain : height - 256 ≤ a.height := by
          have := hall ⟨height, round, batchHash, stateRoot⟩
            (List.mem_append_right _ (List.mem_singleton.mpr rfl))
          dsimp only at this
          omega
        rw [Std.ExtTreeMap.getElem?_filter', Std.ExtTreeMap.getElem?_insert]
        rcases List.mem_append.mp ha with ha | ha
        · have hne : ¬ compare (height, round) (a.height, a.round) = .eq := by
            intro hc
            have := Std.LawfulEqOrd.eq_of_compare hc
            rw [Prod.mk.injEq] at this
            exact hnew a ha ⟨this.1.symm, this.2.symm⟩
          rw [if_neg hne, h.remembered a ha fun b hb => hall b (List.mem_append_left _ hb)]
          simp [Option.filter, hretain]
        · obtain rfl := List.mem_singleton.mp ha
          rw [if_pos Std.ReflOrd.compare_self]
          simp [Option.filter]
      · intro a ha b hb hh hr
        dsimp only at ha hb
        rcases List.mem_append.mp ha with ha | ha <;> rcases List.mem_append.mp hb with hb | hb
        · exact h.agree a ha b hb hh hr
        · obtain rfl := List.mem_singleton.mp hb
          exact absurd ⟨hh, hr⟩ (hnew a ha)
        · obtain rfl := List.mem_singleton.mp ha
          exact absurd ⟨hh.symm, hr.symm⟩ (hnew b hb)
        · rw [List.mem_singleton.mp ha, List.mem_singleton.mp hb]
          exact ⟨rfl, rfl⟩

/-! ## Votes -/

/-- The height and round of a ballot. -/
def placeOf (b : Ballot) : ℕ × ℕ := ((voteOf b).height, (voteOf b).round)

/-- What the task may still sign: nothing is signed yet at the place of a pass before its prevote, and no
precommit before its precommit. -/
def PcInv (pc : Pc) (cast : List Ballot) (passes : List Pass) : Prop :=
  match pc with
  | .voting height round _ => .task height round ∈ passes ∧ ∀ b ∈ cast, placeOf b ≠ (height, round)
  | .waitPrevotes height round => .task height round ∈ passes ∧
      ∀ vote, .precommit vote ∈ cast → (vote.height, vote.round) ≠ (height, round)
  | .precommit height round _ => .task height round ∈ passes ∧
      ∀ vote, .precommit vote ∈ cast → (vote.height, vote.round) ≠ (height, round)
  | _ => True

/-- What every step keeps of the votes. -/
structure VoteInv (pc : Pc) (inlineVotes : List InlineVote) (cast : List Ballot) (passes : List Pass) :
    Prop where
  covered : ∀ b ∈ cast, ∃ p ∈ passes, p.place = placeOf b
  alone : ∀ height hash, .inline height hash ∈ passes →
    ∀ p ∈ passes, p.place = (height, 0) → p = .inline height hash
  inline : ∀ height hash, .inline height hash ∈ passes →
    ∀ b ∈ cast, placeOf b = (height, 0) → (voteOf b).blockHash = some hash
  pending : ∀ v ∈ inlineVotes, .inline v.height v.hash ∈ passes
  pc : PcInv pc cast passes
  prevotes : ∀ a b : Vote, .prevote a ∈ cast → .prevote b ∈ cast → a.height = b.height →
    a.round = b.round → a.blockHash = b.blockHash
  precommits : ∀ a b : Vote, .precommit a ∈ cast → .precommit b ∈ cast → a.height = b.height →
    a.round = b.round → a.blockHash = b.blockHash

section Votes
variable {pc : Pc} {inlineVotes : List InlineVote} {cast : List Ballot} {passes : List Pass}

theorem VoteInv.move (h : VoteInv pc inlineVotes cast passes) {pc' : Pc} (hpc : PcInv pc' cast passes) :
    VoteInv pc' inlineVotes cast passes :=
  ⟨h.covered, h.alone, h.inline, h.pending, hpc, h.prevotes, h.precommits⟩

theorem PcInv.passes_mono (h : PcInv pc cast passes) (more : List Pass) :
    PcInv pc cast (passes ++ more) := by
  unfold PcInv at h ⊢
  split at h
  · exact ⟨List.mem_append_left _ h.1, h.2⟩
  · exact ⟨List.mem_append_left _ h.1, h.2⟩
  · exact ⟨List.mem_append_left _ h.1, h.2⟩
  · trivial

/-- **An inline pass begins.** -/
theorem VoteInv.beginInline (h : VoteInv pc inlineVotes cast passes) {height : ℕ}
    (honly : ∀ p ∈ passes, p.place = (height, 0) → p = .inline height hash) :
    VoteInv pc (inlineVotes ++ [⟨height, hash, false⟩]) cast (passes ++ [.inline height hash]) := by
  have hmem : ∀ {p : Pass}, p ∈ passes ++ [.inline height hash] → p ∈ passes ∨ p = .inline height hash := by
    intro p hp
    rcases List.mem_append.mp hp with hp | hp
    · exact Or.inl hp
    · exact Or.inr (List.mem_singleton.mp hp)
  refine ⟨?_, ?_, ?_, ?_, h.pc.passes_mono _, h.prevotes, h.precommits⟩
  · intro b hb
    obtain ⟨p, hp, he⟩ := h.covered b hb
    exact ⟨p, List.mem_append_left _ hp, he⟩
  · intro height' hash' hin p hp hplace
    rcases hmem hin with hin | hin
    · rcases hmem hp with hp | rfl
      · exact h.alone height' hash' hin p hp hplace
      · -- the new pass falls on the place of an old inline pass
        cases hplace
        exact (honly _ hin rfl).symm
    · cases hin
      rcases hmem hp with hp | rfl
      · exact honly p hp hplace
      · rfl
  · intro height' hash' hin b hb hplace
    rcases hmem hin with hin | hin
    · exact h.inline height' hash' hin b hb hplace
    · cases hin
      obtain ⟨p, hp, he⟩ := h.covered b hb
      have := honly p hp (he.trans hplace)
      rw [this] at hp
      exact h.inline _ _ hp b hb hplace
  · intro v hv
    rcases List.mem_append.mp hv with hv | hv
    · exact List.mem_append_left _ (h.pending v hv)
    · rw [List.mem_singleton.mp hv]
      exact List.mem_append_right _ (List.mem_singleton.mpr rfl)

theorem VoteInv.inline_ne_task (h : VoteInv pc inlineVotes cast passes) {height height' : ℕ}
    (hin : .inline height hash ∈ passes) (htask : .task height' round ∈ passes) :
    (height, 0) ≠ (height', round) := by
  intro he
  have := h.alone height hash hin _ htask he.symm
  cases this

theorem agree_of_same {k : Vote → Ballot} (hk : ∀ v, voteOf (k v) = v)
    (hold : ∀ a b : Vote, k a ∈ cast → k b ∈ cast → a.height = b.height → a.round = b.round →
      a.blockHash = b.blockHash) {place : ℕ × ℕ}
    (hsame : ∀ c ∈ cast ++ [b], placeOf c = place → (voteOf c).blockHash = some hash)
    (hplace : placeOf b = place) (a c : Vote) (ha : k a ∈ cast ++ [b]) (hc : k c ∈ cast ++ [b])
    (hheight : a.height = c.height) (hround : a.round = c.round) : a.blockHash = c.blockHash := by
  have hac : placeOf (k a) = placeOf (k c) := by
    rw [placeOf, placeOf, hk, hk, hheight, hround]
  have hboth : placeOf (k c) = place → a.blockHash = c.blockHash := by
    intro hp
    have h1 := hsame _ ha (hac.trans hp)
    have h2 := hsame _ hc hp
    rw [hk] at h1 h2
    rw [h1, h2]
  rcases List.mem_append.mp ha with ha' | ha'
  · rcases List.mem_append.mp hc with hc' | hc'
    · exact hold a c ha' hc' hheight hround
    · exact hboth (by rw [List.mem_singleton.mp hc', hplace])
  · exact hboth (by rw [← hac, List.mem_singleton.mp ha', hplace])

/-- **A vote of an inline pass is sent.** -/
theorem VoteInv.castInline (h : VoteInv pc inlineVotes cast passes) {height : ℕ}
    (hin : .inline height hash ∈ passes) (hplace : placeOf b = (height, 0))
    (hhash : (voteOf b).blockHash = some hash) : VoteInv pc inlineVotes (cast ++ [b]) passes := by
  have hmem : ∀ {c : Ballot}, c ∈ cast ++ [b] → c ∈ cast ∨ c = b := by
    intro c hc
    rcases List.mem_append.mp hc with hc | hc
    · exact Or.inl hc
    · exact Or.inr (List.mem_singleton.mp hc)
  -- the votes at the place of the pass are on its block, the new one too
  have hsame : ∀ c ∈ cast ++ [b], placeOf c = (height, 0) → (voteOf c).blockHash = some hash := by
    intro c hc hp
    rcases hmem hc with hc | rfl
    · exact h.inline height hash hin c hc hp
    · exact hhash
  refine ⟨?_, h.alone, ?_, h.pending, ?_, ?_, ?_⟩
  · intro c hc
    rcases hmem hc with hc | rfl
    · exact h.covered c hc
    · exact ⟨_, hin, hplace.symm⟩
  · intro height' hash' hin' c hc hp
    rcases hmem hc with hc | rfl
    · exact h.inline height' hash' hin' c hc hp
    · have := h.alone height hash hin _ hin' (hp.symm.trans hplace)
      cases this
      exact hhash
  · have hpc := h.pc
    unfold PcInv at hpc ⊢
    split at hpc
    · refine ⟨hpc.1, fun c hc => ?_⟩
      rcases hmem hc with hc | rfl
      · exact hpc.2 c hc
      · rw [hplace]
        exact h.inline_ne_task hin hpc.1
    · refine ⟨hpc.1, fun vote hv => ?_⟩
      rcases hmem hv with hv | hv
      · exact hpc.2 vote hv
      · have hp : placeOf (.precommit vote) = (height, 0) := by rw [hv, hplace]
        exact fun he => h.inline_ne_task hin hpc.1 (hp.symm.trans he)
    · refine ⟨hpc.1, fun vote hv => ?_⟩
      rcases hmem hv with hv | hv
      · exact hpc.2 vote hv
      · have hp : placeOf (.precommit vote) = (height, 0) := by rw [hv, hplace]
        exact fun he => h.inline_ne_task hin hpc.1 (hp.symm.trans he)
    · trivial
  · exact agree_of_same (fun _ => rfl) h.prevotes hsame hplace
  · exact agree_of_same (fun _ => rfl) h.precommits hsame hplace

/-- Votes of one kind that agree still do after one more, at a place without a vote of that kind. -/
theorem agree_of_new {k : Vote → Ballot} {new : Vote} {other : Ballot} (hother : other = k new)
    (hinj : ∀ v w, k v = k w → v = w)
    (hold : ∀ a b : Vote, k a ∈ cast → k b ∈ cast → a.height = b.height → a.round = b.round →
      a.blockHash = b.blockHash)
    (hnew : ∀ v, k v ∈ cast → (v.height, v.round) ≠ (new.height, new.round)) (a c : Vote)
    (ha : k a ∈ cast ++ [other]) (hc : k c ∈ cast ++ [other])
    (hheight : a.height = c.height) (hround : a.round = c.round) : a.blockHash = c.blockHash := by
  have hmem : ∀ {v : Vote}, k v ∈ cast ++ [other] → k v ∈ cast ∨ v = new := by
    intro v hv
    rcases List.mem_append.mp hv with hv | hv
    · exact Or.inl hv
    · exact Or.inr (hinj _ _ ((List.mem_singleton.mp hv).trans hother))
  rcases hmem ha with ha | rfl
  · rcases hmem hc with hc | rfl
    · exact hold a c ha hc hheight hround
    · exact absurd (by rw [hheight, hround]) (hnew a ha)
  · rcases hmem hc with hc | rfl
    · exact absurd (by rw [hheight, hround]) (hnew c hc)
    · rfl

theorem VoteInv.castTask (h : VoteInv pc inlineVotes cast passes) {height : ℕ}
    (htask : .task height round ∈ passes) (hplace : placeOf b = (height, round)) {pc' : Pc}
    (hpc : PcInv pc' (cast ++ [b]) passes)
    (hprevotes : ∀ a c : Vote, .prevote a ∈ cast ++ [b] → .prevote c ∈ cast ++ [b] →
      a.height = c.height → a.round = c.round → a.blockHash = c.blockHash)
    (hprecommits : ∀ a c : Vote, .precommit a ∈ cast ++ [b] → .precommit c ∈ cast ++ [b] →
      a.height = c.height → a.round = c.round → a.blockHash = c.blockHash) :
    VoteInv pc' inlineVotes (cast ++ [b]) passes := by
  refine ⟨?_, h.alone, ?_, h.pending, hpc, hprevotes, hprecommits⟩
  · intro c hc
    rcases List.mem_append.mp hc with hc | hc
    · exact h.covered c hc
    · rw [List.mem_singleton.mp hc]
      exact ⟨_, htask, hplace.symm⟩
  · intro height' hash' hin c hc hp
    rcases List.mem_append.mp hc with hc | hc
    · exact h.inline height' hash' hin c hc hp
    · rw [List.mem_singleton.mp hc, hplace] at hp
      exact absurd hp.symm (h.inline_ne_task hin htask)

/-- **The task prevotes** where nothing is signed yet. -/
theorem VoteInv.castPrevote {height : ℕ} {proposal : Option Bytes32}
    (h : VoteInv (.voting height round proposal) inlineVotes cast passes) (hash : Option Bytes32)
    (self : Bytes) :
    VoteInv (.waitPrevotes height round) inlineVotes (cast ++ [.prevote ⟨height, round, hash, self⟩])
      passes := by
  obtain ⟨htask, hnone⟩ := h.pc
  refine h.castTask htask rfl ⟨htask, ?_⟩ ?_ ?_
  · intro vote hv
    rcases List.mem_append.mp hv with hv | hv
    · exact hnone _ hv
    · cases List.mem_singleton.mp hv
  · exact agree_of_new rfl (fun _ _ he => Ballot.prevote.inj he) h.prevotes fun v hv => hnone _ hv
  · intro a c ha hc
    have hmem : ∀ {v : Vote}, .precommit v ∈ cast ++ [.prevote ⟨height, round, hash, self⟩] →
        .precommit v ∈ cast := by
      intro v hv
      rcases List.mem_append.mp hv with hv | hv
      · exact hv
      · cases List.mem_singleton.mp hv
    exact h.precommits a c (hmem ha) (hmem hc)

/-- **The task precommits** where no precommit is signed yet. -/
theorem VoteInv.castPrecommit {height : ℕ} {hash : Option Bytes32}
    (h : VoteInv (.precommit height round hash) inlineVotes cast passes) (self : Bytes) :
    VoteInv (.waitPrecommits height round) inlineVotes (cast ++ [.precommit ⟨height, round, hash, self⟩])
      passes := by
  obtain ⟨htask, hnone⟩ := h.pc
  refine h.castTask htask rfl trivial ?_ ?_
  · intro a c ha hc
    have hmem : ∀ {v : Vote}, .prevote v ∈ cast ++ [.precommit ⟨height, round, hash, self⟩] →
        .prevote v ∈ cast := by
      intro v hv
      rcases List.mem_append.mp hv with hv | hv
      · exact hv
      · cases List.mem_singleton.mp hv
    exact h.prevotes a c (hmem ha) (hmem hc)
  · exact agree_of_new rfl (fun _ _ he => Ballot.precommit.inj he) h.precommits fun v hv => hnone _ hv

/-- **The task begins a pass** at a place without one. -/
theorem VoteInv.beginTask (h : VoteInv pc inlineVotes cast passes) {height : ℕ}
    (hfree : ∀ q ∈ passes, q.place ≠ (height, round)) (proposal : Option Bytes32) :
    VoteInv (.voting height round proposal) inlineVotes cast (passes ++ [.task height round]) := by
  have hcast : ∀ b ∈ cast, placeOf b ≠ (height, round) := by
    intro b hb he
    obtain ⟨p, hp, hplace⟩ := h.covered b hb
    exact hfree p hp (hplace.trans he)
  refine ⟨?_, ?_, ?_, ?_, ?_, h.prevotes, h.precommits⟩
  · intro b hb
    obtain ⟨p, hp, he⟩ := h.covered b hb
    exact ⟨p, List.mem_append_left _ hp, he⟩
  · intro height' hash' hin p hp hplace
    have hin' : .inline height' hash' ∈ passes := by
      rcases List.mem_append.mp hin with hin | hin
      · exact hin
      · cases List.mem_singleton.mp hin
    rcases List.mem_append.mp hp with hp | hp
    · exact h.alone height' hash' hin' p hp hplace
    · rw [List.mem_singleton.mp hp] at hplace
      exact absurd hplace.symm (hfree _ hin')
  · intro height' hash' hin
    have hin' : .inline height' hash' ∈ passes := by
      rcases List.mem_append.mp hin with hin | hin
      · exact hin
      · cases List.mem_singleton.mp hin
    exact h.inline height' hash' hin'
  · exact fun v hv => List.mem_append_left _ (h.pending v hv)
  · exact ⟨List.mem_append_right _ (List.mem_singleton.mpr rfl), hcast⟩

end Votes

/-! ## Steps and runs -/

/-- What every step keeps. -/
structure Inv (s : Node) : Prop where
  attest : AttestInv s
  vote : VoteInv s.voter.pc s.inlineVotes s.cast s.passes

section Steps
variable {self : Bytes} {stakeMap : StakeMap} {s : Node}

theorem Inv.sendAttestation (h : Inv s) {height : ℕ} (round : ℕ) (batchHash stateRoot : Bytes32)
    (hnear : ∀ a ∈ s.attested, a.height ≤ height + 256) :
    Inv (sendAttestation self stakeMap s height round batchHash stateRoot) := by
  refine ⟨h.attest.sendAttestation self stakeMap round batchHash stateRoot hnear, ?_⟩
  unfold Equivocation.sendAttestation
  split_ifs
  · exact h.vote
  · split <;> exact h.vote

theorem sendAttestation_passes (height round : ℕ) (batchHash stateRoot : Bytes32) :
    (sendAttestation self stakeMap s height round batchHash stateRoot).passes = s.passes := by
  unfold Equivocation.sendAttestation
  split_ifs
  · rfl
  · split <;> rfl

theorem Inv.inlineBft (h : Inv s) {height : ℕ} (votes : Bool)
    (honly : ∀ p ∈ s.passes, p.place = (height, 0) → p = .inline height hash) :
    Inv (inlineBft (advanceFinalizedHeight s height) height hash votes) := by
  unfold Equivocation.inlineBft advanceFinalizedHeight
  cases votes with
  | false => exact ⟨h.attest.congr rfl rfl, h.vote⟩
  | true => exact ⟨h.attest.congr rfl rfl, h.vote.beginInline honly⟩

theorem Inv.withChain (h : Inv s) (chain : BlockChain) : Inv { s with chain } :=
  ⟨h.attest.congr rfl rfl, h.vote⟩

theorem Inv.leaderCommit (h : Inv s) {header : BatchHeader} (totalStake : ℕ)
    (honly : ∀ p ∈ s.passes, p.place = (header.height, 0) → p = .inline header.height header.batchHash) :
    Inv (leaderCommit self stakeMap s header totalStake) := by
  unfold Equivocation.leaderCommit
  split
  · exact h
  · split
    · exact h.withChain _
    · exact Inv.inlineBft (h.withChain _) _ honly

theorem Inv.processHeader (h : Inv s) {header : BatchHeader} (totalStake : ℕ) (verified switchOk : Bool)
    (honly : verified = true → ∀ p ∈ s.passes, p.place = (header.height, 0) →
      p = .inline header.height header.batchHash)
    (hnear : verified = true → ∀ a ∈ s.attested, a.height ≤ header.height + 256) :
    Inv (processHeader self stakeMap s header totalStake verified switchOk) := by
  cases verified with
  | false => exact h
  | true =>
    unfold Equivocation.processHeader
    rw [if_neg (by decide)]
    split
    · exact h
    · split
      · exact h.withChain _
      · rename_i chain _ switched _ chain' _
        have hchain : Inv { s with chain := chain' } := h.withChain _
        dsimp only
        split_ifs
        · exact hchain
        · exact hchain
        · refine (hchain.sendAttestation _ _ _ (hnear rfl)).inlineBft _ ?_
          rw [sendAttestation_passes]
          exact honly rfl
        · exact hchain.inlineBft _ (honly rfl)

theorem Inv.sendInline (h : Inv s) (i : ℕ) : Inv (sendInline self stakeMap s i) := by
  unfold Equivocation.sendInline
  split
  · exact h
  · rename_i v hv
    have hin := h.vote.pending v (List.mem_of_getElem? hv)
    have hother : ∀ u ∈ s.inlineVotes.set i { v with prevoted := true },
        .inline u.height u.hash ∈ s.passes := by
      intro u hu
      rcases List.mem_or_eq_of_mem_set hu with hu | rfl
      · exact h.vote.pending u hu
      · exact hin
    split_ifs
    · refine ⟨h.attest.congr rfl rfl, ?_⟩
      have hless : VoteInv s.voter.pc (s.inlineVotes.eraseIdx i) s.cast s.passes :=
        ⟨h.vote.covered, h.vote.alone, h.vote.inline,
          fun u hu => h.vote.pending u (List.mem_of_mem_eraseIdx hu), h.vote.pc, h.vote.prevotes,
          h.vote.precommits⟩
      exact hless.castInline hin rfl rfl
    · refine ⟨h.attest.congr rfl rfl, ?_⟩
      have hset : VoteInv s.voter.pc (s.inlineVotes.set i { v with prevoted := true }) s.cast s.passes :=
        ⟨h.vote.covered, h.vote.alone, h.vote.inline, hother, h.vote.pc, h.vote.prevotes,
          h.vote.precommits⟩
      exact hset.castInline hin rfl rfl

theorem beginsPass_eq_nil {v : Voter} {m : Move} (h : ∀ height, v.pc = .prevote height → m ≠ .go) :
    beginsPass v m = [] := by
  unfold beginsPass
  split
  · rename_i height hp
    exact absurd rfl (h height hp)
  · rfl

/-- **A step of the task**, with the pass that it begins. -/
theorem VoteInv.taskStep {v : Voter} {inlineVotes : List InlineVote} {cast : List Ballot}
    {passes : List Pass} (h : VoteInv v.pc inlineVotes cast passes) (m : Move)
    (hfree : ∀ p ∈ beginsPass v m, ∀ q ∈ passes, q.place ≠ p.place) :
    VoteInv (Rounds.taskStep stakeMap self v m).1.pc inlineVotes
      (cast ++ (Rounds.taskStep stakeMap self v m).2) (passes ++ beginsPass v m) := by
  unfold Rounds.taskStep
  split
  · rename_i hp
    rw [beginsPass_eq_nil (by simp [hp]), List.append_nil, List.append_nil]
    exact h.move trivial
  · rename_i height hash hp
    rw [beginsPass_eq_nil (by simp [hp]), List.append_nil, List.append_nil]
    exact h.move trivial
  · rename_i height hp
    rw [beginsPass_eq_nil (by simp [hp]), List.append_nil, List.append_nil]
    exact h.move trivial
  · -- the round and the proposal are read: a pass begins
    rename_i height hp
    have hbegin : beginsPass v .go = [.task height v.rs.round] := by simp only [beginsPass, hp]
    rw [hbegin] at hfree ⊢
    rw [List.append_nil]
    exact h.beginTask (fun q hq => hfree _ (List.mem_singleton.mpr rfl) q hq) _
  · -- prevote
    rename_i height round proposal hp
    rw [beginsPass_eq_nil (by simp [hp]), List.append_nil]
    rw [hp] at h
    dsimp only
    unfold castBallot
    split_ifs
    · exact h.castPrevote _ self
    · rw [List.append_nil]
      exact h.move ⟨h.pc.1, fun vote hv => h.pc.2 _ hv⟩
  · -- the wait for prevotes
    rename_i height round expired hp
    rw [beginsPass_eq_nil (by simp [hp]), List.append_nil]
    split
    · rw [hp] at h
      rw [List.append_nil]
      exact h.move h.pc
    · rw [List.append_nil]
      exact h
  · -- precommit
    rename_i height round hash hp
    rw [beginsPass_eq_nil (by simp [hp]), List.append_nil]
    rw [hp] at h
    dsimp only
    unfold castBallot
    split_ifs
    · exact h.castPrecommit self
    · rw [List.append_nil]
      exact h.move trivial
  · -- the wait for precommits
    rename_i height round expired hp
    rw [beginsPass_eq_nil (by simp [hp]), List.append_nil]
    split
    · rw [List.append_nil]
      exact h.move trivial
    · rw [List.append_nil]
      exact h.move trivial
    · rw [List.append_nil]
      exact h
  · rename_i move _ _ _ _ _ hother _ _ _ _
    rw [beginsPass_eq_nil hother, List.append_nil, List.append_nil]
    exact h

theorem Inv.step {e : StakeMap × NodeEvent} (h : Inv s) (hcond : NoReturn s e) :
    Inv (step self s e) := by
  obtain ⟨stakes, e⟩ := e
  unfold Equivocation.step nodeStep
  cases e with
  | attest height round batchHash stateRoot =>
    exact h.sendAttestation round batchHash stateRoot (hcond.attest height rfl)
  | leaderCommit header totalStake => exact h.leaderCommit totalStake (hcond.inline _ _ rfl)
  | processHeader header totalStake verified switchOk =>
    refine h.processHeader totalStake verified switchOk ?_ ?_
    · rintro rfl
      exact hcond.inline _ _ rfl
    · rintro rfl
      exact hcond.attest _ rfl
  | inlineVote i => exact h.sendInline i
  | task move => exact ⟨h.attest.congr rfl rfl, h.vote.taskStep move (hcond.task move rfl)⟩
  | deliver ballot => exact ⟨h.attest.congr rfl rfl, h.vote⟩

end Steps

theorem Fresh.inv {s : Node} (h : Fresh s) : Inv s := by
  refine ⟨⟨?_, ?_⟩, ?_⟩
  · rw [h.attested]
    exact fun a ha => absurd ha List.not_mem_nil
  · rw [h.attested]
    exact fun a ha => absurd ha List.not_mem_nil
  · rw [h.pc, h.inlineVotes, h.cast, h.passes]
    refine ⟨?_, ?_, ?_, ?_, trivial, ?_, ?_⟩
    · exact fun b hb => absurd hb List.not_mem_nil
    · exact fun _ _ hp => absurd hp List.not_mem_nil
    · exact fun _ _ hp => absurd hp List.not_mem_nil
    · exact fun v hv => absurd hv List.not_mem_nil
    · exact fun a _ ha => absurd ha List.not_mem_nil
    · exact fun a _ ha => absurd ha List.not_mem_nil

/-- **A node that does not return to a place signs one statement of a kind there.** -/
theorem no_equivocation (self : Bytes) (s : Node) (hs : Fresh s) (es : List (StakeMap × NodeEvent))
    (hcond : Along (step self) NoReturn s es) : Consistent (run (step self) s es) := by
  have hI : Inv (run (step self) s es) := hcond.invariant (fun _ _ => Inv.step) hs.inv
  exact ⟨hI.attest.agree, hI.vote.prevotes, hI.vote.precommits⟩

/-! ## A block that comes late -/

def freshNode : Node :=
  { voter := ⟨RoundState.new 1, .start, 0⟩, chain := BlockChain.new idlePrim, signedAttestations := ∅,
    inlineVotes := [], attested := [], cast := [], passes := [] }

theorem fresh_freshNode : Fresh freshNode := ⟨rfl, rfl, rfl, rfl, rfl, rfl⟩

/-- The validator `[7]` and the leader `[8]`. -/
def bothStakes : StakeMap := ((∅ : StakeMap).insert [7] 10000000000).insert [8] 10000000000

/-- A first block of the leader `[8]`. -/
def leaderBlock : BatchHeader := { firstBlock 1 [1] with leaderPubkey := [8] }

/-- Its child, of the same leader. -/
def leaderChild : BatchHeader := { leaderBlock with batchHash := 2, height := 2, parentHash := 1 }

/-- A block is processed and its two votes are sent. -/
def headerVoted (header : BatchHeader) : List (StakeMap × NodeEvent) :=
  [(bothStakes, .processHeader header 20000000000 true false), (bothStakes, .inlineVote 0),
    (bothStakes, .inlineVote 0)]

/-- The node after the votes on the first block. -/
def firstVoted : Node := run (step [7]) freshNode (headerVoted leaderBlock)

theorem noReturn_inlineVote (s : Node) (stakeMap : StakeMap) (i : ℕ) :
    NoReturn s (stakeMap, .inlineVote i) := by
  refine ⟨?_, ?_, ?_⟩
  · intro height hash h
    cases h
  · intro move h
    cases h
  · intro height h
    cases h

theorem two_blocks_consistent :
    Consistent (run (step [7]) freshNode (headerVoted leaderBlock ++ headerVoted leaderChild)) := by
  have hpasses : firstVoted.passes = [.inline 1 1] := by decide +kernel
  have hattested : firstVoted.attested = [⟨1, 0, 1, 0⟩] := by decide +kernel
  refine no_equivocation [7] freshNode fresh_freshNode _
    ⟨⟨?_, ?_, ?_⟩, noReturn_inlineVote _ _ _, noReturn_inlineVote _ _ _, ⟨?_, ?_, ?_⟩,
      noReturn_inlineVote _ _ _, noReturn_inlineVote _ _ _, trivial⟩
  · exact fun _ _ _ p hp => absurd hp List.not_mem_nil
  · exact fun _ h => by cases h
  · exact fun _ _ a ha => absurd ha List.not_mem_nil
  · -- the pass on the first block is at another height
    intro height hash h p hp hplace
    obtain ⟨rfl, rfl⟩ := Prod.mk.inj (Option.some.inj h)
    change p ∈ firstVoted.passes at hp
    rw [hpasses, List.mem_singleton] at hp
    subst hp
    exact absurd hplace (by decide)
  · exact fun _ h => by cases h
  · intro height h a ha
    obtain rfl := Option.some.inj h
    change a ∈ firstVoted.attested at ha
    rw [hattested, List.mem_singleton] at ha
    subst ha
    decide

/-- The task prevotes nil when the time to propose is over; the block of the leader comes after that. -/
def lateBlock : List (StakeMap × NodeEvent) :=
  [(bothStakes, .task .go), (bothStakes, .task (.poll true)), (bothStakes, .task .go),
    (bothStakes, .task .go), (bothStakes, .processHeader leaderBlock 20000000000 true false),
    (bothStakes, .inlineVote 0)]

/-- **A validator can prevote nil and for a block in one round**: the votes on a block that comes late are
cast in round `0`, whatever the task has signed there. -/
theorem late_block_voted :
    ¬ ∀ (self : Bytes) (s : Node), Fresh s → ∀ es : List (StakeMap × NodeEvent),
      Consistent (run (step self) s es) := by
  intro h
  have heq := (h [7] freshNode fresh_freshNode lateBlock).prevotes ⟨1, 0, none, [7]⟩ ⟨1, 0, some 1, [7]⟩
    (by decide +kernel) (by decide +kernel) rfl rfl
  exact absurd heq (by decide)

end TruthLinked.Consensus.Equivocation
