import TruthLinked.Consensus.Rounds
import TruthLinked.Lib.Run
import TruthLinked.Lib.Weight
import TruthLinked.Staking.Specs

/-! # Rounds of votes in a network

Validators that run the task of `Rounds`, and a network that delivers their ballots in any order, any
number of times or never. Faulty validators send what they like in their own name. When a correct
validator finds a block at its height it starts over at round `0` with empty tables, so a lock does not
keep an earlier quorum from being seen again and two blocks can be committed (`two_blocks_committed`).
They cannot where each correct validator finds the same block every time (`round_safety`). -/

namespace TruthLinked.Consensus.RoundSafety

open Core.Types Staking.State Consensus.Types Consensus.Rounds Lib.Run Lib.Weight
open Staking.Specs (sum64_le sum64_eq)

variable {sent : List Ballot} {v : Voter} {hash : Bytes32} {who : Bytes} {table : VoteTable} {round : ℕ}
  {b : Ballot}

/-! ## The network -/

/-- The validators and the ballots sent so far. -/
structure Net where
  voters : Bytes → Voter
  sent : List Ballot

/-- What can happen next. -/
inductive Event where
  | task (who : Bytes) (move : Move)
  | deliver (who : Bytes) (ballot : Ballot)
  | forge (ballot : Ballot)

/-- Everyone is about to start on the height after its last finalised one. -/
def Net.init (finalized : Bytes → ℕ) : Net :=
  { voters := fun who => ⟨RoundState.new (finalized who + 1), .start, finalized who⟩, sent := [] }

section Network
variable (stakeMap : StakeMap) (faulty : Finset Bytes)

/-- A correct validator takes a step of its task, a sent ballot arrives, or a faulty validator sends one. -/
def netStep (s : Net) : Event → Net
  | .task who move =>
    if who ∈ faulty then s
    else
      let r := taskStep stakeMap who (s.voters who) move
      { voters := Function.update s.voters who r.1, sent := s.sent ++ r.2 }
  | .deliver who ballot =>
    if ballot ∈ s.sent then
      let v := { s.voters who with rs := handleBallot stakeMap (s.voters who).rs ballot }
      { s with voters := Function.update s.voters who v }
    else s
  | .forge ballot =>
    if (voteOf ballot).validatorPubkey ∈ faulty then { s with sent := s.sent ++ [ballot] } else s

/-- **Where the rounds are safe**: a correct validator that finds a block at a height finds the same one
every time. -/
def OneBlock (block : Bytes → ℕ → Bytes32) (s : Net) : Event → Prop
  | .task who (.found hash) => who ∉ faulty → ∀ height, (s.voters who).pc = .propose height →
      hash = block who height
  | _ => True

/-- Validator `who` sees a quorum of precommits for `hash` at `height`. -/
def Obtains (s : Net) (who : Bytes) (height : ℕ) (hash : Bytes32) : Prop :=
  (s.voters who).rs.height = height ∧ bftPrecommitQuorum stakeMap (s.voters who).rs = some hash

/-- The validators of the stake table. -/
def members : Finset Bytes := (stakeMap.toList.map Prod.fst).toFinset

/-! ## Tables of sent votes -/

/-- Validators of a quorum's weight cast votes in `P` for `hash` at `height`. -/
def Backed (P : Vote → Prop) (height : ℕ) (hash : Bytes32) : Prop :=
  ∃ S ⊆ members stakeMap, bftThreshold stakeMap ≤ weight (stakeAt stakeMap) S ∧
    ∀ pk ∈ S, ∃ vote, P vote ∧ vote.validatorPubkey = pk ∧ vote.height = height ∧
      vote.blockHash = some hash

theorem Backed.mono {P Q : Vote → Prop} {height : ℕ} (h : Backed stakeMap P height hash)
    (hPQ : ∀ vote, P vote → Q vote) : Backed stakeMap Q height hash := by
  obtain ⟨S, hS, hw, hv⟩ := h
  refine ⟨S, hS, hw, fun pk hpk => ?_⟩
  obtain ⟨vote, hP, hrest⟩ := hv pk hpk
  exact ⟨vote, hPQ vote hP, hrest⟩

end Network

/-- The table holds votes in `P` for one height, each under its round and validator. -/
def TableOk (table : VoteTable) (height : ℕ) (P : Vote → Prop) : Prop :=
  ∀ (round : ℕ) (pk : Bytes) (vote : Vote), (votesIn table round)[pk]? = some vote →
    vote.validatorPubkey = pk ∧ vote.height = height ∧ P vote

theorem tableOk_empty (height : ℕ) (P : Vote → Prop) : TableOk ∅ height P := by
  intro round pk vote h
  simp [votesIn] at h

theorem TableOk.mono {height : ℕ} {P Q : Vote → Prop} (h : TableOk table height P)
    (hPQ : ∀ vote, P vote → Q vote) : TableOk table height Q := by
  intro round pk vote hv
  obtain ⟨h1, h2, h3⟩ := h round pk vote hv
  exact ⟨h1, h2, hPQ vote h3⟩

theorem TableOk.addVote {height : ℕ} {P : Vote → Prop} {vote : Vote}
    (h : TableOk table height P) (hheight : vote.height = height) (hP : P vote) :
    TableOk (addVote table vote) height P := by
  intro round pk v hv
  unfold Rounds.addVote votesIn at hv
  rw [Std.ExtTreeMap.getElem?_insert] at hv
  split_ifs at hv with hround hnew
  · obtain rfl := Std.LawfulEqOrd.eq_of_compare hround
    exact h _ pk v hv
  · obtain rfl := Std.LawfulEqOrd.eq_of_compare hround
    rw [Option.getD_some, Std.ExtTreeMap.getElem?_insert] at hv
    split_ifs at hv with hpk
    · obtain rfl := Std.LawfulEqOrd.eq_of_compare hpk
      obtain rfl := Option.some.inj hv
      exact ⟨rfl, hheight, hP⟩
    · exact h _ pk v hv
  · exact h round pk v hv

/-! ## Sums of stakes -/

theorem keys_nodup {V : Type} (m : Map Bytes V) : (m.toList.map Prod.fst).Nodup := by
  rw [List.Nodup, List.pairwise_map]
  refine Std.ExtTreeMap.distinct_keys_toList.imp fun {a b} hab he => hab ?_
  rw [he]
  exact Std.ReflOrd.compare_self

section Stakes
variable {stakeMap : StakeMap}

theorem mem_members {pk : Bytes} : pk ∈ members stakeMap ↔ pk ∈ stakeMap := by
  simp [members]

theorem stakeAt_eq_zero {pk : Bytes} (h : pk ∉ members stakeMap) : stakeAt stakeMap pk = 0 := by
  rw [mem_members] at h
  rw [stakeAt, Std.ExtTreeMap.getElem?_eq_none h]
  rfl

theorem sum_stakes : (stakeMap.toList.map Prod.snd).sum = weight (stakeAt stakeMap) (members stakeMap) := by
  rw [members, ← sum_map_eq_weight _ (keys_nodup stakeMap), List.map_map]
  congr 1
  refine List.map_congr_left fun e he => ?_
  have hget : stakeMap[e.1]? = some e.2 := Std.ExtTreeMap.mem_toList_iff_getElem?_eq_some.mp he
  rw [Function.comp_apply, stakeAt, hget]
  rfl

theorem bftThreshold_eq (h : weight (stakeAt stakeMap) (members stakeMap) < 2 ^ 63) :
    bftThreshold stakeMap = weight (stakeAt stakeMap) (members stakeMap) * 2 / 3 + 1 := by
  have hu : u64 = 2 ^ 64 := rfl
  have htotal : totalStake stakeMap = weight (stakeAt stakeMap) (members stakeMap) := by
    rw [totalStake, sum64_eq (by rw [sum_stakes]; omega), sum_stakes]
  rw [bftThreshold, htotal, Nat.mod_eq_of_lt (by omega)]

theorem sum_filterMap_stakes (l : List (Bytes × Vote)) (hl : ∀ e ∈ l, e.2.validatorPubkey = e.1) :
    (l.filterMap fun e => stakeMap[e.2.validatorPubkey]?).sum =
      ((l.map Prod.fst).map (stakeAt stakeMap)).sum := by
  induction l with
  | nil => rfl
  | cons e l ih =>
    have hrest := ih fun e' he' => hl e' (List.mem_cons_of_mem _ he')
    have he := hl e List.mem_cons_self
    rw [List.map_cons, List.map_cons, List.sum_cons, ← hrest, stakeAt, ← he]
    cases hs : stakeMap[e.2.validatorPubkey]? with
    | none => simp [hs]
    | some stake => simp [hs]

theorem exists_voters
    (hkey : ∀ (pk : Bytes) (vote : Vote), (votesIn table round)[pk]? = some vote → vote.validatorPubkey = pk) :
    ∃ S ⊆ members stakeMap, voteStake table round (some hash) stakeMap ≤ weight (stakeAt stakeMap) S ∧
      ∀ pk ∈ S, ∃ vote : Vote, (votesIn table round)[pk]? = some vote ∧ vote.blockHash = some hash := by
  set l := (votesIn table round).toList.filter fun e => decide (e.2.blockHash = some hash) with hl
  have hmem : ∀ e ∈ l, (votesIn table round)[e.1]? = some e.2 ∧ e.2.blockHash = some hash := by
    intro e he
    obtain ⟨he, hb⟩ := List.mem_filter.mp he
    exact ⟨Std.ExtTreeMap.mem_toList_iff_getElem?_eq_some.mp he, by simpa using hb⟩
  have hnd : (l.map Prod.fst).Nodup :=
    (keys_nodup (votesIn table round)).sublist (List.Sublist.map _ List.filter_sublist)
  have hsum : (l.filterMap fun e => stakeMap[e.2.validatorPubkey]?).sum =
      weight (stakeAt stakeMap) (l.map Prod.fst).toFinset := by
    rw [sum_filterMap_stakes l fun e he => hkey e.1 e.2 (hmem e he).1, sum_map_eq_weight _ hnd]
  refine ⟨(l.map Prod.fst).toFinset ∩ members stakeMap, Finset.inter_subset_right, ?_, ?_⟩
  · have hin : weight (stakeAt stakeMap) ((l.map Prod.fst).toFinset ∩ members stakeMap) =
        weight (stakeAt stakeMap) (l.map Prod.fst).toFinset := by
      refine Finset.sum_subset Finset.inter_subset_left fun pk hpk hno => ?_
      exact stakeAt_eq_zero fun hm => hno (Finset.mem_inter.mpr ⟨hpk, hm⟩)
    rw [hin, ← hsum]
    exact sum64_le _
  · intro pk hpk
    obtain ⟨e, he, rfl⟩ := List.mem_map.mp (List.mem_toFinset.mp (Finset.mem_inter.mp hpk).1)
    exact ⟨e.2, hmem e he⟩

theorem backed_of_voteStake {height : ℕ} {P : Vote → Prop}
    (h : TableOk table height P) (hq : bftThreshold stakeMap ≤ voteStake table round (some hash) stakeMap) :
    Backed stakeMap P height hash := by
  obtain ⟨S, hS, hle, hvotes⟩ := @exists_voters hash table round stakeMap fun pk vote hv =>
    (h round pk vote hv).1
  refine ⟨S, hS, hq.trans hle, fun pk hpk => ?_⟩
  obtain ⟨vote, hget, hb⟩ := hvotes pk hpk
  obtain ⟨h1, h2, h3⟩ := h round pk vote hget
  exact ⟨vote, h3, h1, h2, hb⟩

theorem backed_of_bftQuorum {rs : RoundState} {height : ℕ} {P : Vote → Prop}
    (h : TableOk table height P) (hq : bftQuorum rs table stakeMap = some hash) :
    Backed stakeMap P height hash := by
  unfold bftQuorum at hq
  split_ifs at hq
  obtain ⟨r, -, hr⟩ := List.exists_of_findSome?_eq_some hq
  have := List.find?_some hr
  exact backed_of_voteStake h (by simpa using this)

end Stakes

/-! ## The invariant -/

section Invariant
variable (stakeMap : StakeMap) (faulty : Finset Bytes) (block : Bytes → ℕ → Bytes32)

/-- The local variables of the task fit the block of the validator and the ballots sent. -/
def PcOk (who : Bytes) (v : Voter) (sent : List Ballot) : Prop :=
  match v.pc with
  | .start => True
  | .propose height => height = v.rs.height ∧ v.finalizedHeight < height
  | .prevote height => height = v.rs.height ∧ v.finalizedHeight < height
  | .voting height _ proposal => height = v.rs.height ∧ v.finalizedHeight < height ∧
      ∀ x, proposal = some x → x = block who height
  | .waitPrevotes height _ => height = v.rs.height ∧ v.finalizedHeight < height
  | .precommit height _ hash => height = v.rs.height ∧ v.finalizedHeight < height ∧
      ∀ x, hash = some x → Backed stakeMap (fun vote => .prevote vote ∈ sent) height x
  | .waitPrecommits height _ => height = v.rs.height ∧ v.finalizedHeight < height

/-- What holds of a validator. -/
structure VoterOk (who : Bytes) (v : Voter) (sent : List Ballot) : Prop where
  prevotes : TableOk v.rs.prevotes v.rs.height fun vote => .prevote vote ∈ sent
  precommits : TableOk v.rs.precommits v.rs.height fun vote => .precommit vote ∈ sent
  proposal : ∀ x, v.rs.proposal = some x → x = block who v.rs.height
  pc : PcOk stakeMap block who v sent

/-- What a ballot of a correct validator stands for. -/
def BallotOk (sent : List Ballot) : Ballot → Prop
  | .prevote vote => ∀ x, vote.blockHash = some x → x = block vote.validatorPubkey vote.height
  | .precommit vote => ∀ x, vote.blockHash = some x →
      Backed stakeMap (fun vote => .prevote vote ∈ sent) vote.height x

/-- What every event keeps. -/
structure Inv (s : Net) : Prop where
  voters : ∀ who, who ∉ faulty → VoterOk stakeMap block who (s.voters who) s.sent
  ballots : ∀ b ∈ s.sent, (voteOf b).validatorPubkey ∉ faulty → BallotOk stakeMap block s.sent b

variable {stakeMap} {faulty} {block}

theorem BallotOk.mono {more : List Ballot} (h : BallotOk stakeMap block sent b) :
    BallotOk stakeMap block (sent ++ more) b := by
  cases b with
  | prevote vote => exact h
  | precommit vote =>
    intro x hx
    exact (h x hx).mono stakeMap fun _ hv => List.mem_append_left _ hv

theorem VoterOk.mono
    (h : VoterOk stakeMap block who v sent)
    (more : List Ballot) : VoterOk stakeMap block who v (sent ++ more) := by
  refine ⟨h.prevotes.mono fun _ hv => List.mem_append_left _ hv,
    h.precommits.mono fun _ hv => List.mem_append_left _ hv, h.proposal, ?_⟩
  have hpc := h.pc
  unfold PcOk at hpc ⊢
  split at hpc
  all_goals first
    | exact hpc
    | exact ⟨hpc.1, hpc.2.1, fun x hx => (hpc.2.2 x hx).mono stakeMap fun _ hv => List.mem_append_left _ hv⟩

theorem iterate_nextRound (n : ℕ) (rs : RoundState) :
    (Nat.iterate RoundState.nextRound n rs).height = rs.height ∧
    (Nat.iterate RoundState.nextRound n rs).prevotes = rs.prevotes ∧
    (Nat.iterate RoundState.nextRound n rs).precommits = rs.precommits ∧
    ((Nat.iterate RoundState.nextRound n rs).proposal = rs.proposal ∨
      (Nat.iterate RoundState.nextRound n rs).proposal = none) := by
  induction n generalizing rs with
  | zero => exact ⟨rfl, rfl, rfl, Or.inl rfl⟩
  | succ n ih =>
    obtain ⟨h1, h2, h3, h4⟩ := ih rs.nextRound
    refine ⟨h1, h2, h3, Or.inr ?_⟩
    rcases h4 with h4 | h4
    · exact h4
    · exact h4

theorem fastForward_spec (rs : RoundState) (round : ℕ) :
    (fastForward rs round).height = rs.height ∧ (fastForward rs round).prevotes = rs.prevotes ∧
    (fastForward rs round).precommits = rs.precommits ∧
    ((fastForward rs round).proposal = rs.proposal ∨ (fastForward rs round).proposal = none) := by
  unfold fastForward
  split_ifs
  · exact iterate_nextRound _ rs
  · exact ⟨rfl, rfl, rfl, Or.inl rfl⟩

theorem VoterOk.congr {rs : RoundState}
    (h : VoterOk stakeMap block who v sent) (hheight : rs.height = v.rs.height)
    (hpre : TableOk rs.prevotes v.rs.height fun vote => .prevote vote ∈ sent)
    (hcom : TableOk rs.precommits v.rs.height fun vote => .precommit vote ∈ sent)
    (hprop : rs.proposal = v.rs.proposal ∨ rs.proposal = none) :
    VoterOk stakeMap block who { v with rs := rs } sent := by
  refine ⟨by rw [hheight]; exact hpre, by rw [hheight]; exact hcom, ?_, ?_⟩
  · intro x hx
    dsimp only at hx ⊢
    rw [hheight]
    rcases hprop with hp | hp
    · exact h.proposal x (hp ▸ hx)
    · rw [hp] at hx
      cases hx
  · have hpc := h.pc
    unfold PcOk at hpc ⊢
    dsimp only
    rw [hheight]
    exact hpc

/-- **A delivered ballot** keeps the invariant of the receiver. -/
theorem VoterOk.handleBallot (h : VoterOk stakeMap block who v sent) (hb : b ∈ sent) :
    VoterOk stakeMap block who { v with rs := Rounds.handleBallot stakeMap v.rs b } sent := by
  cases b with
  | prevote vote =>
    unfold Rounds.handleBallot handlePrevote
    dsimp only
    split_ifs with hact hheight
    · exact h
    · exact h
    · obtain ⟨h1, h2, h3, h4⟩ := fastForward_spec v.rs vote.round
      refine h.congr h1 ?_ ?_ h4
      · unfold RoundState.addPrevote
        rw [h2]
        exact h.prevotes.addVote (not_not.mp hheight).symm hb
      · unfold RoundState.addPrevote
        rw [h3]
        exact h.precommits
  | precommit vote =>
    unfold Rounds.handleBallot handlePrecommit
    dsimp only
    split_ifs with hact hheight
    · exact h
    · exact h
    · obtain ⟨h1, h2, h3, h4⟩ := fastForward_spec v.rs vote.round
      refine h.congr h1 ?_ ?_ h4
      · unfold RoundState.addPrecommit
        rw [h2]
        exact h.prevotes
      · unfold RoundState.addPrecommit
        rw [h3]
        exact h.precommits.addVote (not_not.mp hheight).symm hb

/-- A validator in a new round state, or a restarted one, has empty tables. -/
theorem VoterOk.of_empty (hpre : v.rs.prevotes = ∅)
    (hcom : v.rs.precommits = ∅) (hprop : ∀ x, v.rs.proposal = some x → x = block who v.rs.height)
    (hpc : PcOk stakeMap block who v sent) : VoterOk stakeMap block who v sent :=
  ⟨by rw [hpre]; exact tableOk_empty _ _, by rw [hcom]; exact tableOk_empty _ _, hprop, hpc⟩

/-- What a step of the task must leave: a validator in order, and ballots of its own in order. -/
def StepOk (stakeMap : StakeMap) (block : Bytes → ℕ → Bytes32) (who : Bytes) (sent : List Ballot)
    (r : Voter × List Ballot) : Prop :=
  VoterOk stakeMap block who r.1 (sent ++ r.2) ∧
    ∀ b ∈ r.2, (voteOf b).validatorPubkey = who ∧ BallotOk stakeMap block (sent ++ r.2) b

theorem stepOk_silent
    (h : VoterOk stakeMap block who v sent) : StepOk stakeMap block who sent (v, []) := by
  refine ⟨?_, fun b hb => absurd hb List.not_mem_nil⟩
  rw [List.append_nil]
  exact h

theorem stepOk_cast (pc : Pc) {ballot : Vote → Ballot}
    {height : ℕ} {hash : Option Bytes32} (h : VoterOk stakeMap block who { v with pc := pc } sent)
    (hvote : ∀ vote, voteOf (ballot vote) = vote)
    (hok : BallotOk stakeMap block sent (ballot ⟨height, round, hash, who⟩)) :
    StepOk stakeMap block who sent
      ({ v with rs := (castBallot stakeMap v.rs who ballot height round hash).1, pc := pc },
        (castBallot stakeMap v.rs who ballot height round hash).2) := by
  unfold castBallot
  split_ifs
  · refine ⟨(h.mono [ballot ⟨height, round, hash, who⟩]).handleBallot
      (List.mem_append_right _ (List.mem_singleton.mpr rfl)), ?_⟩
    intro b hb
    rw [List.mem_singleton.mp hb, hvote]
    exact ⟨rfl, hok.mono⟩
  · exact stepOk_silent h

theorem endOfWait_backed {height : ℕ} {expired : Bool} {P : Vote → Prop}
    (htable : TableOk table height P) (hfin : v.finalizedHeight < height)
    (h : endOfWait stakeMap v height table expired = some (some hash)) :
    Backed stakeMap P height hash := by
  unfold endOfWait at h
  cases hq : bftQuorum v.rs table stakeMap with
  | some q =>
    simp only [hq, Option.some.injEq] at h
    exact backed_of_bftQuorum htable (h ▸ hq)
  | none =>
    simp only [hq] at h
    split_ifs at h
    · omega
    · cases h
    · cases h

/-- **A step of the task** keeps the invariant, the validator finding its own block. -/
theorem VoterOk.taskStep {m : Move}
    (h : VoterOk stakeMap block who v sent)
    (hfound : ∀ hash height, m = .found hash → v.pc = .propose height → hash = block who height) :
    StepOk stakeMap block who sent (Rounds.taskStep stakeMap who v m) := by
  have hpc := h.pc
  unfold PcOk at hpc
  unfold Rounds.taskStep
  split
  · -- start: a new round state unless the height is the same
    refine stepOk_silent ?_
    split_ifs with hheight
    · exact VoterOk.of_empty rfl rfl (fun x hx => by cases hx) ⟨rfl, Nat.lt_succ_self _⟩
    · exact ⟨h.prevotes, h.precommits, h.proposal, ⟨(not_not.mp hheight).symm, Nat.lt_succ_self _⟩⟩
  · -- propose: a block is found
    rename_i height hash hp
    rw [hp] at hpc
    have hblock := hfound hash height rfl hp
    refine stepOk_silent (VoterOk.of_empty rfl rfl ?_ hpc)
    intro x hx
    obtain rfl := Option.some.inj hx
    rw [hblock, hpc.1]
    rfl
  · -- propose: the time is over
    rename_i height hp
    rw [hp] at hpc
    exact stepOk_silent ⟨h.prevotes, h.precommits, h.proposal, hpc⟩
  · -- the round and the proposal are read
    rename_i height hp
    rw [hp] at hpc
    refine stepOk_silent ⟨h.prevotes, h.precommits, h.proposal, hpc.1, hpc.2, ?_⟩
    intro x hx
    rw [hpc.1]
    exact h.proposal x hx
  · -- prevote
    rename_i height round proposal hp
    rw [hp] at hpc
    refine stepOk_cast (.waitPrevotes height round)
      ⟨h.prevotes, h.precommits, h.proposal, hpc.1, hpc.2.1⟩ (fun _ => rfl) ?_
    intro x hx
    cases proposal with
    | none => cases hx
    | some ph =>
      dsimp only at hx
      split_ifs at hx with hs
      · obtain rfl := Option.some.inj hx
        exact hpc.2.2 _ rfl
  · -- the wait for prevotes
    rename_i height round expired hp
    rw [hp] at hpc
    split
    · rename_i hash hend
      refine stepOk_silent ⟨h.prevotes, h.precommits, h.proposal, hpc.1, hpc.2, ?_⟩
      intro x hx
      rw [hx] at hend
      refine endOfWait_backed ?_ hpc.2 hend
      rw [hpc.1]
      exact h.prevotes
    · exact stepOk_silent h
  · -- precommit
    rename_i height round hash hp
    rw [hp] at hpc
    cases hash with
    | none =>
      exact stepOk_cast (.waitPrecommits height round)
        ⟨h.prevotes, h.precommits, h.proposal, hpc.1, hpc.2.1⟩ (fun _ => rfl) fun x hx => by cases hx
    | some q =>
      exact stepOk_cast (.waitPrecommits height round)
        (v := { v with rs := { v.rs with lockedBlock := some q, lockedRound := round, step := .precommit } })
        ⟨h.prevotes, h.precommits, h.proposal, hpc.1, hpc.2.1⟩ (fun _ => rfl) hpc.2.2
  · -- the wait for precommits
    rename_i height round expired hp
    split
    · exact stepOk_silent ⟨h.prevotes, h.precommits, h.proposal, trivial⟩
    · refine stepOk_silent ⟨h.prevotes, h.precommits, fun x hx => ?_, trivial⟩
      cases hx
    · exact stepOk_silent h
  · exact stepOk_silent h

theorem Inv.netStep {s : Net} {e : Event} (hI : Inv stakeMap faulty block s)
    (hone : OneBlock faulty block s e) : Inv stakeMap faulty block (netStep stakeMap faulty s e) := by
  cases e with
  | task who move =>
    unfold RoundSafety.netStep
    dsimp only
    split_ifs with hwho
    · exact hI
    · have hfound : ∀ hash height, move = .found hash → (s.voters who).pc = .propose height →
          hash = block who height := by
        rintro hash height rfl hp
        exact hone hwho height hp
      obtain ⟨hvoter, hballots⟩ := (hI.voters who hwho).taskStep hfound
      refine ⟨?_, ?_⟩
      · intro who' hwho'
        dsimp only
        by_cases he : who' = who
        · subst he
          rw [Function.update_self]
          exact hvoter
        · rw [Function.update_of_ne he]
          exact (hI.voters who' hwho').mono _
      · intro b hb hcorrect
        rcases List.mem_append.mp hb with hb | hb
        · exact (hI.ballots b hb hcorrect).mono
        · exact (hballots b hb).2
  | deliver who ballot =>
    unfold RoundSafety.netStep
    dsimp only
    split_ifs with hsent
    · refine ⟨?_, hI.ballots⟩
      intro who' hwho'
      dsimp only
      by_cases he : who' = who
      · subst he
        rw [Function.update_self]
        exact (hI.voters who' hwho').handleBallot hsent
      · rw [Function.update_of_ne he]
        exact hI.voters who' hwho'
    · exact hI
  | forge ballot =>
    unfold RoundSafety.netStep
    dsimp only
    split_ifs with hf
    · refine ⟨fun who hwho => (hI.voters who hwho).mono _, ?_⟩
      intro b hb hcorrect
      rcases List.mem_append.mp hb with hb | hb
      · exact (hI.ballots b hb hcorrect).mono
      · rw [List.mem_singleton.mp hb] at hcorrect
        exact absurd hf hcorrect
    · exact hI

theorem inv_init (finalized : Bytes → ℕ) : Inv stakeMap faulty block (Net.init finalized) where
  voters := fun who _ => VoterOk.of_empty rfl rfl (fun x hx => by cases hx) trivial
  ballots := fun b hb => absurd hb List.not_mem_nil

theorem sent_mono (stakeMap : StakeMap) (faulty : Finset Bytes) {s : Net} (es : List Event)
    (hb : b ∈ s.sent) :
    b ∈ (run (RoundSafety.netStep stakeMap faulty) s es).sent := by
  induction es generalizing s with
  | nil => exact hb
  | cons e es ih =>
    refine ih ?_
    unfold RoundSafety.netStep
    cases e with
    | task who move =>
      dsimp only
      split_ifs
      · exact hb
      · exact List.mem_append_left _ hb
    | deliver who ballot =>
      dsimp only
      split_ifs <;> exact hb
    | forge ballot =>
      dsimp only
      split_ifs
      · exact List.mem_append_left _ hb
      · exact hb

/-! ## Safety -/

section Safety
variable (hfaulty : 3 * weight (stakeAt stakeMap) faulty < weight (stakeAt stakeMap) (members stakeMap))
  (hsmall : weight (stakeAt stakeMap) (members stakeMap) < 2 ^ 63)
include hfaulty hsmall

theorem exists_correct_in_both {S T : Finset Bytes} (hS : S ⊆ members stakeMap)
    (hT : T ⊆ members stakeMap) (hwS : bftThreshold stakeMap ≤ weight (stakeAt stakeMap) S)
    (hwT : bftThreshold stakeMap ≤ weight (stakeAt stakeMap) T) : ∃ pk ∈ S, pk ∈ T ∧ pk ∉ faulty := by
  rw [bftThreshold_eq hsmall] at hwS hwT
  obtain ⟨pk, h1, h2, h3, -⟩ := exists_common_outside (stakeAt stakeMap) hS hT
    (F := faulty) (by omega)
  exact ⟨pk, h1, h2, h3⟩

theorem prevoted_of_precommitted {s : Net} (hI : Inv stakeMap faulty block s) {height : ℕ}
    (h : Backed stakeMap (fun vote => .precommit vote ∈ s.sent) height hash) :
    Backed stakeMap (fun vote => .prevote vote ∈ s.sent) height hash := by
  obtain ⟨S, hS, hw, hv⟩ := h
  obtain ⟨pk, hpk, -, hcorrect⟩ := exists_correct_in_both hfaulty hsmall hS hS hw hw
  obtain ⟨vote, hsent, rfl, rfl, hhash⟩ := hv pk hpk
  exact hI.ballots _ hsent hcorrect hash hhash

theorem prevoted_unique {s : Net} (hI : Inv stakeMap faulty block s) {height : ℕ} {hash' : Bytes32}
    (h : Backed stakeMap (fun vote => .prevote vote ∈ s.sent) height hash)
    (h' : Backed stakeMap (fun vote => .prevote vote ∈ s.sent) height hash') : hash = hash' := by
  obtain ⟨S, hS, hw, hv⟩ := h
  obtain ⟨T, hT, hw', hv'⟩ := h'
  obtain ⟨pk, hpkS, hpkT, hcorrect⟩ := exists_correct_in_both hfaulty hsmall hS hT hw hw'
  obtain ⟨vote, hsent, hpk, hheight, hhash⟩ := hv pk hpkS
  obtain ⟨vote', hsent', hpk', hheight', hhash'⟩ := hv' pk hpkT
  have h1 := hI.ballots _ hsent (by rw [voteOf, hpk]; exact hcorrect) hash hhash
  have h2 := hI.ballots _ hsent' (by rw [voteOf, hpk']; exact hcorrect) hash' hhash'
  rw [h1, h2, hpk, hpk', hheight, hheight']

end Safety

/-- **Round safety.** With less than a third of the stake faulty, a whole stake below `2 ^ 63` and every
correct validator finding one block at a height, correct validators obtain precommit quorums of one
height for one hash only, at whatever times. -/
theorem round_safety (stakeMap : StakeMap) (faulty : Finset Bytes) (finalized : Bytes → ℕ)
    (block : Bytes → ℕ → Bytes32)
    (hfaulty : 3 * weight (stakeAt stakeMap) faulty < weight (stakeAt stakeMap) (members stakeMap))
    (hsmall : weight (stakeAt stakeMap) (members stakeMap) < 2 ^ 63) (es es' : List Event)
    (hone : Along (RoundSafety.netStep stakeMap faulty) (OneBlock faulty block) (Net.init finalized)
      (es ++ es')) {who who' : Bytes} (hwho : who ∉ faulty) (hwho' : who' ∉ faulty) {height : ℕ}
    {hash hash' : Bytes32}
    (h : Obtains stakeMap (run (RoundSafety.netStep stakeMap faulty) (Net.init finalized) es) who height
      hash)
    (h' : Obtains stakeMap (run (RoundSafety.netStep stakeMap faulty) (Net.init finalized) (es ++ es'))
      who' height hash') : hash = hash' := by
  obtain ⟨hfirst, hsecond⟩ := hone.of_append
  have hinit : Inv stakeMap faulty block (Net.init finalized) := inv_init finalized
  have hI := hfirst.invariant (fun _ _ => Inv.netStep) hinit
  have hI' := hone.invariant (fun _ _ => Inv.netStep) hinit
  have hq := (backed_of_bftQuorum (hI.voters who hwho).precommits h.2).mono stakeMap
    fun vote hv => sent_mono stakeMap faulty es' hv
  have hq' := backed_of_bftQuorum (hI'.voters who' hwho').precommits h'.2
  rw [h.1, ← run_append] at hq
  rw [h'.1] at hq'
  exact prevoted_unique hfaulty hsmall hI' (prevoted_of_precommitted hfaulty hsmall hI' hq)
    (prevoted_of_precommitted hfaulty hsmall hI' hq')

end Invariant

/-! ## Two blocks at one height -/

def fourStakes : StakeMap :=
  [1, 2, 3, 4].foldl (fun m b => m.insert [b] 10000000000) ∅

/-- The prevote of validator `b` for `x` in round `0` of height `1`. -/
def prevoteBy (b : UInt8) (x : Bytes32) : Ballot := .prevote ⟨1, 0, some x, [b]⟩

/-- The precommit of validator `b` for `x` in round `0` of height `1`. -/
def precommitBy (b : UInt8) (x : Bytes32) : Ballot := .precommit ⟨1, 0, some x, [b]⟩

/-- Validator `b` finds block `x` and prevotes. -/
def votes (b : UInt8) (x : Bytes32) : List Event :=
  [.task [b] .go, .task [b] (.found x), .task [b] .go, .task [b] .go]

/-- All four prevote for block `20`; three see nothing of it and go on to the next round, where they find
block `10`, prevote and precommit it. The first of them sees all three precommits. -/
def firstQuorum : List Event :=
  [1, 2, 3, 4].flatMap (votes · 20) ++
  [1, 2, 3].flatMap (fun b => [.task [b] (.poll true), .task [b] .go, .task [b] (.poll true)]) ++
  [1, 2, 3].flatMap (votes · 10) ++
  [1, 2, 3].flatMap (fun b => [1, 2, 3].map fun c => .deliver [b] (prevoteBy c 10)) ++
  [1, 2, 3].flatMap (fun b => [.task [b] (.poll false), .task [b] .go]) ++
  [.deliver [1] (precommitBy 2 10), .deliver [1] (precommitBy 3 10)]

/-- The other two find block `20` again. They are locked and prevote nil, but the prevotes of the start
reach them and the fourth, and these three precommit block `20`. -/
def secondQuorum : List Event :=
  [2, 3].flatMap (fun b => .task [b] (.poll true) :: votes b 20) ++
  [2, 3, 4].flatMap (fun b => [1, 2, 3, 4].map fun c => .deliver [b] (prevoteBy c 20)) ++
  [2, 3, 4].flatMap (fun b => [.task [b] (.poll false), .task [b] .go]) ++
  [.deliver [4] (precommitBy 2 20), .deliver [4] (precommitBy 3 20)]

/-- Three validators find block `10` and commit it; the first sees the quorum, then the second. -/
def agreed : List Event :=
  [1, 2, 3].flatMap (votes · 10) ++
  [1, 2, 3].flatMap (fun b => [1, 2, 3].map fun c => .deliver [b] (prevoteBy c 10)) ++
  [1, 2, 3].flatMap (fun b => [.task [b] (.poll false), .task [b] .go]) ++
  [.deliver [1] (precommitBy 2 10), .deliver [1] (precommitBy 3 10)]

def agreedLater : List Event := [.deliver [2] (precommitBy 1 10), .deliver [2] (precommitBy 3 10)]

theorem agreed_one_block :
    Obtains fourStakes (run (RoundSafety.netStep fourStakes ∅) (Net.init fun _ => 0) agreed) [1] 1 10 ∧
    Obtains fourStakes (run (RoundSafety.netStep fourStakes ∅) (Net.init fun _ => 0)
      (agreed ++ agreedLater)) [2] 1 10 ∧ (10 : Bytes32) = 10 := by
  have h : Obtains fourStakes (run (RoundSafety.netStep fourStakes ∅) (Net.init fun _ => 0) agreed) [1] 1
      10 := by
    unfold Obtains
    decide +kernel
  have h' : Obtains fourStakes (run (RoundSafety.netStep fourStakes ∅) (Net.init fun _ => 0)
      (agreed ++ agreedLater)) [2] 1 10 := by
    unfold Obtains
    decide +kernel
  refine ⟨h, h', round_safety fourStakes ∅ (fun _ => 0) (fun _ _ => 10) (by decide +kernel)
    (by decide +kernel) agreed agreedLater ?_ (Finset.notMem_empty _) (Finset.notMem_empty _) h h'⟩
  simp [Along, OneBlock, agreed, agreedLater, votes]

/-- **Two correct validators can commit different blocks**, with no faulty validator at all. -/
theorem two_blocks_committed :
    ¬ ∀ (stakeMap : StakeMap) (faulty : Finset Bytes) (finalized : Bytes → ℕ),
      3 * weight (stakeAt stakeMap) faulty < weight (stakeAt stakeMap) (members stakeMap) →
      ∀ (es es' : List Event) (who who' : Bytes), who ∉ faulty → who' ∉ faulty →
      ∀ (height : ℕ) (hash hash' : Bytes32),
      Obtains stakeMap (run (RoundSafety.netStep stakeMap faulty) (Net.init finalized) es) who height
        hash →
      Obtains stakeMap (run (RoundSafety.netStep stakeMap faulty) (Net.init finalized) (es ++ es')) who'
        height hash' → hash = hash' := by
  intro h
  have heq := h fourStakes ∅ (fun _ => 0) (by decide +kernel) firstQuorum secondQuorum [1] [4]
    (Finset.notMem_empty _) (Finset.notMem_empty _) 1 10 20 (by unfold Obtains; decide +kernel)
    (by unfold Obtains; decide +kernel)
  exact absurd heq (by decide)

end TruthLinked.Consensus.RoundSafety
