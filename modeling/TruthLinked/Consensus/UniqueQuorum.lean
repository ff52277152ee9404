import TruthLinked.Consensus.RoundSafety
import TruthLinked.Lib.Table

/-! # One hash at the quorum

`prevote_quorum`, `precommit_quorum` and `majority_committed_hash` walk hash maps and return the first hash
whose stake reaches two thirds. A validator has one vote in a round, so two hashes never reach the threshold
there. The commitments to batches are kept per hash, and a validator may commit to several: as long as those
that do hold little enough stake, one hash reaches the threshold, and the results do not depend on the order
of the walk (`quorums_unique`). -/

namespace TruthLinked.Consensus.UniqueQuorum

open Core.Types Staking.State Staking.Specs Consensus.Types Consensus.Rounds Consensus.RoundSafety
open Lib.Weight Lib.Run Lib.Table

/-! ## Tables and calls -/

/-- `batch_commitments`: the validators that committed to a hash, by height and hash. -/
abbrev Commitments := Map ℕ (Map Bytes32 (Std.ExtTreeSet Bytes))

/-- The hashes committed to at a height. -/
def commitsAt (cs : Commitments) (height : ℕ) : Map Bytes32 (Std.ExtTreeSet Bytes) := cs[height]?.getD ∅

/-- The validators that committed to a hash at a height. -/
def votersOf (cs : Commitments) (height : ℕ) (batchHash : Bytes32) : Std.ExtTreeSet Bytes :=
  (commitsAt cs height)[batchHash]?.getD ∅

/-- `record_batch_commitment`. Heights more than 10 behind the finalized one are dropped. -/
def recordBatchCommitment (finalized height : ℕ) (batchHash : Bytes32) (pk : Bytes) (cs : Commitments) :
    Commitments :=
  (cs.insert height ((commitsAt cs height).insert batchHash ((votersOf cs height batchHash).insert pk))).filter
    fun h _ => decide (finalized ≤ (h + 10) % u64)

/-- What the three quorums are read from. -/
structure Tables where
  votes : RoundState
  commitments : Commitments

/-- A call that records a vote or a commitment; `finalized` is the finalized height at the time. -/
inductive Call where
  | addPrevote (vote : Vote)
  | addPrecommit (vote : Vote)
  | recordBatchCommitment (finalized height : ℕ) (batchHash : Bytes32) (pk : Bytes)

def step (s : Tables) : Call → Tables
  | .addPrevote vote => { s with votes := s.votes.addPrevote vote }
  | .addPrecommit vote => { s with votes := s.votes.addPrecommit vote }
  | .recordBatchCommitment finalized height batchHash pk =>
    { s with commitments := UniqueQuorum.recordBatchCommitment finalized height batchHash pk s.commitments }

/-- The tables of a new height. -/
def start (height : ℕ) : Tables := ⟨.new height, ∅⟩

/-! ## The walks -/

/-- One turn of the loop that counts votes. -/
def countVote (stakeMap : StakeMap) (tally : Map Bytes32 ℕ) (vote : Vote) : Map Bytes32 ℕ :=
  match vote.blockHash, stakeMap[vote.validatorPubkey]? with
  | some h, some s => tally.insert h ((tally[h]?.getD 0 + s) % u64)
  | _, _ => tally

/-- The first hash of a walk whose value passes. -/
def firstHash {V : Type} (p : V → Bool) (walk : List (Bytes32 × V)) : Option Bytes32 :=
  (walk.find? fun e => p e.2).map Prod.fst

/-- `r` is what `prevote_quorum` or `precommit_quorum` returns when it walks the votes of the round and the
tally in some orders. -/
def QuorumResult (table : VoteTable) (round threshold : ℕ) (stakeMap : StakeMap) (r : Option Bytes32) : Prop :=
  ∃ (votes : List Vote) (walk : List (Bytes32 × ℕ)), votes.Perm ((votesIn table round).toList.map Prod.snd) ∧
    walk.Perm (votes.foldl (countVote stakeMap) ∅).toList ∧ r = firstHash (fun s => decide (threshold ≤ s)) walk

/-- The stake of the active validators among those that committed to a hash. -/
def committedStake (active : StakeMap) (voters : Std.ExtTreeSet Bytes) : ℕ :=
  sum64 (voters.toList.filterMap fun pk => active[pk]?)

/-- `r` is what `majority_committed_hash` returns when it walks the hashes of the height in some order. -/
def MajorityResult (cs : Commitments) (height : ℕ) (active : StakeMap) (r : Option Bytes32) : Prop :=
  ∃ walk : List (Bytes32 × Std.ExtTreeSet Bytes), walk.Perm (commitsAt cs height).toList ∧
    r = if totalStake active = 0 then none
      else firstHash (fun voters => decide (bftThreshold active ≤ committedStake active voters)) walk

/-! ## What is unique -/

/-- The whole stake of a table. -/
def wholeStake (stakeMap : StakeMap) : ℕ := weight (stakeAt stakeMap) (members stakeMap)

/-- `floor(2T/3) + 1`. -/
def quorumStake (stakeMap : StakeMap) : ℕ := 2 * wholeStake stakeMap / 3 + 1

/-- At most one hash of a round reaches the threshold, and the result does not depend on the walk: it is that
of the walk in `voteQuorum`. -/
structure UniqueVotes (table : VoteTable) (stakeMap : StakeMap) : Prop where
  one : ∀ round h h', quorumStake stakeMap ≤ voteStake table round (some h) stakeMap →
    quorumStake stakeMap ≤ voteStake table round (some h') stakeMap → h = h'
  result : ∀ round r r', QuorumResult table round (quorumStake stakeMap) stakeMap r →
    QuorumResult table round (quorumStake stakeMap) stakeMap r' → r = r'
  walk : ∀ round r, QuorumResult table round (quorumStake stakeMap) stakeMap r →
    r = voteQuorum table round (quorumStake stakeMap) stakeMap

/-- At most one hash committed to at a height reaches the threshold, and the result does not depend on the
walk. -/
structure UniqueCommits (cs : Commitments) (active : StakeMap) : Prop where
  one : ∀ height h h', quorumStake active ≤ committedStake active (votersOf cs height h) →
    quorumStake active ≤ committedStake active (votersOf cs height h') → h = h'
  result : ∀ height r r', MajorityResult cs height active r → MajorityResult cs height active r' → r = r'

/-- The commitments that the calls record for a height. -/
def recorded (calls : List Call) (height : ℕ) : List (Bytes32 × Bytes) :=
  calls.filterMap fun
    | .recordBatchCommitment _ h batchHash pk => if h = height then some (batchHash, pk) else none
    | _ => none

/-- The validators that commit to two hashes of a height. -/
def doubleCommitters (calls : List Call) (height : ℕ) : Finset Bytes :=
  ((recorded calls height).map Prod.snd).toFinset.filter fun pk =>
    ∃ a ∈ recorded calls height, ∃ b ∈ recorded calls height, a.2 = pk ∧ b.2 = pk ∧ a.1 ≠ b.1

/-! ## Walks with at most one hit -/

theorem firstHash_eq_some_iff {V : Type} {p : V → Bool} {walk : List (Bytes32 × V)} {P : Bytes32 → Prop}
    (hone : ∀ h h', P h → P h' → h = h') (hP : ∀ h, P h ↔ ∃ v, (h, v) ∈ walk ∧ p v = true) (h : Bytes32) :
    firstHash p walk = some h ↔ P h := by
  unfold firstHash
  constructor
  · intro hf
    obtain ⟨e, he, rfl⟩ := Option.map_eq_some_iff.mp hf
    have hpass := List.find?_some he
    exact (hP e.1).mpr ⟨e.2, List.mem_of_find?_eq_some he, hpass⟩
  · intro hh
    obtain ⟨v, hv, hp⟩ := (hP h).mp hh
    obtain ⟨e, he⟩ := Option.isSome_iff_exists.mp (List.find?_isSome.mpr ⟨(h, v), hv, hp⟩ :
      (walk.find? fun e => p e.2).isSome)
    have hpass := List.find?_some he
    have hhit : P e.1 := (hP e.1).mpr ⟨e.2, List.mem_of_find?_eq_some he, hpass⟩
    rw [he, Option.map_some, hone _ _ hhit hh]

/-! ## Votes -/

/-- Every vote of a table is under its validator. -/
def Keyed (table : VoteTable) : Prop :=
  ∀ (round : ℕ) (pk : Bytes) (vote : Vote), (votesIn table round)[pk]? = some vote → vote.validatorPubkey = pk

theorem keyed_empty : Keyed ∅ := by
  intro round pk vote h
  simp [votesIn] at h

theorem Keyed.addVote {table : VoteTable} (h : Keyed table) (vote : Vote) : Keyed (addVote table vote) := by
  intro round pk v hv
  unfold Rounds.addVote votesIn at hv
  rw [Std.ExtTreeMap.getElem?_insert] at hv
  split_ifs at hv with hround hnew
  · exact h vote.round pk v hv
  · rw [Option.getD_some, Std.ExtTreeMap.getElem?_insert] at hv
    split_ifs at hv with hpk
    · obtain rfl := Std.LawfulEqOrd.eq_of_compare hpk
      obtain rfl := Option.some.inj hv
      rfl
    · exact h vote.round pk v hv
  · exact h round pk v hv

section Votes
variable {stakeMap : StakeMap} {table : VoteTable}

/-- The stakes that a list of votes brings to a hash. -/
def stakesFor (stakeMap : StakeMap) (h : Bytes32) (votes : List Vote) : List ℕ :=
  votes.filterMap fun v => if v.blockHash = some h then stakeMap[v.validatorPubkey]? else none

/-- **The tally** of a hash, whatever the order of the votes. -/
theorem tally_eq (votes : List Vote) (h : Bytes32) (tally : Map Bytes32 ℕ) :
    (votes.foldl (countVote stakeMap) tally)[h]?.getD 0 =
      if stakesFor stakeMap h votes = [] then tally[h]?.getD 0
      else (tally[h]?.getD 0 + (stakesFor stakeMap h votes).sum) % u64 := by
  induction votes generalizing tally with
  | nil => simp [stakesFor]
  | cons v votes ih =>
    rw [List.foldl_cons, ih, stakesFor, stakesFor, List.filterMap_cons]
    unfold countVote
    cases hb : v.blockHash with
    | none => simp
    | some x =>
      cases hs : stakeMap[v.validatorPubkey]? with
      | none => simp
      | some s =>
        dsimp only
        by_cases hx : x = h
        · subst hx
          rw [Std.ExtTreeMap.getElem?_insert_self, Option.getD_some, if_pos rfl]
          simp only [reduceCtorEq, ↓reduceIte, List.sum_cons]
          split_ifs with hnil
          · rw [hnil, List.sum_nil, Nat.add_zero]
          · rw [Nat.mod_add_mod, Nat.add_assoc]
        · rw [getElem?_insert_ite, if_neg (Ne.symm hx), if_neg fun he => hx (Option.some.inj he)]

theorem tally_voteStake {round : ℕ} {votes : List Vote}
    (hv : votes.Perm ((votesIn table round).toList.map Prod.snd)) (h : Bytes32) :
    (votes.foldl (countVote stakeMap) ∅)[h]?.getD 0 = voteStake table round (some h) stakeMap := by
  have hsame : stakesFor stakeMap h ((votesIn table round).toList.map Prod.snd) =
      ((votesIn table round).toList.filter fun e => decide (e.2.blockHash = some h)).filterMap
        fun e => stakeMap[e.2.validatorPubkey]? := by
    rw [stakesFor, List.filterMap_map, List.filterMap_filter]
    congr 1
    funext e
    simp
  have hsum : (stakesFor stakeMap h votes).sum = (((votesIn table round).toList.filter fun e =>
      decide (e.2.blockHash = some h)).filterMap fun e => stakeMap[e.2.validatorPubkey]?).sum := by
    rw [← hsame]
    exact (hv.filterMap _).sum_eq
  rw [tally_eq, voteStake, sum64_eq_mod, ← hsum]
  split_ifs with hnil
  · simp [hnil]
  · simp

theorem quorumResult_iff (hone : ∀ round h h', quorumStake stakeMap ≤ voteStake table round (some h) stakeMap →
      quorumStake stakeMap ≤ voteStake table round (some h') stakeMap → h = h')
    {round : ℕ} {r : Option Bytes32} (hr : QuorumResult table round (quorumStake stakeMap) stakeMap r)
    (h : Bytes32) : r = some h ↔ quorumStake stakeMap ≤ voteStake table round (some h) stakeMap := by
  obtain ⟨votes, walk, hv, hw, rfl⟩ := hr
  refine firstHash_eq_some_iff (hone round) (fun h => ?_) h
  rw [← tally_voteStake hv h]
  constructor
  · intro hle
    cases hget : (votes.foldl (countVote stakeMap) ∅)[h]? with
    | none =>
      rw [hget, Option.getD_none, quorumStake] at hle
      omega
    | some s =>
      rw [hget, Option.getD_some] at hle
      exact ⟨s, hw.mem_iff.mpr (Std.ExtTreeMap.mem_toList_iff_getElem?_eq_some.mpr hget), decide_eq_true hle⟩
  · rintro ⟨s, hs, hle⟩
    rw [Std.ExtTreeMap.mem_toList_iff_getElem?_eq_some.mp (hw.mem_iff.mp hs)]
    exact of_decide_eq_true hle

theorem voteQuorum_iff (hone : ∀ round h h', quorumStake stakeMap ≤ voteStake table round (some h) stakeMap →
      quorumStake stakeMap ≤ voteStake table round (some h') stakeMap → h = h') (round : ℕ) (h : Bytes32) :
    voteQuorum table round (quorumStake stakeMap) stakeMap = some h ↔
      quorumStake stakeMap ≤ voteStake table round (some h) stakeMap := by
  have hfound : ∀ x, voteQuorum table round (quorumStake stakeMap) stakeMap = some x →
      quorumStake stakeMap ≤ voteStake table round (some x) stakeMap := fun x hx => by
    simpa only [decide_eq_true_eq] using List.find?_some hx
  refine ⟨hfound h, fun hle => ?_⟩
  have hvoted : h ∈ (votesIn table round).toList.filterMap fun e => e.2.blockHash := by
    by_contra hno
    have hnone : (votesIn table round).toList.filter (fun e => decide (e.2.blockHash = some h)) = [] :=
      List.filter_eq_nil_iff.mpr fun e he hb => hno (List.mem_filterMap.mpr ⟨e, he, of_decide_eq_true hb⟩)
    rw [voteStake, hnone, quorumStake] at hle
    cases hle
  obtain ⟨x, hx⟩ : ∃ x, voteQuorum table round (quorumStake stakeMap) stakeMap = some x :=
    Option.isSome_iff_exists.mp (List.find?_isSome.mpr ⟨h, hvoted, decide_eq_true hle⟩)
  rw [hx, hone round x h (hfound x hx) hle]

/-- **Votes** are unique: a validator has one in a round. -/
theorem uniqueVotes_of_keyed (hk : Keyed table) (stakeMap : StakeMap) : UniqueVotes table stakeMap := by
  have hone : ∀ round h h', quorumStake stakeMap ≤ voteStake table round (some h) stakeMap →
      quorumStake stakeMap ≤ voteStake table round (some h') stakeMap → h = h' := by
    intro round h h' hle hle'
    obtain ⟨S, hS, hw, hvotes⟩ := @exists_voters h table round stakeMap (hk round)
    obtain ⟨S', hS', hw', hvotes'⟩ := @exists_voters h' table round stakeMap (hk round)
    have htwice : weight (stakeAt stakeMap) (members stakeMap) < 2 * quorumStake stakeMap := by
      unfold quorumStake wholeStake
      omega
    -- the two sets of voters share a validator, and it has one vote
    obtain ⟨pk, hpk, hpk', -⟩ := meets_of_lt _ htwice S hS S' hS' (hle.trans hw) (hle'.trans hw')
    obtain ⟨vote, hget, hb⟩ := hvotes pk hpk
    obtain ⟨vote', hget', hb'⟩ := hvotes' pk hpk'
    obtain rfl := Option.some.inj (hget.symm.trans hget')
    exact Option.some.inj (hb.symm.trans hb')
  refine ⟨hone, fun round r r' hr hr' => Option.ext fun h => ?_, fun round r hr => Option.ext fun h => ?_⟩
  · rw [quorumResult_iff hone hr, quorumResult_iff hone hr']
  · rw [quorumResult_iff hone hr, voteQuorum_iff hone]

end Votes

/-! ## Commitments -/

section Commits
variable {active : StakeMap} {cs : Commitments}

theorem sum_filterMap_stakeAt (pks : List Bytes) :
    (pks.filterMap fun pk => active[pk]?).sum = (pks.map (stakeAt active)).sum := by
  induction pks with
  | nil => rfl
  | cons pk pks ih =>
    rw [List.map_cons, List.sum_cons, ← ih, stakeAt, List.filterMap_cons]
    cases active[pk]? with
    | none => simp
    | some s => simp

theorem exists_committers (active : StakeMap) (voters : Std.ExtTreeSet Bytes) :
    ∃ S ⊆ members active, committedStake active voters ≤ weight (stakeAt active) S ∧ ∀ pk ∈ S, pk ∈ voters := by
  have hnd : voters.toList.Nodup := by
    have h : voters.toList.Pairwise fun a b => ¬ compare a b = .eq := Std.ExtTreeSet.distinct_toList
    refine h.imp fun {a b} hab he => hab ?_
    rw [he]
    exact Std.ReflOrd.compare_self
  refine ⟨voters.toList.toFinset ∩ members active, Finset.inter_subset_right, ?_, ?_⟩
  · have hin : weight (stakeAt active) (voters.toList.toFinset ∩ members active) =
        weight (stakeAt active) voters.toList.toFinset := by
      refine Finset.sum_subset Finset.inter_subset_left fun pk hpk hno => ?_
      exact stakeAt_eq_zero fun hm => hno (Finset.mem_inter.mpr ⟨hpk, hm⟩)
    rw [hin, ← sum_map_eq_weight _ hnd, ← sum_filterMap_stakeAt]
    exact sum64_le _
  · intro pk hpk
    exact Std.ExtTreeSet.mem_toList.mp (List.mem_toFinset.mp (Finset.mem_inter.mp hpk).1)

/-- Every recorded voter comes from a call. -/
def FromCalls (calls : List Call) (cs : Commitments) : Prop :=
  ∀ height h pk, pk ∈ votersOf cs height h → (h, pk) ∈ recorded calls height

theorem recorded_append (calls more : List Call) (height : ℕ) :
    recorded (calls ++ more) height = recorded calls height ++ recorded more height := List.filterMap_append

theorem commitsAt_filter (p : ℕ → Bool) (height : ℕ) (hp : p height = true) :
    commitsAt (cs.filter fun h _ => p h) height = commitsAt cs height := by
  rw [commitsAt, Std.ExtTreeMap.getElem?_filter']
  cases hc : cs[height]? with
  | none => simp [commitsAt, hc]
  | some m => simp [commitsAt, hc, hp, Option.filter_some]

theorem commitsAt_filter_of_false (p : ℕ → Bool) (height : ℕ) (hp : p height = false) :
    commitsAt (cs.filter fun h _ => p h) height = ∅ := by
  rw [commitsAt, Std.ExtTreeMap.getElem?_filter']
  cases hc : cs[height]? with
  | none => simp
  | some m => simp [hp]

theorem mem_votersOf_record {finalized height height' : ℕ} {h h' : Bytes32} {pk pk' : Bytes}
    (hm : pk' ∈ votersOf (recordBatchCommitment finalized height h pk cs) height' h') :
    pk' ∈ votersOf cs height' h' ∨ (height = height' ∧ h = h' ∧ pk = pk') := by
  unfold votersOf recordBatchCommitment at hm
  cases hp : decide (finalized ≤ (height' + 10) % u64) with
  | false =>
    rw [commitsAt_filter_of_false (fun h => decide (finalized ≤ (h + 10) % u64)) height' hp] at hm
    simp at hm
  | true =>
    rw [commitsAt_filter (fun h => decide (finalized ≤ (h + 10) % u64)) height' hp, commitsAt,
      getElem?_insert_ite] at hm
    by_cases hh : height = height'
    · subst hh
      rw [if_pos rfl, Option.getD_some, getElem?_insert_ite] at hm
      by_cases hx : h = h'
      · subst hx
        rw [if_pos rfl, Option.getD_some, Std.ExtTreeSet.mem_insert] at hm
        rcases hm with he | hm
        · exact .inr ⟨rfl, rfl, Std.LawfulEqOrd.eq_of_compare he⟩
        · exact .inl hm
      · rw [if_neg (Ne.symm hx)] at hm
        exact .inl hm
    · rw [if_neg (Ne.symm hh)] at hm
      exact .inl hm

theorem FromCalls.step {calls : List Call} {s : Tables} (h : FromCalls calls s.commitments) (c : Call) :
    FromCalls (calls ++ [c]) (step s c).commitments := by
  intro height x pk hm
  rw [recorded_append, List.mem_append]
  cases c with
  | addPrevote vote => exact .inl (h height x pk hm)
  | addPrecommit vote => exact .inl (h height x pk hm)
  | recordBatchCommitment finalized at_ y pk' =>
    rcases mem_votersOf_record hm with hold | ⟨rfl, rfl, rfl⟩
    · exact .inl (h height x pk hold)
    · exact .inr (by simp [recorded])

/-- **Commitments** are unique when those that commit twice hold little stake. -/
theorem uniqueCommits_of_fromCalls {calls : List Call} (h : FromCalls calls cs)
    (hfit : 2 * wholeStake active < u64)
    (hdouble : ∀ height, wholeStake active + weight (stakeAt active) (doubleCommitters calls height) <
      2 * quorumStake active) : UniqueCommits cs active := by
  have hthreshold : bftThreshold active = quorumStake active := by
    have hu : u64 = 2 ^ 64 := rfl
    unfold wholeStake at hfit
    rw [bftThreshold_eq (by omega), quorumStake, wholeStake, Nat.mul_comm]
  have hone : ∀ height x y, quorumStake active ≤ committedStake active (votersOf cs height x) →
      quorumStake active ≤ committedStake active (votersOf cs height y) → x = y := by
    intro height x y hx hy
    obtain ⟨S, hS, hw, hvoters⟩ := exists_committers active (votersOf cs height x)
    obtain ⟨T, hT, hw', hvoters'⟩ := exists_committers active (votersOf cs height y)
    have hmany := hdouble height
    unfold wholeStake at hmany
    obtain ⟨pk, hpk, hpk', hout, -⟩ := exists_common_outside (stakeAt active) hS hT
      (F := doubleCommitters calls height) (by omega)
    by_contra hne
    refine hout
      (Finset.mem_filter.mpr ⟨?_, ⟨x, pk⟩, h _ _ _ (hvoters pk hpk), ⟨y, pk⟩, h _ _ _ (hvoters' pk hpk'),
      rfl, rfl, hne⟩)
    exact List.mem_toFinset.mpr (List.mem_map_of_mem (f := Prod.snd) (h _ _ _ (hvoters pk hpk)))
  refine ⟨hone, fun height r r' hr hr' => ?_⟩
  obtain ⟨walk, hw, rfl⟩ := hr
  obtain ⟨walk', hw', rfl⟩ := hr'
  split_ifs with hzero
  · rfl
  have hhit : ∀ walk : List (Bytes32 × Std.ExtTreeSet Bytes), walk.Perm (commitsAt cs height).toList → ∀ x,
      firstHash (fun voters => decide (bftThreshold active ≤ committedStake active voters)) walk = some x ↔
        quorumStake active ≤ committedStake active (votersOf cs height x) := by
    intro walk hw
    refine firstHash_eq_some_iff (hone height) fun x => ?_
    rw [hthreshold]
    constructor
    · intro hle
      cases hget : (commitsAt cs height)[x]? with
      | none =>
        rw [votersOf, hget, Option.getD_none, quorumStake] at hle
        have hnil : committedStake active (∅ : Std.ExtTreeSet Bytes) = 0 := rfl
        omega
      | some voters =>
        rw [votersOf, hget, Option.getD_some] at hle
        exact ⟨voters, hw.mem_iff.mpr (Std.ExtTreeMap.mem_toList_iff_getElem?_eq_some.mpr hget),
          decide_eq_true hle⟩
    · rintro ⟨voters, hv, hle⟩
      rw [votersOf, Std.ExtTreeMap.mem_toList_iff_getElem?_eq_some.mp (hw.mem_iff.mp hv)]
      exact of_decide_eq_true hle
  exact Option.ext fun x => (hhit walk hw x).trans (hhit walk' hw' x).symm

end Commits

/-! ## Runs -/

theorem run_keyed (height : ℕ) (calls : List Call) :
    Keyed (run step (start height) calls).votes.prevotes ∧
      Keyed (run step (start height) calls).votes.precommits := by
  induction calls using List.reverseRecOn with
  | nil => exact ⟨keyed_empty, keyed_empty⟩
  | append_singleton calls c ih =>
    rw [run_append]
    cases c with
    | addPrevote vote => exact ⟨ih.1.addVote vote, ih.2⟩
    | addPrecommit vote => exact ⟨ih.1, ih.2.addVote vote⟩
    | recordBatchCommitment finalized at_ x pk => exact ih

theorem run_fromCalls (height : ℕ) (calls : List Call) :
    FromCalls calls (run step (start height) calls).commitments := by
  induction calls using List.reverseRecOn with
  | nil =>
    intro height' x pk hm
    simp [start, votersOf, commitsAt] at hm
  | append_singleton calls c ih =>
    rw [run_append]
    exact ih.step c

/-- **One hash at the quorum.** In every run, the votes of a round have at most one hash at the threshold and
one result; so have the commitments of a height, when twice the whole stake fits a `u64` and the validators
that commit to two hashes of a height hold too little stake to be in two quorums. -/
theorem quorums_unique (height : ℕ) (calls : List Call) (stakeMap : StakeMap) :
    UniqueVotes (run step (start height) calls).votes.prevotes stakeMap ∧
    UniqueVotes (run step (start height) calls).votes.precommits stakeMap ∧
    ((2 * wholeStake stakeMap < u64 ∧ ∀ at_, wholeStake stakeMap +
        weight (stakeAt stakeMap) (doubleCommitters calls at_) < 2 * quorumStake stakeMap) →
      UniqueCommits (run step (start height) calls).commitments stakeMap) := by
  obtain ⟨hpre, hcom⟩ := run_keyed height calls
  exact ⟨uniqueVotes_of_keyed hpre stakeMap, uniqueVotes_of_keyed hcom stakeMap,
    fun h => uniqueCommits_of_fromCalls (run_fromCalls height calls) h.1 h.2⟩

def onlyKey : Bytes := List.replicate 1952 1

def soleStake : StakeMap := (∅ : StakeMap).insert onlyKey minValidatorStake

def soleCalls : List Call := [.addPrevote ⟨1, 0, some 7, onlyKey⟩, .recordBatchCommitment 0 1 7 onlyKey]

/-- The condition at a run with one commitment. -/
theorem quorums_unique_sample : UniqueCommits (run step (start 1) soleCalls).commitments soleStake := by
  refine (quorums_unique 1 soleCalls soleStake).2.2 ⟨by decide +kernel, fun at_ => ?_⟩
  have hnone : doubleCommitters soleCalls at_ = ∅ := by
    refine Finset.filter_eq_empty_iff.mpr ?_
    rintro pk - ⟨a, ha, b, hb, -, -, hne⟩
    have hall : ∀ e ∈ recorded soleCalls at_, e.1 = 7 := by
      intro e he
      obtain ⟨c, hc, hr⟩ := List.mem_filterMap.mp he
      simp only [soleCalls, List.mem_cons, List.not_mem_nil, or_false] at hc
      rcases hc with rfl | rfl
      · cases hr
      · dsimp only at hr
        split_ifs at hr
        obtain rfl := Option.some.inj hr
        rfl
    exact hne ((hall a ha).trans (hall b hb).symm)
  rw [hnone]
  decide +kernel

/-- A validator with all the stake commits to two batches, and both reach the threshold. -/
theorem two_majorities : ¬ ∀ (height : ℕ) (calls : List Call) (stakeMap : StakeMap),
    UniqueVotes (run step (start height) calls).votes.prevotes stakeMap ∧
    UniqueVotes (run step (start height) calls).votes.precommits stakeMap ∧
    UniqueCommits (run step (start height) calls).commitments stakeMap := by
  intro h
  obtain ⟨-, -, hcommits⟩ := h 1
    [.recordBatchCommitment 0 1 7 onlyKey, .recordBatchCommitment 0 1 8 onlyKey] soleStake
  exact absurd (hcommits.one 1 7 8 (by decide +kernel) (by decide +kernel)) (by decide)

end TruthLinked.Consensus.UniqueQuorum
