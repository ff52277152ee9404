import TruthLinked.Ledger.Phases
import TruthLinked.Lib.Question
import TruthLinked.Oracle.Windows

/-! # Percentages of the stake

Commits, oracle results, names and token authorities pass when `stake * 100 / total` reaches a percentage. The
product is a `u64` and wraps. Every place that compares a share is a computation that asks whether a stake
reaches the percentage of a total (`Asking`); a share is exact iff the product fits (`share_exact_iff`), and
where all shares that are compared are, the place decides as the exact ratios do (`quorums_exact_iff`). -/

namespace TruthLinked.Ledger.QuorumPercent

open Core.Types Governance.Types Staking.State Staking.Specs Oracle.Tally Oracle.Windows Ledger.Model
open Ledger.Phases Lib.Question

/-! ## Shares -/

/-- A stake and the total that it is a share of. -/
abbrev Share := ℕ × ℕ

/-- The comparison of the code. -/
def reaches (q : ℕ) (c : Share) : Bool := decide (q ≤ c.1 * 100 % u64 / c.2)

/-- The comparison of the exact ratio. -/
def reachesExactly (q : ℕ) (c : Share) : Bool := decide (q * c.2 ≤ 100 * c.1)

/-- The share is the floor of the exact percentage, so that each percentage is reached as by the exact
ratio. -/
def Exact (c : Share) : Prop :=
  c.1 * 100 % u64 / c.2 = 100 * c.1 / c.2 ∧ ∀ q, reaches q c = reachesExactly q c

/-- The largest number of smallest units that the claimants hold together. -/
def supply : ℕ := 10 ^ 18

/-- **When a share is exact**: the product fits. -/
theorem share_exact_iff {c : Share} (hpos : 0 < c.2) (hle : c.2 ≤ u64) : Exact c ↔ c.1 * 100 < u64 := by
  have hmod : c.1 * 100 % u64 < u64 := Nat.mod_lt _ (by decide)
  constructor
  · rintro ⟨hfloor, -⟩
    by_contra hbig
    have hless : c.1 * 100 % u64 + c.2 ≤ 100 * c.1 := by
      have hdiv := Nat.mod_add_div (c.1 * 100) u64
      have hone : 1 ≤ c.1 * 100 / u64 := (Nat.one_le_div_iff (by decide)).mpr (not_lt.mp hbig)
      have hmul : u64 * 1 ≤ u64 * (c.1 * 100 / u64) := Nat.mul_le_mul_left _ hone
      omega
    have hstep := Nat.div_le_div_right (c := c.2) hless
    rw [Nat.add_div_right _ hpos] at hstep
    omega
  · intro hsmall
    have heq : c.1 * 100 % u64 = 100 * c.1 := by rw [Nat.mod_eq_of_lt hsmall, Nat.mul_comm]
    refine ⟨by rw [heq], fun q => ?_⟩
    unfold reaches reachesExactly
    rw [heq, decide_eq_decide]
    exact Nat.le_div_iff_mul_le hpos

/-! ## The places -/

/-- `commit_quorum_reached`. -/
def commits (t : OracleTally) : Asking Share Bool :=
  if t.totalStake = 0 then .pure false else .one (t.committedStake, t.totalStake) id

/-- `try_finalize_with_format`, of other formats than prices. -/
def bodies (env : TallyEnv) (t : OracleTally) (staking : StakingState) :
    Asking Share (Option (Bytes × ℕ × ℕ × ℕ)) :=
  if staking.activeTotal = 0 then .pure none
  else
    (Asking.find (fun (_, _, _, agreeing) => (agreeing, staking.activeTotal))
      (tallyBodies env (t.matching env staking)).toList).map
      fun r => r.map fun (_, body, status, agreeing) => (body, status, agreeing, staking.activeTotal)

/-- `try_finalize_price_usd`. -/
def prices (env : TallyEnv) (t : OracleTally) (staking : StakingState) :
    Asking Share (Option (Bytes × ℕ × ℕ × ℕ)) :=
  if staking.activeTotal = 0 then .pure none
  else
    match (priceSamples env t staking t.reveals.toList).bind picked with
    | none => .pure none
    | some (w, stake, price) => .one (stake, staking.activeTotal) fun yes =>
      if yes then some (env.priceUsdBody price w.length,
        ((w.find? fun x => decide (x.1 = price)).map fun x => x.2.2).getD 200, stake, staking.activeTotal)
      else none

/-- What a name vote asks. -/
def askName (total : ℕ) (n : Names) (vote : String × Bytes × ℕ) : Option Share :=
  match n.pending[vote.1]? with
  | none => none
  | some p =>
    if vote.2.1 ∈ p.votes ∨ total = 0 then none else some (satAdd64 p.totalStakeVoted vote.2.2, total)

/-- One name vote, with the comparison left open. -/
def nameVoteBy (expirationBlocks total : ℕ) (test : Share → Bool) (n : Names)
    (vote : String × Bytes × ℕ) : Names :=
  match n.pending[vote.1]? with
  | none => n
  | some p =>
    if vote.2.1 ∈ p.votes then n
    else
      let p' : PendingNameRegistration :=
        { p with
          votes := p.votes.insert vote.2.1
          totalStakeVoted := satAdd64 p.totalStakeVoted vote.2.2 }
      if 0 < total ∧ test (p'.totalStakeVoted, total) then
        { registry := n.registry.insert vote.1 (registration expirationBlocks p')
          pending := n.pending.erase vote.1 }
      else { n with pending := n.pending.insert vote.1 p' }

theorem nameVoteBy_congr (expirationBlocks total : ℕ) (test test' : Share → Bool) (n : Names)
    (vote : String × Bytes × ℕ) (h : ∀ q, askName total n vote = some q → test' q = test q) :
    nameVoteBy expirationBlocks total test' n vote = nameVoteBy expirationBlocks total test n vote := by
  unfold askName at h
  unfold nameVoteBy
  cases hget : n.pending[vote.1]? with
  | none => rfl
  | some p =>
    rw [hget] at h
    dsimp only at h ⊢
    by_cases hvoted : vote.2.1 ∈ p.votes
    · rw [if_pos hvoted, if_pos hvoted]
    · rw [if_neg hvoted, if_neg hvoted]
      by_cases hzero : total = 0
      · rw [if_neg (fun hc => hc.1.ne' hzero), if_neg (fun hc => hc.1.ne' hzero)]
      · rw [h _ (if_neg (by rintro (hc | hc); exacts [hvoted hc, hzero hc]))]

/-- The name votes of `merge_diff_inplace`. -/
def names (expirationBlocks : ℕ) (votes : List (String × Bytes × ℕ)) (s : State) : Asking Share State :=
  (Asking.fold (nameVoteBy expirationBlocks s.staking.activeTotal) (askName s.staking.activeTotal)
    (nameVoteBy_congr expirationBlocks s.staking.activeTotal) ⟨s.nameRegistry, s.pendingNames⟩ votes).map
    fun n => { s with nameRegistry := n.registry, pendingNames := n.pending }

/-- What a token authority vote asks. -/
def askToken (total : ℕ) (acc : Authorities) (vote : AccountId × Bytes × ℕ) : Option Share :=
  match acc.proposals[vote.1]? with
  | none => none
  | some p =>
    if vote.1 ∈ acc.approved ∨ vote.2.1 ∈ p.voters ∨ total = 0 then none
    else some (satAdd64 p.votesForStake vote.2.2, total)

/-- One token authority vote, with the comparison left open. -/
def tokenVoteBy (total : ℕ) (test : Share → Bool) (acc : Authorities) (vote : AccountId × Bytes × ℕ) :
    Authorities :=
  match acc.proposals[vote.1]? with
  | none => acc
  | some p =>
    if vote.1 ∈ acc.approved ∨ vote.2.1 ∈ p.voters then acc
    else
      let p' : TokenAuthorityProposal :=
        { p with
          voters := p.voters.insert vote.2.1
          votesForStake := satAdd64 p.votesForStake vote.2.2 }
      let proposals' := acc.proposals.insert vote.1 p'
      if total ≠ 0 ∧ test (p'.votesForStake, total) then
        { proposals := proposals'
          cells := acc.cells.modify vote.1 (grantAuthority p')
          approved := acc.approved ++ [vote.1] }
      else { acc with proposals := proposals' }

theorem tokenVoteBy_congr (total : ℕ) (test test' : Share → Bool) (acc : Authorities)
    (vote : AccountId × Bytes × ℕ) (h : ∀ q, askToken total acc vote = some q → test' q = test q) :
    tokenVoteBy total test' acc vote = tokenVoteBy total test acc vote := by
  unfold askToken at h
  unfold tokenVoteBy
  cases hget : acc.proposals[vote.1]? with
  | none => rfl
  | some p =>
    rw [hget] at h
    dsimp only at h ⊢
    by_cases hvoted : vote.1 ∈ acc.approved ∨ vote.2.1 ∈ p.voters
    · rw [if_pos hvoted, if_pos hvoted]
    · rw [if_neg hvoted, if_neg hvoted]
      by_cases hzero : total = 0
      · rw [if_neg (fun hc => hc.1 hzero), if_neg (fun hc => hc.1 hzero)]
      · rw [h _ (if_neg (by rintro (hc | hc | hc); exacts [hvoted (.inl hc), hvoted (.inr hc), hzero hc]))]

/-- The token authority votes of `apply_diff` and `merge_diff_inplace`. -/
def tokens (votes : List (AccountId × Bytes × ℕ)) (s : State) : Asking Share State :=
  (Asking.fold (tokenVoteBy s.staking.activeTotal) (askToken s.staking.activeTotal)
    (tokenVoteBy_congr s.staking.activeTotal) ⟨s.tokenAuthorityProposals, s.cells.cells, []⟩ votes).map
    fun r => { s with
      cells := { s.cells with cells := r.cells }
      tokenAuthorityProposals := r.approved.foldl (fun m cell => m.erase cell) r.proposals }

/-! ## The code asks the wrapped share -/

section Code
variable (env : TallyEnv) (t : OracleTally) (staking : StakingState) (s : State) (q : ℕ)

theorem commits_eq : t.commitQuorumReached q = (commits t).result (reaches q) := by
  unfold OracleTally.commitQuorumReached commits
  split_ifs with hzero
  · exact decide_eq_false fun hc => hc.1 hzero
  · show decide _ = decide _
    rw [decide_eq_decide]
    exact and_iff_right hzero

theorem bodies_eq {format : UrlResponseFormat} (hformat : format ≠ .priceUsd) :
    t.tryFinalizeWithFormat env staking format q = (bodies env t staking).result (reaches q) := by
  unfold OracleTally.tryFinalizeWithFormat bodies
  rw [if_neg hformat]
  dsimp only
  split_ifs with hzero
  · rfl
  · rfl

theorem prices_eq :
    t.tryFinalizeWithFormat env staking .priceUsd q = (prices env t staking).result (reaches q) := by
  unfold OracleTally.tryFinalizeWithFormat prices
  rw [if_pos rfl, tryFinalizePriceUsd_eq]
  split_ifs with hzero
  · rfl
  · cases priceSamples env t staking t.reveals.toList with
    | none => rfl
    | some u =>
      rw [Option.bind_some, Option.bind_some]
      cases picked u with
      | none => rfl
      | some r =>
        obtain ⟨w, stake, price⟩ := r
        have hreach : reaches q (stake, staking.activeTotal) = true ↔
            q ≤ stake * 100 % u64 / staking.activeTotal :=
          decide_eq_true_iff
        rw [Option.bind_some]
        dsimp only [Asking.one]
        by_cases hlow : stake * 100 % u64 / staking.activeTotal < q
        · rw [if_pos hlow, if_neg (fun h => absurd (hreach.mp h) (not_le.mpr hlow))]
        · rw [if_neg hlow, if_pos (hreach.mpr (not_lt.mp hlow))]

theorem names_eq (expirationBlocks : ℕ) (votes : List (String × Bytes × ℕ)) :
    nameVotes expirationBlocks q votes s = (names expirationBlocks votes s).result (reaches q) := by
  have hstep : nameVote expirationBlocks q s.staking.activeTotal =
      nameVoteBy expirationBlocks s.staking.activeTotal (reaches q) := by
    funext n vote
    unfold nameVote nameVoteBy
    cases n.pending[vote.1]? with
    | none => rfl
    | some p => simp only [reaches, decide_eq_true_eq]
  unfold nameVotes names
  rw [hstep]
  rfl

theorem tokens_eq (votes : List (AccountId × Bytes × ℕ)) :
    tokenAuthorityVotes q votes s = (tokens votes s).result (reaches q) := by
  have hstep : tokenAuthorityVote s.staking.activeTotal q = tokenVoteBy s.staking.activeTotal (reaches q) := by
    funext acc vote
    unfold tokenAuthorityVote tokenVoteBy
    cases acc.proposals[vote.1]? with
    | none => rfl
    | some p => simp only [reaches, decide_eq_true_eq]
  unfold tokenAuthorityVotes tokens
  rw [hstep]
  rfl

end Code

/-! ## When the shares are exact -/

section Places
variable {R : Type} {p : Asking Share R} {q : ℕ}

/-- The shares that the place compares at `q` percent are exact. -/
def SharesExact (p : Asking Share R) (q : ℕ) : Prop := ∀ c ∈ p.asked (reaches q), Exact c

/-- No stake that the place compares is above a hundredth of the range. -/
def SharesSmall (p : Asking Share R) (q : ℕ) : Prop := ∀ c ∈ p.asked (reaches q), c.1 * 100 < u64

/-- The code is the place with the wrapped shares; these are exact iff the stakes are small, and then it
decides as the place does with the exact ratios. -/
structure Decides (p : Asking Share R) (q : ℕ) (code : R) : Prop where
  asks : code = p.result (reaches q)
  exact_iff : SharesExact p q ↔ SharesSmall p q
  decides : SharesSmall p q → code = p.result (reachesExactly q)

/-- **A place decides by exact ratios** if its totals are those of the code's numbers. -/
theorem decides_of_totals {code : R} (hcode : code = p.result (reaches q))
    (htotal : ∀ test, ∀ c ∈ p.asked test, 0 < c.2 ∧ c.2 < u64) : Decides p q code := by
  have hiff : SharesExact p q ↔ SharesSmall p q :=
    forall₂_congr fun c hc => share_exact_iff (htotal _ c hc).1 (htotal _ c hc).2.le
  refine ⟨hcode, hiff, fun hsmall => ?_⟩
  rw [hcode]
  exact (p.depends fun c hc => ((hiff.mpr hsmall c hc).2 q).symm).symm

end Places

section Totals
variable {env : TallyEnv} {t : OracleTally} {staking : StakingState} {s : State} {test : Share → Bool} {c : Share}

theorem activeTotal_lt (staking : StakingState) : staking.activeTotal < u64 := by
  unfold StakingState.activeTotal StakingState.stakeOf
  rw [sum64_eq_mod]
  exact Nat.mod_lt _ (by decide)

theorem total_commits (h : c ∈ (commits t).asked test) : 0 < c.2 ∧ c.2 = t.totalStake := by
  unfold commits at h
  split_ifs at h with hzero
  · cases h
  · obtain rfl := List.mem_singleton.mp h
    exact ⟨Nat.pos_of_ne_zero hzero, rfl⟩

theorem total_bodies (h : c ∈ (bodies env t staking).asked test) : 0 < c.2 ∧ c.2 < u64 := by
  unfold bodies at h
  split_ifs at h with hzero
  · cases h
  · obtain ⟨e, -, rfl⟩ := mem_askedUntil h
    exact ⟨Nat.pos_of_ne_zero hzero, activeTotal_lt staking⟩

theorem total_prices (h : c ∈ (prices env t staking).asked test) : 0 < c.2 ∧ c.2 < u64 := by
  unfold prices at h
  split_ifs at h with hzero
  · cases h
  · cases hpicked : (priceSamples env t staking t.reveals.toList).bind picked with
    | none =>
      rw [hpicked] at h
      cases h
    | some r =>
      rw [hpicked] at h
      obtain rfl := List.mem_singleton.mp h
      exact ⟨Nat.pos_of_ne_zero hzero, activeTotal_lt staking⟩

theorem total_names {expirationBlocks : ℕ} {votes : List (String × Bytes × ℕ)}
    (h : c ∈ (names expirationBlocks votes s).asked test) : 0 < c.2 ∧ c.2 < u64 := by
  obtain ⟨n, vote, hask⟩ := mem_askedBy h
  unfold askName at hask
  cases hget : n.pending[vote.1]? with
  | none =>
    rw [hget] at hask
    cases hask
  | some p =>
    rw [hget] at hask
    dsimp only at hask
    split_ifs at hask with hskip
    obtain rfl := Option.some.inj hask
    exact ⟨Nat.pos_of_ne_zero fun hzero => hskip (.inr hzero), activeTotal_lt s.staking⟩

theorem total_tokens {votes : List (AccountId × Bytes × ℕ)} (h : c ∈ (tokens votes s).asked test) :
    0 < c.2 ∧ c.2 < u64 := by
  obtain ⟨acc, vote, hask⟩ := mem_askedBy h
  unfold askToken at hask
  cases hget : acc.proposals[vote.1]? with
  | none =>
    rw [hget] at hask
    cases hask
  | some p =>
    rw [hget] at hask
    dsimp only at hask
    split_ifs at hask with hskip
    obtain rfl := Option.some.inj hask
    exact ⟨Nat.pos_of_ne_zero fun hzero => hskip (.inr (.inr hzero)), activeTotal_lt s.staking⟩

end Totals

/-- **The quorums of the stake**: commits, bodies, prices, names and token authorities compare exact shares
iff the stakes they compare are small, and then decide by the exact ratios. -/
theorem quorums_exact_iff (q : ℕ) :
    (∀ t : OracleTally, t.totalStake < u64 → Decides (commits t) q (t.commitQuorumReached q)) ∧
    (∀ (env : TallyEnv) (t : OracleTally) (staking : StakingState) (format : UrlResponseFormat),
      format ≠ .priceUsd → Decides (bodies env t staking) q (t.tryFinalizeWithFormat env staking format q)) ∧
    (∀ (env : TallyEnv) (t : OracleTally) (staking : StakingState),
      Decides (prices env t staking) q (t.tryFinalizeWithFormat env staking .priceUsd q)) ∧
    (∀ (expirationBlocks : ℕ) (votes : List (String × Bytes × ℕ)) (s : State),
      Decides (names expirationBlocks votes s) q (nameVotes expirationBlocks q votes s)) ∧
    ∀ (votes : List (AccountId × Bytes × ℕ)) (s : State),
      Decides (tokens votes s) q (tokenAuthorityVotes q votes s) := by
  refine ⟨fun t ht => ?_, fun env t staking format hformat => ?_, fun env t staking => ?_,
    fun expirationBlocks votes s => ?_, fun votes s => ?_⟩
  · exact decides_of_totals (commits_eq t q) fun test c hc => ⟨(total_commits hc).1, (total_commits hc).2 ▸ ht⟩
  · exact decides_of_totals (bodies_eq env t staking q hformat) fun test c hc => total_bodies hc
  · exact decides_of_totals (prices_eq env t staking q) fun test c hc => total_prices hc
  · exact decides_of_totals (names_eq s q expirationBlocks votes) fun test c hc => total_names hc
  · exact decides_of_totals (tokens_eq s q votes) fun test c hc => total_tokens hc

def tallyOf (committed total : ℕ) : OracleTally := ⟨0, ∅, ∅, committed, total, false⟩

/-- Two thirds of a small stake are two thirds. -/
theorem quorums_exact_sample :
    (tallyOf 67 100).commitQuorumReached 67 = true ∧ SharesExact (commits (tallyOf 67 100)) 67 := by
  have hdecides := (quorums_exact_iff 67).1 (tallyOf 67 100) (by decide)
  have hsmall : SharesSmall (commits (tallyOf 67 100)) 67 := by
    intro c hc
    obtain rfl : c = (67, 100) := List.mem_singleton.mp hc
    decide
  exact ⟨hdecides.decides hsmall, hdecides.exact_iff.mpr hsmall⟩

/-- When the whole supply has committed, the share wraps to seven percent. -/
theorem whole_supply_wraps : (tallyOf supply supply).commitQuorumReached 67 = false ∧
    ¬ ∀ t : OracleTally, ∀ q, t.committedStake ≤ supply → t.totalStake ≤ supply → SharesExact (commits t) q := by
  refine ⟨by decide +kernel, fun h => ?_⟩
  have hshare := h (tallyOf supply supply) 67 (le_refl _) (le_refl _) (supply, supply) (List.mem_singleton_self _)
  exact absurd hshare.1 (by decide)

end TruthLinked.Ledger.QuorumPercent
