import TruthLinked.Ledger.Emission

/-! # The bond of a URL proposal

A slash returns a part of the bond to the proposer and shares the rest among the other active validators. All
of it is paid, whatever the rounding, unless an account that is credited is at its limit (`balanceSum_slash`).
In every history of a table of proposals a proposal is decided at most once, and its tallies are the sums of
one ballot for each of its voters (`tallied_of_history`). -/

namespace TruthLinked.Ledger.UrlBonds

open Core.Types Runtime.Types Governance.Types Staking.State Ledger.Model Ledger.OracleUpdates
open Ledger.ApplySpec Ledger.AccountSpecs Ledger.MergeAgreement Ledger.Revenue Ledger.Emission Ledger.Mcp
open Lib.Keyed Lib.MapSum Lib.Table Lib.Wp

/-! ### The payouts -/

/-- The payouts of a slash: equal shares, and one more for each of the first `dust` recipients. -/
def slashShares (env : Env) (share : ℕ) : List Bytes → ℕ → List (AccountId × ℕ)
  | [], _ => []
  | pk :: rest, dust =>
    (accountIdFromPubkey env pk, if 0 < dust then satAdd share 1 else share) :: slashShares
      env share rest (dust - 1)

section Payouts
variable {env : Env} {share : ℕ}

theorem sum_slashShares {l : List Bytes} {dust : ℕ} (hdust : dust ≤ l.length)
    (hone : 0 < dust → share + 1 < u128) :
    ((slashShares env share l dust).map Prod.snd).sum = l.length * share + dust := by
  induction l generalizing dust with
  | nil =>
    rw [List.length_nil] at hdust ⊢
    simp only [slashShares, List.map_nil, List.sum_nil]
    omega
  | cons pk rest ih =>
    rw [List.length_cons] at hdust
    simp only [slashShares, List.map_cons, List.sum_cons, List.length_cons, Nat.add_mul, Nat.one_mul]
    rw [ih (by omega) fun h => hone (by omega)]
    split_ifs with hpos
    · have hfit : satAdd share 1 = share + 1 := min_eq_left (Nat.le_sub_one_of_lt (hone hpos))
      omega
    · omega

/-- **All is shared out**: the shares and the dust make up the amount. -/
theorem sum_shares_eq {total : ℕ} {l : List Bytes} (hne : l ≠ []) (hlt : total < u128) :
    ((slashShares env (total / l.length) l (total % l.length)).map Prod.snd).sum = total := by
  have hpos : 0 < l.length := List.length_pos_iff.mpr hne
  have hdiv := Nat.div_add_mod total l.length
  have hmod := Nat.mod_lt total hpos
  rw [sum_slashShares hmod.le, hdiv]
  intro hdust
  have hmul : total / l.length ≤ l.length * (total / l.length) := Nat.le_mul_of_pos_left _ hpos
  omega

theorem balanceSum_paySlash (l : List Bytes) (dust : ℕ) (m : Accounts) :
    balanceSum (paySlash env share l dust m) ≤ balanceSum m + ((slashShares env share l dust).map Prod.snd).sum ∧
    (balanceSum (paySlash env share l dust m) = balanceSum m + ((slashShares env share l dust).map Prod.snd).sum ↔
      Room m (slashShares env share l dust)) := by
  induction l generalizing dust m with
  | nil => exact ⟨le_rfl, iff_of_true rfl fun a ha => absurd ha (lt_irrefl 0)⟩
  | cons pk rest ih =>
    simp only [paySlash, slashShares, List.map_cons, List.sum_cons]
    generalize (if 0 < dust then satAdd share 1 else share) = payout
    generalize accountIdFromPubkey env pk = id
    obtain ⟨hstep, hroom⟩ := credit_step pk id payout (slashShares env share rest (dust - 1)) m
    rw [hroom]
    dsimp only at hstep ⊢
    generalize (if payout = 0 then m else m.insert id _) = credited at hstep ⊢
    obtain ⟨hle, hiff⟩ := ih (dust - 1) credited
    rw [← hiff]
    constructor
    · omega
    · constructor
      · intro h
        constructor
        · omega
        · omega
      · rintro ⟨hone, h⟩
        omega

end Payouts

/-! ### The slash -/

/-- The part of the bond that is slashed. -/
def slashedPart (env : Env) (p : UrlProposal) (w : World) : ℕ :=
  p.bondAmount * w.globals.getU64 env "oracle.malicious_slash_bps" % u128 / 10000

/-- What a slash credits: the rest of the bond to the proposer, and the shares of the slashed part. -/
def slashCredits (env : Env) (p : UrlProposal) (w : World) : List (AccountId × ℕ) :=
  let recipients := slashRecipients env w.state.staking p.proposer
  (p.proposer, p.bondAmount - slashedPart env p w) ::
    slashShares env (slashedPart env p w / recipients.length) recipients (slashedPart env p w % recipients.length)

/-- A proposal whose bond is still held, with a proposer who has an account and another active validator; the
slashed part is at most the whole, as the specification of the parameter says. -/
structure Slashable (env : Env) (pattern : String) (p : UrlProposal) (w : World) : Prop where
  found : w.state.urlProposals[pattern]? = some p
  held : p.slashed = false
  proposer : p.proposer ∈ w.state.accounts
  balance : balanceOf w.state.accounts p.proposer < u128
  others : slashRecipients env w.state.staking p.proposer ≠ []
  bps : w.globals.getU64 env "oracle.malicious_slash_bps" ≤ 10000

/-- The slash of `p` in `w` leads to `w'`: the accounts get the bond, all of it when there is room, the bond
is then zero, and a second slash leaves `w'` as it is. -/
structure PaidOut (env : Env) (pattern : String) (p : UrlProposal) (w w' : World) : Prop where
  most : balanceSum w'.state.accounts ≤ balanceSum w.state.accounts + p.bondAmount
  all : balanceSum w'.state.accounts = balanceSum w.state.accounts + p.bondAmount ↔
    Room w.state.accounts (slashCredits env p w)
  bond : ∃ p', w'.state.urlProposals[pattern]? = some p' ∧ p'.bondAmount = 0 ∧ p'.slashed = true ∧
    p'.approved = false
  again : outcome (slashUrlProposerBond env pattern) w' = (.ok (), w')

section Slash
variable {env : Env} {pattern : String} {p : UrlProposal} {w : World}

theorem outcome_slash (h : w.state.urlProposals[pattern]? = some p) :
    outcome (slashUrlProposerBond env pattern) w = (.ok (), slashBond env pattern p w) := by
  simp only [slashUrlProposerBond, outcome_bind, outcome_get, h, outcome_modify]

theorem slashedPart_le (h : w.globals.getU64 env "oracle.malicious_slash_bps" ≤ 10000) :
    slashedPart env p w ≤ p.bondAmount := by
  unfold slashedPart
  calc p.bondAmount * w.globals.getU64 env "oracle.malicious_slash_bps" % u128 / 10000
      ≤ p.bondAmount * w.globals.getU64 env "oracle.malicious_slash_bps" / 10000 :=
        Nat.div_le_div_right (Nat.mod_le _ _)
    _ ≤ p.bondAmount * 10000 / 10000 := Nat.div_le_div_right (Nat.mul_le_mul_left _ h)
    _ = p.bondAmount := Nat.mul_div_cancel _ (by decide)

theorem slashedPart_lt : slashedPart env p w < u128 :=
  (Nat.div_le_self _ _).trans_lt (Nat.mod_lt _ (Nat.two_pow_pos 128))

/-- The proposal after a slash. -/
def closed (p : UrlProposal) : UrlProposal :=
  if p.slashed then p else { p with slashed := true, approved := false, rejected := true, bondAmount := 0 }

theorem urlProposals_slashBond (h : w.state.urlProposals[pattern]? = some p) (q : String) :
    (slashBond env pattern p w).state.urlProposals[q]? =
      if q = pattern then some (closed p) else w.state.urlProposals[q]? := by
  unfold slashBond closed
  cases hs : p.slashed with
  | true =>
    rw [if_pos rfl, if_pos rfl]
    split_ifs with hq
    · rw [hq, h]
    · rfl
  | false =>
    simp only [distribute_urlProposals, Bool.false_eq_true, if_false]
    exact getElem?_insert_ite _ _ _ _

theorem modify_proposer {m : Accounts} {a : AccountId} (hmem : a ∈ m) (hlt : balanceOf m a < u128)
    (returned : ℕ) :
    (m.modify a fun r => { r with balance := satAdd r.balance returned }) =
      if returned = 0 then m
      else m.insert a { (m[a]?).getD (AccountRecord.fresh []) with
        balance := satAdd ((m[a]?).getD (AccountRecord.fresh [])).balance returned } := by
  obtain ⟨r, hr⟩ := Option.isSome_iff_exists.mp (Std.ExtTreeMap.mem_iff_isSome_getElem?.mp hmem)
  have hbalance : balanceOf m a = r.balance := by
    rw [balanceOf, slot, hr]
    rfl
  refine slot_ext fun b => ?_
  unfold slot
  rw [getElem?_modify_ite, hr, Option.map_some, Option.getD_some]
  split_ifs with hb hzero hzero
  · rw [hb, hr, hzero]
    have hsame : satAdd r.balance 0 = r.balance := min_eq_left (by omega)
    rw [hsame]
  · rw [hb, getElem?_insert_ite, if_pos rfl]
  · rfl
  · rw [getElem?_insert_ite, if_neg hb]

theorem paySlash_zero (l : List Bytes) (m : Accounts) : paySlash env 0 l 0 m = m := by
  induction l with
  | nil => rfl
  | cons pk rest ih => exact ih

theorem accounts_slashBond (h : Slashable env pattern p w) :
    (slashBond env pattern p w).state.accounts =
      paySlash env (slashedPart env p w / (slashRecipients env w.state.staking p.proposer).length)
        (slashRecipients env w.state.staking p.proposer)
        (slashedPart env p w % (slashRecipients env w.state.staking p.proposer).length)
        (w.state.accounts.modify p.proposer fun r =>
          { r with balance := satAdd r.balance (p.bondAmount - slashedPart env p w) }) := by
  have hothers := h.others
  simp only [slashBond, h.held, Bool.false_eq_true, if_false, distributeUrlSlashEqually, hothers, or_false]
  unfold slashedPart
  split_ifs with hzero
  · rw [hzero, Nat.zero_div, Nat.zero_mod, paySlash_zero]
  · rfl

/-- **What a slash pays**: at most the bond, and all of it when the accounts have room. -/
theorem balanceSum_slash (h : Slashable env pattern p w) :
    balanceSum (slashBond env pattern p w).state.accounts ≤ balanceSum w.state.accounts + p.bondAmount ∧
    (balanceSum (slashBond env pattern p w).state.accounts = balanceSum w.state.accounts + p.bondAmount ↔
      Room w.state.accounts (slashCredits env p w)) := by
  rw [accounts_slashBond h, modify_proposer h.proposer h.balance]
  unfold slashCredits
  dsimp only
  have hsum := @sum_shares_eq env _ _ h.others (@slashedPart_lt env p w)
  have hle := slashedPart_le (p := p) h.bps
  generalize slashRecipients env w.state.staking p.proposer = recipients at hsum ⊢
  generalize slashedPart env p w = slashed at hsum hle ⊢
  obtain ⟨hstep, hroom⟩ := credit_step [] p.proposer (p.bondAmount - slashed)
    (slashShares env (slashed / recipients.length) recipients (slashed % recipients.length)) w.state.accounts
  rw [hroom]
  dsimp only at hstep ⊢
  generalize (if p.bondAmount - slashed = 0 then w.state.accounts else _) = credited at hstep ⊢
  obtain ⟨hmost, hiff⟩ := @balanceSum_paySlash env (slashed / recipients.length) recipients
    (slashed % recipients.length) credited
  rw [← hiff]
  rw [hsum] at hmost ⊢
  constructor
  · omega
  · constructor
    · intro hall
      constructor
      · omega
      · omega
    · rintro ⟨hone, hrest⟩
      omega

theorem paidOut (h : Slashable env pattern p w) : PaidOut env pattern p w (slashBond env pattern p w) := by
  have hproposal : (slashBond env pattern p w).state.urlProposals[pattern]? = some (closed p) := by
    rw [urlProposals_slashBond h.found, if_pos rfl]
  have hclosed : closed p = { p with slashed := true, approved := false, rejected := true, bondAmount := 0 } := by
    rw [closed, h.held]
    rfl
  refine ⟨(balanceSum_slash h).1, (balanceSum_slash h).2, ⟨closed p, hproposal, ?_⟩, ?_⟩
  · rw [hclosed]
    exact ⟨rfl, rfl, rfl⟩
  · have hslashed : (closed p).slashed = true := by rw [hclosed]
    have hagain := @outcome_slash env _ _ _ hproposal
    rwa [show slashBond env pattern (closed p) (slashBond env pattern p w) = slashBond env pattern p w by
      rw [slashBond, if_pos hslashed]] at hagain

end Slash

/-! ### Histories -/

/-- A ballot: the voter, and the stakes for and against. -/
structure Ballot where
  voter : Bytes
  forStake : ℕ
  againstStake : ℕ
  deriving DecidableEq

/-- The update adds a proposal for the pattern. -/
def adds (q : String) : OracleUpdate → Bool
  | .addUrlProposal p => p.urlPattern = q
  | _ => false

/-- The ballots on a pattern in a history, the latest first: those since its proposal was added. -/
def ballots (q : String) : List OracleUpdate → List Ballot
  | [] => []
  | .voteUrlProposal pattern voter forDelta againstDelta :: us =>
    if pattern = q ∧ us.any (adds q) then ⟨voter, forDelta, againstDelta⟩ :: ballots q us else ballots q us
  | _ :: us => ballots q us

/-- An added proposal is as `compute_propose_url_diff` builds it: no votes, no flags. -/
def Built : OracleUpdate → Prop
  | .addUrlProposal p => p.voters = ∅ ∧ p.votesForStake = 0 ∧ p.votesAgainstStake = 0 ∧
    p.approved = false ∧ p.rejected = false ∧ p.slashed = false
  | _ => True

/-- The tables of proposals and their histories, the latest update first. Between two updates all the rest of
the world may change. -/
inductive History (env : Env) : List OracleUpdate → Map String UrlProposal → Prop
  | start : History env [] ∅
  | update {us : List OracleUpdate} {u : OracleUpdate} {w : World} : History env us w.state.urlProposals →
    Built u →
    History env (u :: us) (outcome (applyOracleUpdate env u) w).2.state.urlProposals

/-- What holds of a proposal with these ballots: it is not both approved and rejected, its bond is gone when
it is slashed, and its tallies are the sums over one ballot of each of its voters; while it is open all who
voted are among them. -/
structure Tallied (bs : List Ballot) (p : UrlProposal) : Prop where
  decided : ¬ (p.approved = true ∧ p.rejected = true)
  bond : p.slashed = true → p.rejected = true ∧ p.bondAmount = 0
  counted : ∃ cs : List Ballot, cs.Sublist bs ∧ (cs.map Ballot.voter).Nodup ∧
    (∀ v, v ∈ p.voters ↔ v ∈ cs.map Ballot.voter) ∧
    p.votesForStake = min (cs.map Ballot.forStake).sum (u64 - 1) ∧
    p.votesAgainstStake = min (cs.map Ballot.againstStake).sum (u64 - 1)
  heard : p.approved = false → p.rejected = false → ∀ b ∈ bs, b.voter ∈ p.voters

/-- The proposal after a vote. -/
def voted (total : ℕ) (voter : Bytes) (forDelta againstDelta : ℕ) (p : UrlProposal) : UrlProposal :=
  if p.approved ∨ p.rejected ∨ p.slashed ∨ voter ∈ p.voters then p
  else
    let (p', slash) := voteUrl total voter forDelta againstDelta p
    if p'.approved then p' else if slash then closed p' else p'

/-- What an update does to the proposal of a pattern. -/
def proposalAfter (total : ℕ) (q : String) : OracleUpdate → Option UrlProposal → Option UrlProposal
  | .addUrlProposal p, o => if p.urlPattern = q then some (o.getD p) else o
  | .voteUrlProposal pattern voter forDelta againstDelta, o =>
    if pattern = q then o.map (voted total voter forDelta againstDelta) else o
  | .slashUrlProposer pattern, o => if pattern = q then o.map closed else o
  | _, o => o

section Histories
variable {env : Env} {w : World}

theorem outcome_update (u : OracleUpdate) : (outcome (applyOracleUpdate env u) w).2 = oracleEffect env u w := by
  cases u with
  | slashUrlProposer pattern =>
    simp only [applyOracleUpdate, slashUrlProposerBond, outcome_bind, outcome_get, oracleEffect]
    cases w.state.urlProposals[pattern]? with
    | none => rfl
    | some p => rfl
  | _ => rfl

theorem urlProposals_voteUrl (pattern q : String) (voter : Bytes) (m n : ℕ) :
    (voteUrlProposal env pattern voter m n w).state.urlProposals[q]? =
      if pattern = q then w.state.urlProposals[q]?.map (voted w.state.staking.totalStake voter m n)
      else w.state.urlProposals[q]? := by
  unfold voteUrlProposal
  cases hp : w.state.urlProposals[pattern]? with
  | none =>
    split_ifs with hq
    · rw [← hq, hp]
      rfl
    · rfl
  | some p =>
    have hput : ∀ p' : UrlProposal, (w.state.urlProposals.insert pattern p')[q]? =
        if pattern = q then some p' else w.state.urlProposals[q]? := fun p' =>
      (getElem?_insert_ite _ _ _ _).trans (if_congr eq_comm rfl rfl)
    have hhere : pattern = q → w.state.urlProposals[q]? = some p := fun hq => hq ▸ hp
    have hvoted : voted w.state.staking.totalStake voter m n p =
        if p.approved ∨ p.rejected ∨ p.slashed ∨ voter ∈ p.voters then p
        else if (voteUrl w.state.staking.totalStake voter m n p).1.approved then
          (voteUrl w.state.staking.totalStake voter m n p).1
        else if (voteUrl w.state.staking.totalStake voter m n p).2 then
          closed (voteUrl w.state.staking.totalStake voter m n p).1
        else (voteUrl w.state.staking.totalStake voter m n p).1 := rfl
    have hgoal : (if pattern = q then w.state.urlProposals[q]?.map (voted w.state.staking.totalStake voter m n)
        else w.state.urlProposals[q]?) =
        if pattern = q then some (voted w.state.staking.totalStake voter m n p)
        else w.state.urlProposals[q]? := by
      split_ifs with hq
      · rw [hhere hq, Option.map_some]
      · rfl
    rw [hgoal, hvoted]
    dsimp only
    generalize voteUrl w.state.staking.totalStake voter m n p = outcome
    obtain ⟨p', slash⟩ := outcome
    dsimp only
    by_cases hclosed : p.approved ∨ p.rejected ∨ p.slashed ∨ voter ∈ p.voters
    · rw [if_pos hclosed, if_pos hclosed]
      split_ifs with hq
      · exact hhere hq
      · rfl
    · rw [if_neg hclosed, if_neg hclosed]
      by_cases happroved : p'.approved = true
      · rw [if_pos happroved, if_pos happroved]
        exact hput p'
      · rw [if_neg happroved, if_neg happroved]
        cases slash with
        | false => exact hput p'
        | true =>
          have hfound : (World.onState (fun s => { s with urlProposals := s.urlProposals.insert pattern p' }) w
              ).state.urlProposals[pattern]? = some p' := (getElem?_insert_ite _ _ _ _).trans (if_pos rfl)
          refine (urlProposals_slashBond hfound q).trans ?_
          by_cases hq : pattern = q
          · rw [if_pos hq.symm, if_pos hq]
            rfl
          · rw [if_neg (Ne.symm hq), if_neg hq]
            exact (hput p').trans (if_neg hq)

theorem oracleEffect_slash (pattern : String) : oracleEffect env (.slashUrlProposer pattern) w =
    match w.state.urlProposals[pattern]? with
    | some proposal => slashBond env pattern proposal w
    | none => w := rfl

/-- **What an update does to the table**, proposal by proposal. -/
theorem urlProposals_update (u : OracleUpdate) (q : String) :
    (outcome (applyOracleUpdate env u) w).2.state.urlProposals[q]? =
      proposalAfter w.state.staking.totalStake q u w.state.urlProposals[q]? := by
  rw [outcome_update]
  cases u with
  | addUrlProposal p =>
    refine (getElem?_insertIfNew_ite _ _ _ _).trans ?_
    change _ = if p.urlPattern = q then some (w.state.urlProposals[q]?.getD p) else w.state.urlProposals[q]?
    by_cases hq : p.urlPattern = q
    · rw [if_pos hq, if_pos hq.symm, hq]
    · rw [if_neg hq, if_neg (Ne.symm hq)]
  | voteUrlProposal pattern voter m n => exact urlProposals_voteUrl pattern q voter m n
  | slashUrlProposer pattern =>
    change _ = if pattern = q then w.state.urlProposals[q]?.map closed else w.state.urlProposals[q]?
    rw [oracleEffect_slash]
    cases hp : w.state.urlProposals[pattern]? with
    | none =>
      split_ifs with hq
      · rw [← hq, hp]
        rfl
      · rfl
    | some p =>
      refine (urlProposals_slashBond hp q).trans ?_
      by_cases hq : pattern = q
      · rw [if_pos hq, if_pos hq.symm, ← hq, hp, Option.map_some]
      · rw [if_neg hq, if_neg (Ne.symm hq)]
  | addReveal requestId reveal => exact congrArg (·[q]?) (finalize_urlProposals env requestId _)
  | voteSchemaProposal schemaId voter m n => exact congrArg (·[q]?) (voteSchema_urlProposals schemaId voter m n _)
  | _ => rfl

theorem Tallied.pass {bs : List Ballot} {p : UrlProposal} (h : Tallied bs p) (b : Ballot)
    (hb : p.approved = true ∨ p.rejected = true ∨ p.slashed = true ∨ b.voter ∈ p.voters) :
    Tallied (b :: bs) p := by
  obtain ⟨cs, hsub, hcounted⟩ := h.counted
  refine ⟨h.decided, h.bond, ⟨cs, hsub.cons b, hcounted⟩, fun happroved hrejected c hc => ?_⟩
  rcases List.mem_cons.mp hc with rfl | hc
  · rcases hb with hb | hb | hb | hb
    · rw [happroved] at hb
      cases hb
    · rw [hrejected] at hb
      cases hb
    · have hrejects := (h.bond hb).1
      rw [hrejected] at hrejects
      cases hrejects
    · exact hb
  · exact h.heard happroved hrejected c hc

theorem Tallied.close {bs : List Ballot} {p : UrlProposal} (h : Tallied bs p) : Tallied bs (closed p) := by
  unfold closed
  split_ifs with hs
  · exact h
  · refine ⟨?_, fun _ => ⟨rfl, rfl⟩, h.counted, ?_⟩
    · rintro ⟨happroved, -⟩
      cases happroved
    · intro _ hrejected
      cases hrejected

theorem satAdd64_min (sum stake : ℕ) : satAdd64 (min sum (u64 - 1)) stake = min (stake + sum) (u64 - 1) := by
  unfold satAdd64
  omega

theorem Tallied.decide {bs : List Ballot} {p : UrlProposal} (h : Tallied bs p) (hslashed : p.slashed = false)
    {approved : Bool} : Tallied bs { p with approved := approved, rejected := !approved } := by
  refine ⟨?_, fun hs => ?_, h.counted, fun happroved hrejected => ?_⟩
  · cases approved
    · rintro ⟨happroved, -⟩
      cases happroved
    · rintro ⟨-, hrejected⟩
      cases hrejected
  · exact absurd (hslashed.symm.trans hs) Bool.false_ne_true
  · cases approved
    · cases hrejected
    · cases happroved

theorem Tallied.count {bs : List Ballot} {p : UrlProposal} (h : Tallied bs p) (b : Ballot)
    (hnew : b.voter ∉ p.voters) (happroved : p.approved = false) (hrejected : p.rejected = false) :
    Tallied (b :: bs) { p with
      voters := p.voters.insert b.voter
      votesForStake := satAdd64 p.votesForStake b.forStake
      votesAgainstStake := satAdd64 p.votesAgainstStake b.againstStake } := by
  obtain ⟨cs, hsub, hnodup, hvoters, hfor, hagainst⟩ := h.counted
  have hmem : ∀ v, v ∈ p.voters.insert b.voter ↔ v = b.voter ∨ v ∈ p.voters := by
    intro v
    rw [Std.ExtTreeSet.mem_insert, Std.LawfulEqOrd.compare_eq_iff_eq]
    exact or_congr_left eq_comm
  refine ⟨h.decided, h.bond, ⟨b :: cs, hsub.cons_cons b, ?_, ?_, ?_, ?_⟩, ?_⟩
  · exact List.nodup_cons.mpr ⟨fun hv => hnew ((hvoters _).mpr hv), hnodup⟩
  · intro v
    rw [hmem, List.map_cons, List.mem_cons, hvoters]
  · rw [List.map_cons, List.sum_cons, ← satAdd64_min, ← hfor]
  · rw [List.map_cons, List.sum_cons, ← satAdd64_min, ← hagainst]
  · intro _ _ c hc
    rcases List.mem_cons.mp hc with rfl | hc
    · exact (hmem _).mpr (Or.inl rfl)
    · exact (hmem _).mpr (Or.inr (h.heard happroved hrejected c hc))

theorem Tallied.vote {bs : List Ballot} {p : UrlProposal} (h : Tallied bs p) (b : Ballot) (total : ℕ) :
    Tallied (b :: bs) (voted total b.voter b.forStake b.againstStake p) := by
  unfold voted
  by_cases hpass : p.approved = true ∨ p.rejected = true ∨ p.slashed = true ∨ b.voter ∈ p.voters
  · rw [if_pos hpass]
    exact h.pass b hpass
  · rw [if_neg hpass]
    simp only [not_or, Bool.not_eq_true] at hpass
    obtain ⟨happroved, hrejected, hslashed, hnew⟩ := hpass
    have hcount := h.count b hnew happroved hrejected
    unfold voteUrl
    dsimp only
    by_cases hfor : 0 < total ∧ satMul64 total 2 ≤ satMul64 (satAdd64 p.votesForStake b.forStake) 3
    · rw [if_pos hfor]
      exact @Tallied.decide _ _ hcount hslashed true
    · rw [if_neg hfor]
      by_cases hagainst : 0 < total ∧ satMul64 total 2 ≤ satMul64 (satAdd64 p.votesAgainstStake b.againstStake) 3
      · rw [if_pos hagainst]
        exact (@Tallied.decide _ _ hcount hslashed false).close
      · rw [if_neg hagainst]
        dsimp only
        rw [if_neg (by rw [happroved]; exact Bool.false_ne_true)]
        exact hcount

/-- What holds of the table at a pattern: no proposal was added, or the one that was is tallied. -/
def Sound (q : String) (us : List OracleUpdate) : Option UrlProposal → Prop
  | none => us.any (adds q) = false
  | some p => us.any (adds q) = true ∧ Tallied (ballots q us) p

theorem tallied_built {p : UrlProposal} (h : Built (.addUrlProposal p)) : Tallied [] p := by
  obtain ⟨hvoters, hfor, hagainst, happroved, hrejected, hslashed⟩ := h
  refine ⟨?_, fun hs => absurd (hslashed.symm.trans hs) Bool.false_ne_true,
    ⟨[], List.Sublist.refl _, List.nodup_nil, ?_, ?_, ?_⟩, fun _ _ b hb => absurd hb List.not_mem_nil⟩
  · rw [happroved]
    rintro ⟨hboth, -⟩
    cases hboth
  · intro v
    rw [hvoters]
    simp
  · exact hfor
  · exact hagainst

theorem ballots_eq_nil {q : String} {us : List OracleUpdate} (h : us.any (adds q) = false) :
    ballots q us = [] := by
  induction us with
  | nil => rfl
  | cons u us ih =>
    rw [List.any_cons, Bool.or_eq_false_iff] at h
    have hrest := ih h.2
    cases u with
    | voteUrlProposal pattern voter m n =>
      unfold ballots
      rw [if_neg (by rw [h.2]; exact fun hand => Bool.false_ne_true hand.2)]
      exact hrest
    | _ => exact hrest

/-- **One update** keeps the table sound. -/
theorem Sound.update {q : String} {us : List OracleUpdate} {o : Option UrlProposal} (h : Sound q us o)
    {u : OracleUpdate} (hbuilt : Built u) (total : ℕ) : Sound q (u :: us) (proposalAfter total q u o) := by
  cases u with
  | addUrlProposal p =>
    change Sound q _ (if p.urlPattern = q then some (o.getD p) else o)
    by_cases hq : p.urlPattern = q
    · rw [if_pos hq]
      have hadded : (OracleUpdate.addUrlProposal p :: us).any (adds q) = true := by simp [adds, hq]
      cases o with
      | none =>
        have hnone : ballots q (.addUrlProposal p :: us) = [] := @ballots_eq_nil q us h
        refine ⟨hadded, ?_⟩
        rw [hnone]
        exact tallied_built hbuilt
      | some p' => exact ⟨hadded, h.2⟩
    · rw [if_neg hq]
      have hsame : (OracleUpdate.addUrlProposal p :: us).any (adds q) = us.any (adds q) := by simp [adds, hq]
      cases o with
      | none => exact hsame.trans h
      | some p' => exact ⟨hsame.trans h.1, h.2⟩
  | voteUrlProposal pattern voter m n =>
    change Sound q _ (if pattern = q then o.map (voted total voter m n) else o)
    cases o with
    | none =>
      split_ifs with hq
      · exact h
      · exact h
    | some p =>
      have hballots : ballots q (.voteUrlProposal pattern voter m n :: us) =
          if pattern = q ∧ us.any (adds q) then ⟨voter, m, n⟩ :: ballots q us else ballots q us := rfl
      split_ifs with hq
      · refine ⟨h.1, ?_⟩
        rw [hballots, if_pos ⟨hq, h.1⟩]
        exact h.2.vote ⟨voter, m, n⟩ total
      · refine ⟨h.1, ?_⟩
        rw [hballots, if_neg fun hand => hq hand.1]
        exact h.2
  | slashUrlProposer pattern =>
    change Sound q _ (if pattern = q then o.map closed else o)
    cases o with
    | none =>
      split_ifs with hq
      · exact h
      · exact h
    | some p =>
      split_ifs with hq
      · exact ⟨h.1, h.2.close⟩
      · exact h
  | _ => exact h

/-- **Every history** keeps the table sound. -/
theorem sound_of_history {us : List OracleUpdate} {m : Map String UrlProposal} (h : History env us m)
    (q : String) :
    Sound q us m[q]? := by
  induction h with
  | start => rfl
  | @update us u w _ hbuilt ih =>
    rw [urlProposals_update]
    exact ih.update hbuilt _

end Histories

/-- **The bond and the ballots.** A slash credits the accounts with at most the bond, and with all of it when
they have room; the bond is then gone and a second slash changes nothing. In every history of updates a
proposal is decided at most once, and its tallies count one ballot of each of its voters. -/
theorem bonds_and_ballots (env : Env) :
    (∀ pattern p w, Slashable env pattern p w →
      ∃ w', outcome (slashUrlProposerBond env pattern) w = (.ok (), w') ∧ PaidOut env pattern p w w') ∧
    (∀ us m, History env us m → ∀ pattern p, m[pattern]? = some p → Tallied (ballots pattern us) p) := by
  constructor
  · intro pattern p w h
    exact ⟨slashBond env pattern p w, outcome_slash h.found, paidOut h⟩
  · intro us m h pattern p hp
    have hsound := sound_of_history h pattern
    rw [hp] at hsound
    exact hsound.2

/-! ### Two validators and a full account -/

def slashEnv : Env :=
  { rewardEnv with
    sha256 := fun bs =>
      if bs = "truthlinked.param.v1oracle.malicious_slash_bps".toUTF8.toList then
        0x70ec23ccf0eb80842d14ac29205530ce16ae10779be1f7a00cda8fa7babae072
      else rewardDigest bs }

def bondProposal : UrlProposal :=
  { urlPattern := "https://a.b/*", proposer := firstAccount, bondAmount := 101, voters := ∅, votesForStake := 0,
    votesAgainstStake := 0, createdAt := 0, votingEndsAt := 10, approved := false,
    rejected := false, slashed := false, responseFormat := .raw, schemaId := none }

/-- The two validators of `revenueState`; seven tenths of a bond are slashed. -/
def bondWorld (second : ℕ) : World :=
  { state := { sampleState with
      accounts := fromList [(firstAccount, ⟨[1], 5, 0, 0, []⟩), (secondAccount, ⟨[2], second, 0, 0, []⟩)]
      staking := twoValidators
      urlProposals := fromList [("https://a.b/*", bondProposal)] }
    globals := { sampleWorld.globals with
      paramCache := fromList [(paramKey slashEnv.sha256 "oracle.malicious_slash_bps", encodeU64 7000)] } }

theorem slashable_sample : Slashable slashEnv "https://a.b/*" bondProposal (bondWorld 7) := by
  constructor
  all_goals decide +kernel

theorem slashable_full : Slashable slashEnv "https://a.b/*" bondProposal (bondWorld (u128 - 1)) := by
  constructor
  all_goals decide +kernel

/-- The bond of 101 is returned to 31 and paid out to 70, and the bond of the proposal is gone. -/
theorem bond_paid_sample :
    ∃ w', outcome (slashUrlProposerBond slashEnv "https://a.b/*") (bondWorld 7) = (.ok (), w') ∧
    balanceSum w'.state.accounts = 12 + 101 ∧ ∃ p', w'.state.urlProposals["https://a.b/*"]? = some p' ∧
      p'.bondAmount = 0 := by
  obtain ⟨w', hok, hpaid⟩ := (bonds_and_ballots slashEnv).1 _ _ _ slashable_sample
  have hroom : Room (bondWorld 7).state.accounts (slashCredits slashEnv bondProposal (bondWorld 7)) :=
    room_of_sum (by decide +kernel)
  have hsum : balanceSum (bondWorld 7).state.accounts = 12 := by decide +kernel
  obtain ⟨p', hp', hbond, -⟩ := hpaid.bond
  refine ⟨w', hok, ?_, p', hp', hbond⟩
  rw [hpaid.all.mpr hroom, hsum]
  rfl

/-- An account at its limit loses its share of the slashed part. -/
theorem full_account_loses :
    ¬ ∀ (env : Env) (pattern : String) (p : UrlProposal) (w : World), Slashable env pattern p w →
    balanceSum (outcome (slashUrlProposerBond env pattern) w).2.state.accounts =
      balanceSum w.state.accounts + p.bondAmount := by
  intro h
  have hsum := h slashEnv "https://a.b/*" bondProposal (bondWorld (u128 - 1)) slashable_full
  rw [outcome_slash slashable_full.found] at hsum
  exact absurd hsum (by decide +kernel)

end TruthLinked.Ledger.UrlBonds
