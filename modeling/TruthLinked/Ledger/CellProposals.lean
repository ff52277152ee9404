import TruthLinked.Ledger.NativeCalls

/-! # Proposals about the cells of the system

A cell of the system authority is changed by a proposal: validators vote, one vote an account, each with the
stake of the public key the account has at that time, and the proposal is executed if the votes for it reach
67 percent of the active stake. The observer here notes the accepted votes with their keys (`watch`). An
account with a key that is not its own may let the key vote twice; the threshold is rounded down, and 0 if
there is no active stake. Apart from that the counted votes stay within the stake of the keys that voted, and
an execution has its 67 percent (`proposals_counted`). -/

namespace TruthLinked.Ledger.CellProposals

open Core.Types Governance.Types Runtime.Cells Runtime.Types Staking.State Ledger.Model Ledger.Mcp
open Ledger.Compute Ledger.ComputeCells Ledger.ApplySpec Ledger.ComputeSpec Ledger.Coverage Ledger.Executor
open Ledger.Runs Ledger.MergeAgreement Ledger.AccountSpecs Ledger.Phases Lib.Except Lib.Keyed Lib.Run
open Lib.Table

variable {cellId : AccountId} {cell : CellAccount}

/-! ## The observer -/

/-- The open proposal of a cell. -/
def proposalAt (w : World) (cellId : AccountId) : Option GovernanceProposal :=
  w.state.cells.cells[cellId]?.bind CellAccount.governanceProposal

/-- An accepted vote: the account, its public key and the stake of the key at that time. -/
structure Vote where
  voter : AccountId
  pubkey : Bytes
  stake : ℕ
  approve : Bool
  deriving DecidableEq

/-- The world, and the votes noted for the last proposal of each cell. -/
structure Watched where
  world : World
  votes : AccountId → List Vote

/-- The cell for which an intent makes a proposal. -/
def proposes : TransactionIntent → Option AccountId
  | .proposeCellUpgrade cellId .. => some cellId
  | .proposeCellOwnershipTransfer cellId .. => some cellId
  | .proposeCellMakeImmutable cellId _ => some cellId
  | _ => none

/-- What an accepted transaction adds to the notes. -/
def noted (w : World) (tx : Transaction) (votes : AccountId → List Vote) : AccountId → List Vote :=
  match proposes tx.intent with
  | some cellId => Function.update votes cellId []
  | none =>
    match tx.intent, w.state.accounts[tx.sender]? with
    | .voteCellProposal cellId approve, some account =>
      Function.update votes cellId
        (votes cellId ++ [⟨tx.sender, account.pubkeyBytes, w.state.staking.stakeAt account.pubkeyBytes, approve⟩])
    | _, _ => votes

/-- What happens: a transaction, or something else that leaves another world. -/
inductive Event where
  | transaction (tx : Transaction)
  | elsewhere (w : World)

/-- One event. -/
def watch (env : Env) (s : Watched) : Event → Watched
  | .transaction tx =>
    let r := runTransaction env tx s.world
    ⟨r.2, if r.1.isOk then noted s.world tx s.votes else s.votes⟩
  | .elsewhere w => ⟨w, s.votes⟩

/-- The intents of cell governance. -/
def IsGovernance : TransactionIntent → Prop
  | .proposeCellUpgrade .. => True
  | .proposeCellOwnershipTransfer .. => True
  | .proposeCellMakeImmutable .. => True
  | .voteCellProposal .. => True
  | .executeCellProposal _ => True
  | .rotateKey _ => True
  | _ => False

/-- The transactions are those of cell governance; what happens elsewhere, such as a change of the stakes or
of the height, leaves the proposals alone. -/
def Governs (s : Watched) : Event → Prop
  | .transaction tx => IsGovernance tx.intent
  | .elsewhere w => ∀ cellId, proposalAt w cellId = proposalAt s.world cellId

/-- The stake of the validators that are active at the current height. -/
def activeStake (w : World) : ℕ :=
  (((w.state.staking.validators.toList.map Prod.snd).filter fun v => v.isActive w.globals.currentHeight).map
    ValidatorStake.activeStake).sum

/-- The stake of the keys that voted, every key once, with the stake of its first vote. -/
def keyStake (votes : List Vote) : ℕ :=
  ((votes.map Vote.pubkey).dedup.map fun k =>
    ((votes.find? fun v => decide (v.pubkey = k)).map Vote.stake).getD 0).sum

/-- The votes counted for a proposal are within the stake of the keys that voted. -/
def Counted (s : Watched) : Prop :=
  ∀ cellId p, proposalAt s.world cellId = some p → p.votesFor + p.votesAgainst ≤ keyStake (s.votes cellId)

/-- An execution that goes through has 67 percent of some active stake for it. -/
def Approved (env : Env) (s : Watched) (e : Event) : Prop :=
  ∀ tx cellId, e = .transaction tx → tx.intent = .executeCellProposal cellId →
    (runTransaction env tx s.world).1.isOk = true →
      ∃ p, proposalAt s.world cellId = some p ∧ 0 < activeStake s.world ∧
        67 * activeStake s.world ≤ 100 * p.votesFor

/-- A key that has voted on a proposal votes again only for the account whose id is derived from it, and has
voted for no other. -/
def OwnKey (env : Env) (s : Watched) (e : Event) : Prop :=
  ∀ tx account, e = .transaction tx → s.world.state.accounts[tx.sender]? = some account →
    account.pubkeyBytes ∈ s.world.state.staking.validators →
      ∀ cellId approve p, proposalAt s.world cellId = some p →
      tx.intent = .voteCellProposal cellId approve → tx.sender ∉ p.voters →
        ∀ v ∈ s.votes cellId, v.pubkey = account.pubkeyBytes →
          v.voter = accountIdFromPubkey env v.pubkey ∧ tx.sender = accountIdFromPubkey env account.pubkeyBytes

/-- A validator executes a proposal whose timelock is over only while there is active stake, in the range of a
`u64`, and with votes that are not just the rounded threshold. -/
def Backed (s : Watched) (e : Event) : Prop :=
  ∀ tx account, e = .transaction tx → s.world.state.accounts[tx.sender]? = some account →
    account.pubkeyBytes ∈ s.world.state.staking.validators → ∀ cellId p, proposalAt s.world cellId = some p →
      tx.intent = .executeCellProposal cellId →
        p.createdAtHeight + p.timelockBlocks ≤ s.world.globals.currentHeight →
        0 < activeStake s.world ∧ activeStake s.world < u64 ∧
          (p.votesFor = 67 * activeStake s.world / 100 → 100 ∣ activeStake s.world)

/-! ## What a transaction does to the proposals -/

section Turns
variable {env : Env} {w : World} {tx : Transaction} {account : AccountRecord} {f : Fees} {d : StateDiff}

theorem proposalAt_redeploy (cellId : AccountId) (cell : CellAccount) (c : AccountId) :
    proposalAt (applied env (withFees tx.sender account f (redeploy env w (start env tx) cellId cell)) w) c =
      if c = cellId then cell.governanceProposal else proposalAt w c := by
  have hcells : (applied env (withFees tx.sender account f (redeploy env w (start env tx) cellId cell))
      w).state.cells =
      { w.state.cells with cells := w.state.cells.cells.insert cellId cell } := by
    rw [NativeCalls.cells_applied ⟨rfl, rfl, rfl, rfl, rfl, rfl, rfl, rfl, rfl⟩]
    rfl
  unfold proposalAt
  rw [hcells]
  dsimp only
  rw [getElem?_insert_ite]
  split_ifs
  · rfl
  · rfl

theorem runTransaction_governance (h : IsGovernance tx.intent) :
    ((runTransaction env tx w).1.isOk = false ∧ (runTransaction env tx w).2 = w) ∨
      ((runTransaction env tx w).1.isOk = true ∧ ∃ account d f, w.state.accounts[tx.sender]? = some account ∧
        computeIntent env w (start env tx) tx.sender tx.timestamp account tx.intent = .ok d ∧
        (runTransaction env tx w).2 = applied env (withFees tx.sender account f d) w) := by
  cases hd : computeTransactionDiffSkipSig env w tx with
  | error e =>
    rw [runTransaction, hd]
    exact .inl ⟨rfl, rfl⟩
  | ok d =>
    have hcovers : Covers env w tx := by
      unfold Covers
      cases hi : tx.intent <;> first | trivial | (rw [hi] at h; exact h.elim)
    rw [runTransaction_applied hd hcovers]
    obtain ⟨account, d₁, f, hcheck, h1, -, rfl⟩ := compute_eq_ok hd
    exact .inr ⟨rfl, account, d₁, f, (checkTransaction_eq_ok hcheck).2.1, h1, rfl⟩

theorem governedCell_ok {refusal : String}
    (h : governedCell env w.state cellId account refusal = .ok cell) :
    account.pubkeyBytes ∈ w.state.staking.validators ∧ w.state.cells.cells[cellId]? = some cell := by
  simp only [governedCell, failIf_bind_ok, okOr_bind_ok, pure_eq_ok] at h
  obtain ⟨hval, cell', hcell, -, rfl⟩ := h
  exact ⟨not_not.mp hval, hcell⟩

theorem openProposal_ok {p : GovernanceProposal} {n : ℕ} (h : openProposal cell = .ok (p, n)) :
    cell.governanceProposal = some p ∧ n = p.createdAtHeight + p.timelockBlocks := by
  simp only [openProposal, okOr_bind_ok, failIf_bind_ok, pure_eq_ok] at h
  obtain ⟨p', hp, -, -, heq⟩ := h
  simp only [Prod.mk.injEq] at heq
  obtain ⟨rfl, rfl⟩ := heq
  exact ⟨hp, rfl⟩

theorem proposalAt_of_cell (h : w.state.cells.cells[cellId]? = some cell) :
    proposalAt w cellId = cell.governanceProposal := by
  rw [proposalAt, h, Option.bind_some]

/-- **A proposal** starts without votes. -/
theorem proposed (hp : proposes tx.intent = some cellId)
    (h : computeIntent env w (start env tx) tx.sender tx.timestamp account tx.intent = .ok d) (c : AccountId) :
    ∃ p : GovernanceProposal, p.votesFor = 0 ∧ p.votesAgainst = 0 ∧
      proposalAt (applied env (withFees tx.sender account f d) w) c =
        if c = cellId then some p else proposalAt w c := by
  cases hi : tx.intent with
  | proposeCellUpgrade id bytecode reads writes keys specs schemas timelock =>
    rw [hi] at h hp
    obtain rfl := Option.some.inj hp
    simp only [computeIntent, computeProposeCellUpgradeDiff] at h
    obtain ⟨cell, -, h⟩ := bind_eq_ok.mp h
    rw [failIf_bind_ok] at h
    obtain ⟨_, -, h⟩ := bind_eq_ok.mp h.2
    obtain rfl := pure_eq_ok.mp h
    exact ⟨newProposal w _ tx.sender timelock, rfl, rfl, proposalAt_redeploy _ _ c⟩
  | proposeCellOwnershipTransfer id newOwner timelock =>
    rw [hi] at h hp
    obtain rfl := Option.some.inj hp
    simp only [computeIntent, computeProposeCellOwnershipTransferDiff] at h
    obtain ⟨cell, -, h⟩ := bind_eq_ok.mp h
    obtain rfl := pure_eq_ok.mp h
    exact ⟨newProposal w _ tx.sender timelock, rfl, rfl, proposalAt_redeploy _ _ c⟩
  | proposeCellMakeImmutable id timelock =>
    rw [hi] at h hp
    obtain rfl := Option.some.inj hp
    simp only [computeIntent, computeProposeCellMakeImmutableDiff] at h
    obtain ⟨cell, -, h⟩ := bind_eq_ok.mp h
    obtain rfl := pure_eq_ok.mp h
    exact ⟨newProposal w _ tx.sender timelock, rfl, rfl, proposalAt_redeploy _ _ c⟩
  | _ =>
    rw [hi] at hp
    cases hp

/-- **A vote** is that of a new account, and adds the stake of its key. -/
theorem voted {approve : Bool} (hi : tx.intent = .voteCellProposal cellId approve)
    (h : computeIntent env w (start env tx) tx.sender tx.timestamp account tx.intent = .ok d) :
    account.pubkeyBytes ∈ w.state.staking.validators ∧ ∃ p, proposalAt w cellId = some p ∧ tx.sender ∉ p.voters ∧
      ∃ p' : GovernanceProposal,
        p'.votesFor + p'.votesAgainst ≤ p.votesFor + p.votesAgainst +
          w.state.staking.stakeAt account.pubkeyBytes ∧
        p'.voters = p.voters.insert tx.sender ∧
          ∀ c, proposalAt (applied env (withFees tx.sender account f d) w) c =
          if c = cellId then some p' else proposalAt w c := by
  rw [hi] at h
  simp only [computeIntent, computeVoteCellProposalDiff] at h
  obtain ⟨cell, hcell, h⟩ := bind_eq_ok.mp h
  obtain ⟨⟨p, n⟩, hp, h⟩ := bind_eq_ok.mp h
  simp only [failIf_bind_ok, pure_eq_ok] at h
  obtain ⟨-, hnew, rfl⟩ := h
  obtain ⟨hval, hcell⟩ := governedCell_ok hcell
  obtain ⟨hgov, -⟩ := openProposal_ok hp
  refine ⟨hval, p, (proposalAt_of_cell hcell).trans hgov, hnew, _, ?_, rfl, fun c => proposalAt_redeploy _ _ c⟩
  cases approve
  · simp only [Bool.false_eq_true, ↓reduceIte, satAdd64]
    omega
  · simp only [↓reduceIte, satAdd64]
    omega

/-- **An execution** finds the timelock over and the rounded threshold reached, and closes the proposal. -/
theorem executed (hi : tx.intent = .executeCellProposal cellId)
    (h : computeIntent env w (start env tx) tx.sender tx.timestamp account tx.intent = .ok d) :
    account.pubkeyBytes ∈ w.state.staking.validators ∧ ∃ p, proposalAt w cellId = some p ∧
      p.createdAtHeight + p.timelockBlocks ≤ w.globals.currentHeight ∧
      (w.state.staking.stakeOf fun v => v.isActive w.globals.currentHeight) * 67 / 100 ≤ p.votesFor ∧
      ∀ c, proposalAt (applied env (withFees tx.sender account f d) w) c =
        if c = cellId then none else proposalAt w c := by
  rw [hi] at h
  simp only [computeIntent, computeExecuteCellProposalDiff] at h
  obtain ⟨cell, hcell, h⟩ := bind_eq_ok.mp h
  obtain ⟨⟨p, n⟩, hp, h⟩ := bind_eq_ok.mp h
  simp only [failIf_bind_ok] at h
  obtain ⟨htime, -, hvotes, h⟩ := h
  obtain ⟨cell', -, h⟩ := bind_eq_ok.mp h
  obtain rfl := pure_eq_ok.mp h
  obtain ⟨hval, hcell⟩ := governedCell_ok hcell
  obtain ⟨hgov, rfl⟩ := openProposal_ok hp
  exact ⟨hval, p, (proposalAt_of_cell hcell).trans hgov, not_lt.mp htime, not_lt.mp hvotes,
    fun c => proposalAt_redeploy _ _ c⟩

/-- **A rotation** leaves the proposals. -/
theorem rotated {newPubkey : Bytes} (hi : tx.intent = .rotateKey newPubkey)
    (h : computeIntent env w (start env tx) tx.sender tx.timestamp account tx.intent = .ok d) (c : AccountId) :
    proposalAt (applied env (withFees tx.sender account f d) w) c = proposalAt w c := by
  rw [hi] at h
  simp only [computeIntent, computeRotateKeyDiff, failIf_bind_ok, pure_eq_ok] at h
  obtain ⟨-, -, rfl⟩ := h
  unfold proposalAt
  rw [NativeCalls.cells_applied ⟨rfl, rfl, rfl, rfl, rfl, rfl, rfl, rfl, rfl⟩]
  rfl

/-- The key of an account, if there is the account. -/
def keyAt (m : Accounts) (a : AccountId) : Option Bytes := (slot m a).map AccountRecord.pubkeyBytes

theorem keyAt_debited (p : Pocket) (hp : ∀ (r : AccountRecord) n, (p.set r n).pubkeyBytes = r.pubkeyBytes)
    (l : List (AccountId × ℕ))
    (m : Accounts) (a : AccountId) : keyAt (debited p l m) a = keyAt m a := by
  induction l generalizing m with
  | nil => rfl
  | cons c l ih =>
    refine (ih _).trans ?_
    have hstep : keyAt (debitStep p c m) a = keyAt m a := by
      rw [keyAt, debitStep, slot_modify]
      split_ifs
      · rw [Option.map_map]
        exact congrArg (fun g => Option.map g (slot m a)) (funext fun r => hp r _)
      · rfl
    exact hstep

theorem patchRec_key (u : AccountRecord) (o : Option AccountRecord) :
    (patchRec u o).pubkeyBytes =
      (o.map AccountRecord.pubkeyBytes).elim u.pubkeyBytes fun k => if k = [] then u.pubkeyBytes else k := by
  cases o with
  | none => rfl
  | some r => rfl

/-- **The keys after a diff** that creates no account by a payment: the key of a record counts for a new
account and for an account that had none. -/
theorem keyAt_appliedAccounts {d : StateDiff} (htransfers : d.nativeTransfers = [])
    (hcredits : d.computeEscrowCredits = []) (m : Accounts) (a : AccountId) :
    keyAt (appliedAccounts d m) a =
      match slot d.accountUpdates a with
      | some u => some ((keyAt m a).elim u.pubkeyBytes fun k => if k = [] then u.pubkeyBytes else k)
      | none => keyAt m a := by
  have hpaid : keyAt (paidAccounts (fun _ => []) d m) a = keyAt m a := by
    rw [paidAccounts, htransfers, hcredits, keyAt_debited _ fun _ _ => rfl]
    exact keyAt_debited _ (fun _ _ => rfl) _ _ a
  rw [appliedAccounts, keyAt, Agreement.slot_raised, Option.map_map, slot_patchAccounts, ← hpaid]
  cases slot d.accountUpdates a with
  | none => rfl
  | some u => exact congrArg some (patchRec_key u _)

end Turns

/-! ## Runs -/

theorem keyStake_eq {votes : List Vote} (h : (votes.map Vote.pubkey).Nodup) :
    keyStake votes = (votes.map Vote.stake).sum := by
  unfold keyStake
  rw [List.Nodup.dedup h, List.map_map]
  refine congrArg List.sum (List.map_congr_left fun v hv => ?_)
  have hfind : votes.find? (fun u => decide (u.pubkey = v.pubkey)) = some v := by
    obtain ⟨u, hu⟩ := Option.isSome_iff_exists.mp
      (List.find?_isSome.mpr ⟨v, hv, decide_eq_true rfl⟩ :
        (votes.find? fun u => decide (u.pubkey = v.pubkey)).isSome)
    have hkey : u.pubkey = v.pubkey := by
      have := List.find?_some hu
      exact of_decide_eq_true this
    rw [hu, List.inj_on_of_nodup_map h (List.mem_of_find?_eq_some hu) hv hkey]
  rw [Function.comp_apply, hfind]
  rfl

/-- What the notes say of the open proposals: the votes counted are the stakes noted, no key is noted twice,
and the accounts noted are listed with the proposal. -/
structure Noted (votes : List Vote) (p : GovernanceProposal) : Prop where
  counted : p.votesFor + p.votesAgainst ≤ (votes.map Vote.stake).sum
  once : (votes.map Vote.pubkey).Nodup
  listed : ∀ v ∈ votes, v.voter ∈ p.voters

/-- The notes are right for every open proposal. -/
def Reflects (s : Watched) : Prop := ∀ cellId p, proposalAt s.world cellId = some p → Noted (s.votes cellId) p

section Runs
variable {env : Env} {s : Watched} {e : Event}

theorem counted_of_reflects (h : Reflects s) : Counted s := by
  intro cellId p hp
  have hnoted := h cellId p hp
  rw [keyStake_eq hnoted.once]
  exact hnoted.counted

/-- **One event** keeps the notes right. -/
theorem reflects_watch (h : Reflects s) (hgov : Governs s e) (hown : OwnKey env s e) :
    Reflects (watch env s e) := by
  cases e with
  | elsewhere w =>
    intro cellId p hp
    exact h cellId p ((hgov cellId).symm.trans hp)
  | transaction tx =>
    rcases @runTransaction_governance env s.world tx hgov with
      ⟨hfail, hw⟩ | ⟨hok, account, d, f, hacc, hd, hw⟩
    · intro cellId p hp
      simp only [watch, hfail, hw] at hp ⊢
      exact h cellId p hp
    · intro cellId p hp
      simp only [watch, hok, hw, if_true] at hp ⊢
      cases hprop : proposes tx.intent with
      | some id =>
        obtain ⟨p₀, hfor, hagainst, hafter⟩ := proposed (f := f) hprop hd cellId
        simp only [noted, hprop]
        rw [hafter] at hp
        split_ifs at hp with hid
        · subst hid
          obtain rfl := Option.some.inj hp
          rw [Function.update_self]
          refine ⟨?_, List.nodup_nil, fun v hv => absurd hv List.not_mem_nil⟩
          rw [hfor, hagainst]
          exact Nat.zero_le _
        · rw [Function.update_of_ne hid]
          exact h cellId p hp
      | none =>
        cases hi : tx.intent with
        | voteCellProposal id approve =>
          obtain ⟨hval, p₀, hp₀, hnew, p', hsum, hvoters, hafter⟩ := voted (f := f) hi hd
          have hown := hown tx account rfl hacc hval id approve p₀ hp₀ hi hnew
          rw [hi] at hprop
          simp only [noted, hi, hprop, hacc]
          rw [hafter] at hp
          split_ifs at hp with hid
          · subst hid
            obtain rfl := Option.some.inj hp
            have hnoted := h cellId p₀ hp₀
            rw [Function.update_self]
            refine ⟨?_, ?_, fun v hv => ?_⟩
            · rw [List.map_append, List.sum_append, List.map_singleton, List.sum_singleton]
              have := hnoted.counted
              dsimp only
              omega
            · rw [List.map_append, List.map_singleton, List.nodup_append]
              refine ⟨hnoted.once, List.nodup_singleton _, fun k hk k' hk' hkk => ?_⟩
              -- an account that has voted with the key is the sender itself
              obtain ⟨v, hv, rfl⟩ := List.mem_map.mp hk
              rw [List.mem_singleton] at hk'
              obtain ⟨hvoter, hsender⟩ := hown v hv (hkk.trans hk')
              have heq : v.voter = tx.sender := by rw [hvoter, hkk, hk', hsender]
              exact hnew (heq ▸ hnoted.listed v hv)
            · rw [hvoters, Std.ExtTreeSet.mem_insert]
              rcases List.mem_append.mp hv with hv | hv
              · exact .inr (hnoted.listed v hv)
              · rw [List.mem_singleton.mp hv]
                exact .inl Std.ReflCmp.compare_self
          · rw [Function.update_of_ne hid]
            exact h cellId p hp
        | executeCellProposal id =>
          obtain ⟨-, p₀, -, -, -, hafter⟩ := executed (f := f) hi hd
          rw [hi] at hprop
          simp only [noted, hi, hprop]
          rw [hafter] at hp
          split_ifs at hp
          exact h cellId p hp
        | rotateKey newPubkey =>
          rw [rotated hi hd] at hp
          rw [hi] at hprop
          simp only [noted, hi, hprop]
          exact h cellId p hp
        | proposeCellUpgrade | proposeCellOwnershipTransfer | proposeCellMakeImmutable =>
          rw [hi] at hprop
          cases hprop
        | _ =>
          have hgov' : IsGovernance tx.intent := hgov
          rw [hi] at hgov'
          exact hgov'.elim

/-- **An execution** has its votes. -/
theorem approved_watch (hgov : Governs s e) (hbacked : Backed s e) : Approved env s e := by
  intro tx cellId he hi hok
  subst he
  rcases @runTransaction_governance env s.world tx hgov with ⟨hfail, -⟩ | ⟨-, account, d, f, hacc, hd, -⟩
  · rw [hfail] at hok
    cases hok
  · obtain ⟨hval, p, hp, htime, hvotes, -⟩ := executed (f := f) hi hd
    obtain ⟨hpos, hlt, hround⟩ := hbacked tx account rfl hacc hval cellId p hp hi htime
    have htotal : (s.world.state.staking.stakeOf fun v => v.isActive s.world.globals.currentHeight) =
        activeStake s.world := Staking.Specs.sum64_eq hlt
    rw [htotal] at hvotes
    refine ⟨p, hp, hpos, ?_⟩
    by_cases heq : p.votesFor = 67 * activeStake s.world / 100
    · obtain ⟨k, hk⟩ := hround heq
      omega
    · omega

theorem along_take {P : Watched → Event → Prop} {es : List Event} (h : Along (watch env) P s es) (i : ℕ) :
    Along (watch env) P s (es.take i) := by
  rw [← List.take_append_drop i es] at h
  exact h.of_append.1

theorem reflects_start {w : World} (h : ∀ cellId, proposalAt w cellId = none) : Reflects ⟨w, fun _ => []⟩ := by
  intro cellId p hp
  rw [h] at hp
  cases hp

end Runs

/-- **Proposals are counted.** In every run of governance transactions, between which stakes, heights and
whatever else may change, from a state without proposals, in which a key votes again on a proposal only for
the account it belongs to and proposals are executed with active stake and not at the rounded threshold: the
votes counted are within the stake of the keys that voted, before every event, and every execution has 67
percent of the active stake. -/
theorem proposals_counted (env : Env) (w : World) (es : List Event)
    (hstart : ∀ cellId, proposalAt w cellId = none)
    (hgov : Along (watch env) Governs ⟨w, fun _ => []⟩ es)
    (hown : Along (watch env) (OwnKey env) ⟨w, fun _ => []⟩ es)
    (hbacked : Along (watch env) Backed ⟨w, fun _ => []⟩ es) :
    (∀ i, Counted (run (watch env) ⟨w, fun _ => []⟩ (es.take i))) ∧
      Along (watch env) (Approved env) ⟨w, fun _ => []⟩ es := by
  refine ⟨fun i => ?_, ?_⟩
  · have htake := along_take (hgov.and hown) i
    exact counted_of_reflects
      (htake.invariant (I := Reflects) (fun s e h he => reflects_watch h he.1 he.2) (reflects_start hstart))
  · exact (hgov.and hbacked).imp_of_invariant (I := fun _ => True) (fun _ _ _ _ => trivial)
      (fun s e _ he => approved_watch he.1 he.2) trivial

/-! ## A sample proposal

The hash functions and the serialised form are those of the node on the inputs that occur here. -/

def proposalSha256 (bs : Bytes) : Bytes32 :=
  if bs = "truthlinked-system-authority-v1".toUTF8.toList then
    0xab923a002917cab8090516e64bf46a5d49efcb1a5dae7932816beb614abe0412
  else paramDigest bs

def validatorKey : Bytes := List.replicate 1952 1

def samplePropose : Transaction := ⟨1, .proposeCellMakeImmutable 9 0, [], 1, 0, 7, 10⟩

def sampleVote : Transaction := ⟨1, .voteCellProposal 9 true, [], 2, 0, 7, 10⟩

def sampleExecute : Transaction := ⟨1, .executeCellProposal 9, [], 2, 0, 7, 10⟩

def lateExecute : Transaction := ⟨1, .executeCellProposal 9, [], 3, 0, 7, 10⟩

def proposalBytes (tx : Transaction) : Bytes :=
  let intent : Bytes := match tx.intent with
    | .proposeCellMakeImmutable cellId timelock => [29] ++ ofBytes32 cellId ++ varint 10 timelock
    | .voteCellProposal cellId approve => [30] ++ ofBytes32 cellId ++ [if approve then 1 else 0]
    | .executeCellProposal cellId => [31] ++ ofBytes32 cellId
    | _ => []
  ofBytes32 tx.sender ++ intent ++ varint 10 tx.signature.length ++ tx.signature ++ varint 10 tx.nonce ++
    varint 10 tx.timestamp ++ ofBytes32 tx.genesisFingerprint ++ varint 10 tx.expirationHeight

/-- The third-party code, on the inputs that occur here. -/
def proposalEnv : Env :=
  { sampleEnv with
    blake3 := fun bs =>
      if bs = proposalBytes samplePropose then 0x45c90508d5bdfb0fb6645b95e7ac5689fea08e1565f3c572b126cf37420f606a
      else if bs = proposalBytes sampleVote then 0xb77fa59321c924a1f949af2220bc976c731c059144e1155751d88a43b6b8cecd
      else if bs = proposalBytes lateExecute then 0x161713802b204c7602083d4948a9844f1092c400af7ffee9b320a182e12597e1
      else 0xeebd809795d02238b80c73644776efd4c70cc1e74aaabe9190a9e1c66f92e404
    serialize := proposalBytes
    sha256 := proposalSha256
    isPublicKey := fun key => decide (key.length = 1952) }

def systemCell : CellAccount where
  cellId := 9
  owner := systemAuthorityId proposalEnv
  bytecode := []
  storage := ∅
  balance := 0
  rentDeposit := 0
  isToken := false
  tokenConfig := none
  createdAt := 0
  upgradedAt := none
  lastRentPaidHeight := 0
  rentGraceBlocks := 0
  pendingOwner := none
  isImmutable := false
  declaredReads := []
  declaredWrites := []
  commutativeKeys := []
  storageKeySpecs := []
  oracleSchemaIds := []
  governanceProposal := none
  manifestVersion := 1
  manifestHash := 0

/-- A ledger with the system cell and one validator, jailed or not. -/
def proposalWorld (jailedUntil : Option ℕ) : World where
  state :=
    { sampleState with
      accounts := fromList [(1, ⟨validatorKey, 1000000, 1000000, 0, []⟩)]
      staking := ⟨fromList [(validatorKey, ⟨minValidatorStake, [], jailedUntil⟩)], 0, none⟩
      cells := { sampleState.cells with cells := fromList [(9, systemCell)] } }
  globals :=
    { sampleWorld.globals with
      paramCache := fromList
        [(paramKey proposalSha256 "gas.transfer", encodeU64 10),
          (paramKey proposalSha256 "fees.tx_byte", encodeU64 1),
          (paramKey proposalSha256 "cu.per_tlkd", encodeU64 1000000000)] }

theorem proposalWorld_start (jailedUntil : Option ℕ) (cellId : AccountId) :
    proposalAt (proposalWorld jailedUntil) cellId = none := by
  have hone : fromList [((9 : AccountId), systemCell)] =
      (∅ : Map AccountId CellAccount).insert 9 systemCell := rfl
  show ((fromList [((9 : AccountId), systemCell)])[cellId]?).bind CellAccount.governanceProposal = none
  rw [hone, getElem?_insert_ite]
  split_ifs
  · rfl
  · rw [Std.ExtTreeMap.getElem?_empty]
    rfl

def sampleStart : Watched := ⟨proposalWorld none, fun _ => []⟩

example : (watch proposalEnv sampleStart (.transaction samplePropose)).votes 9 = [] := by
  decide +kernel

theorem ownKey_of_no_vote {env : Env} {s : Watched} {tx : Transaction}
    (h : ∀ cellId approve, tx.intent ≠ .voteCellProposal cellId approve) : OwnKey env s (.transaction tx) := by
  intro tx' account he _ _ cellId approve p _ hi
  obtain rfl := Event.transaction.inj he
  exact absurd hi (h cellId approve)

theorem backed_of_no_execution {s : Watched} {tx : Transaction}
    (h : ∀ cellId, tx.intent ≠ .executeCellProposal cellId) :
    Backed s (.transaction tx) := by
  intro tx' account he _ _ cellId p _ hi
  obtain rfl := Event.transaction.inj he
  exact absurd hi (h cellId)

def votedRun : List Event := [.transaction samplePropose, .transaction sampleVote, .transaction lateExecute]

/-- The only validator is active; it votes, and the proposal is executed. -/
theorem proposals_counted_sample :
    Counted (run (watch proposalEnv) sampleStart (votedRun.take 2)) ∧
      (runTransaction proposalEnv lateExecute
        (run (watch proposalEnv) sampleStart (votedRun.take 2)).world).1.isOk = true ∧
      Along (watch proposalEnv) (Approved proposalEnv) sampleStart votedRun := by
  have hown : Along (watch proposalEnv) (OwnKey proposalEnv) sampleStart votedRun := by
    refine ⟨ownKey_of_no_vote (fun _ _ hi => by cases hi), ?_,
      ownKey_of_no_vote (fun _ _ hi => by cases hi), trivial⟩
    intro tx account he _ _ cellId approve p _ hi _ v hv
    rw [← Event.transaction.inj he] at hi
    obtain ⟨rfl, rfl⟩ := TransactionIntent.voteCellProposal.inj hi
    have hnone : (watch proposalEnv sampleStart (.transaction samplePropose)).votes 9 = [] := by
      decide +kernel
    rw [hnone] at hv
    cases hv
  have hbacked : Along (watch proposalEnv) Backed sampleStart votedRun := by
    refine ⟨backed_of_no_execution (fun _ hi => by cases hi),
      backed_of_no_execution (fun _ hi => by cases hi), ?_, trivial⟩
    intro tx account _ _ _ cellId p _ _ _
    have hactive : activeStake (watch proposalEnv (watch proposalEnv sampleStart
        (.transaction samplePropose)) (.transaction sampleVote)).world = minValidatorStake := by decide +kernel
    rw [hactive]
    exact ⟨by decide, by decide, fun _ => by decide⟩
  obtain ⟨hcounted, happroved⟩ :=
    proposals_counted proposalEnv (proposalWorld none) votedRun (proposalWorld_start none)
    ⟨trivial, trivial, trivial, trivial⟩ hown hbacked
  exact ⟨hcounted 2, by decide +kernel, happroved⟩

/-- With the only validator in jail there is no active stake, and the proposal is executed without a vote. -/
theorem execution_without_votes :
    ¬ ∀ (env : Env) (w : World) (es : List Event), (∀ cellId, proposalAt w cellId = none) →
    Along (watch env) Governs ⟨w, fun _ => []⟩ es →
      (∀ i, Counted (run (watch env) ⟨w, fun _ => []⟩ (es.take i))) ∧
        Along (watch env) (Approved env) ⟨w, fun _ => []⟩ es := by
  intro h
  have happroved :=
    (h proposalEnv (proposalWorld (some 1000)) [.transaction samplePropose, .transaction sampleExecute]
    (proposalWorld_start _) ⟨trivial, trivial, trivial⟩).2.2.1
  have hok : (runTransaction proposalEnv sampleExecute
      (watch proposalEnv ⟨proposalWorld (some 1000), fun _ => []⟩
        (.transaction samplePropose)).world).1.isOk = true := by
    decide +kernel
  obtain ⟨p, -, hpos, -⟩ := happroved sampleExecute 9 rfl rfl hok
  have hzero : activeStake
      (watch proposalEnv ⟨proposalWorld (some 1000), fun _ => []⟩ (.transaction samplePropose)).world = 0 := by
    decide +kernel
  rw [hzero] at hpos
  exact absurd hpos (lt_irrefl 0)

end TruthLinked.Ledger.CellProposals
