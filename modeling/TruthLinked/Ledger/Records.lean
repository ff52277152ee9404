import TruthLinked.Ledger.Coverage

/-! # The account records of a computed diff

Many intents write back whole account records. Each of them copies the nonce of its account, or starts from a
fresh record where there is no account, and all but the three that move an NFT copy the list of NFTs
(`copied_compute`). After `apply_diff` the nonces and the lists are those of the records
(`nonceOf_applied`, `nftsOf_applied`). -/

namespace TruthLinked.Ledger.Records

open Core.Types Runtime.Types Governance.Types Staking.State Ledger.Model Ledger.Phases Ledger.OracleUpdates
open Ledger.Mcp Ledger.PrivateBalance Ledger.Compute Ledger.ComputeCells Ledger.Apply Ledger.AccountSpecs
open Ledger.StakingSpecs Ledger.ApplySpec Ledger.ComputeSpec Ledger.Demand Lib.Except Lib.Keyed Lib.Phase
open Lib.Wp

variable {p : Pocket} {r₀ : AccountRecord}

/-- The nonce of an account; a missing account has not sent anything. -/
def nonceOf (m : Accounts) (a : AccountId) : ℕ := (slot m a).elim 0 AccountRecord.nonce

/-- The NFTs that an account lists. -/
def nftsOf (m : Accounts) (a : AccountId) : List Bytes32 := (slot m a).elim [] AccountRecord.nfts

theorem nonceOf_some {m : Accounts} {a : AccountId} {r : AccountRecord} (h : m[a]? = some r) :
    nonceOf m a = r.nonce := by
  rw [nonceOf, slot, h]
  rfl

theorem nftsOf_some {m : Accounts} {a : AccountId} {r : AccountRecord} (h : m[a]? = some r) :
    nftsOf m a = r.nfts := by
  rw [nftsOf, slot, h]
  rfl

/-! ## Records that copy their accounts -/

/-- Every record has the nonce of its account and, when `P` holds, its NFTs. -/
def Copied (P : Prop) (m : Accounts) (updates : Map AccountId AccountRecord) : Prop :=
  ∀ a r, slot updates a = some r → r.nonce = nonceOf m a ∧ (P → r.nfts = nftsOf m a)

/-- The intents that move an NFT from one list to another. -/
def MovesNft : TransactionIntent → Prop
  | .mintNFT .. | .transferNFT .. | .burnNFT .. => True
  | _ => False

section Copies
variable {P : Prop} {env : Env} {w : World} {tx : Transaction} {account : AccountRecord} {m : Accounts}
  {updates : Map AccountId AccountRecord} {a : AccountId} {r : AccountRecord}

theorem copied_empty (P : Prop) (m : Accounts) : Copied P m ∅ := by
  intro a r h
  have hnone : slot (∅ : Map AccountId AccountRecord) a = none := Std.ExtTreeMap.getElem?_empty
  rw [hnone] at h
  cases h

theorem Copied.insert (h : Copied P m updates) (hnonce : r.nonce = nonceOf m a)
    (hnfts : P → r.nfts = nftsOf m a) : Copied P m (updates.insert a r) := by
  intro b r' hb
  rw [slot_insert] at hb
  split_ifs at hb with hab
  · obtain rfl := Option.some.inj hb
    rw [← hab]
    exact ⟨hnonce, hnfts⟩
  · exact h b r' hb

theorem Copied.insert_same (h : Copied P m updates) (hr₀ : m[a]? = some r₀)
    (hnonce : r.nonce = r₀.nonce) (hnfts : r.nfts = r₀.nfts) : Copied P m (updates.insert a r) :=
  h.insert (hnonce.trans (nonceOf_some hr₀).symm) fun _ => hnfts.trans (nftsOf_some hr₀).symm

theorem Copied.insert_fresh (h : Copied P m updates) (hnone : m[a]? = none) (hnonce : r.nonce = 0)
    (hnfts : P → r.nfts = []) : Copied P m (updates.insert a r) := by
  refine h.insert ?_ fun hP => ?_
  · rw [nonceOf, slot, hnone, hnonce]
    rfl
  · rw [nftsOf, slot, hnone, hnfts hP]
    rfl

theorem Copied.putRecord {d : StateDiff} (h : Copied P m d.accountUpdates)
    (hr₀ : m[a]? = some r₀) (hnonce : r.nonce = r₀.nonce) (hnfts : P → r.nfts = r₀.nfts) :
    Copied P m (putRecord d a r) := by
  refine h.insert ?_ fun hP => (hnfts hP).trans (nftsOf_some hr₀).symm
  cases hu : d.accountUpdates[a]? with
  | none => exact hnonce.trans (nonceOf_some hr₀).symm
  | some u => exact (h a u hu).1

theorem Copied.createRecipient (h : Copied P w.state.accounts updates) (recipient : AccountId)
    (pubkey : Bytes) : Copied P w.state.accounts (createRecipient w.state recipient pubkey updates) := by
  unfold Compute.createRecipient
  split_ifs with hmem
  · exact h
  · exact h.insert_fresh (Std.ExtTreeMap.getElem?_eq_none hmem) rfl fun _ => rfl

theorem copied_start (P : Prop) (m : Accounts) (env : Env) (tx : Transaction) :
    Copied P m (start env tx).accountUpdates := copied_empty P m

theorem copied_payValue {d : StateDiff} (value : ℕ) (hacc : m[tx.sender]? = some account)
    (h : Copied P m d.accountUpdates) :
    Copied P m (payValue d tx.sender value account).accountUpdates := by
  unfold payValue
  split_ifs
  · exact h.putRecord hacc rfl fun _ => rfl
  · exact h

theorem copied_takePayments {pb : StateDiff}
    (hpb : pb.accountUpdates = fromList [(a, r)]) (hr₀ : m[a]? = some r₀) (hnonce : r.nonce = r₀.nonce)
    (hnfts : r.nfts = r₀.nfts) : Copied P m (takePayments (start env tx) pb).accountUpdates := by
  have htake : (takePayments (start env tx) pb).accountUpdates =
      replaceAccounts pb.accountUpdates (start env tx).accountUpdates := rfl
  have hone : Copied P m pb.accountUpdates := by
    rw [hpb]
    exact (copied_empty P m).insert_same hr₀ hnonce hnfts
  intro b r' hb
  rw [htake, Agreement.slot_replaceAccounts] at hb
  cases hu : slot pb.accountUpdates b with
  | none =>
    rw [hu, Option.none_or] at hb
    exact copied_start P m env tx b r' hb
  | some u =>
    rw [hu, Option.some_or] at hb
    obtain rfl := Option.some.inj hb
    exact hone b u hu

/-! ## Intent by intent -/

theorem copied_transfer (recipient : AccountId) (pubkey : Bytes) (amount : ℕ) :
    Ensures (computeTransferDiff env w (start env tx) tx.sender recipient pubkey amount account)
      fun d => Copied P w.state.accounts d.accountUpdates := by
  simp only [computeTransferDiff, ensures_bind, ensures_failIf, ensures_okOr, ensures_pure]
  intro _ _ _ _
  exact ensures_true.mono fun _ _ => (copied_start P _ env tx).createRecipient recipient pubkey

theorem copied_batchTransfer (transfers : List BatchTransferEntry) :
    Ensures (computeBatchTransferDiff env w (start env tx) tx.sender transfers account)
      fun d => Copied P w.state.accounts d.accountUpdates := by
  have hfold : ∀ (ts : List BatchTransferEntry) (updates : Map AccountId AccountRecord),
      Copied P w.state.accounts updates →
      Copied P w.state.accounts (ts.foldl (fun updates t =>
        createRecipient w.state t.recipient (t.recipientPubkey.getD []) updates) updates) := by
    intro ts
    induction ts with
    | nil => exact fun _ h => h
    | cons t ts ih => exact fun _ h => ih _ (h.createRecipient _ _)
  simp only [computeBatchTransferDiff, ensures_bind, ensures_failIf, ensures_okOr, ensures_pure]
  intro _ _
  exact ensures_true.mono fun _ _ _ _ _ _ => hfold transfers _ (copied_start P _ env tx)

theorem copied_claim (sender recipient : AccountId) (pubkey : Bytes) (amount timestamp : ℕ) :
    Ensures (computeClaimDiff env w (start env tx) sender recipient pubkey amount timestamp)
      fun d => Copied P w.state.accounts d.accountUpdates := by
  simp only [computeClaimDiff, ensures_bind, ensures_failIf, ensures_okOr, ensures_pure]
  refine fun _ => ensures_true.mono fun _ _ _ _ _ _ => ensures_true.mono fun _ _ => ?_
  unfold claimRecord
  cases hr : w.state.accounts[recipient]? with
  | none =>
    simp only [ensures_bind, ensures_failIf, ensures_pure]
    exact fun _ => (copied_start P _ env tx).insert_fresh hr rfl fun _ => rfl
  | some existing =>
    simp only [ensures_bind, ensures_okOr, ensures_ite, ensures_failIf, ensures_pure]
    intro balance _
    exact ⟨fun _ _ => (copied_start P _ env tx).insert_same hr rfl rfl,
      fun _ => (copied_start P _ env tx).insert_same hr rfl rfl⟩

theorem copied_callChain (hacc : w.state.accounts[tx.sender]? = some account) (calls : List CellCall)
    (gasLimit : ℕ) (allow : Bool) :
    Ensures (computeCallChainDiff env w (start env tx) tx.sender calls gasLimit account allow)
      fun d => Copied P w.state.accounts d.accountUpdates := by
  simp only [computeCallChainDiff, ensures_bind, ensures_failIf]
  intro _ _ _ _ _
  refine ensures_true.mono fun out _ => ?_
  rw [ensures_pure]
  refine copied_payValue _ hacc ?_
  simp only [addCells]
  rw [accountUpdates_chain]
  exact copied_start P _ env tx

theorem copied_payRoyalty (hacc : w.state.accounts[tx.sender]? = some account) (nft : NFTRecord)
    (salePrice : Option ℕ) :
    Ensures (payRoyalty w.state (start env tx) tx.sender nft salePrice account)
      (Copied P w.state.accounts) := by
  unfold payRoyalty
  split
  · rw [ensures_ite]
    refine ⟨fun _ => ?_, fun _ => ensures_pure.mpr (copied_start P _ env tx)⟩
    simp only [ensures_bind, ensures_failIf, ensures_okOr, ensures_pure]
    intro _ balance _ payee hpayee payeeBalance _
    refine Copied.insert_same ?_ hpayee rfl rfl
    exact (copied_start P _ env tx).putRecord hacc rfl fun _ => rfl
  · exact ensures_pure.mpr (copied_start P _ env tx)

theorem Copied.insert_nfts (h : Copied P m updates) (hP : ¬ P) {r' : AccountRecord}
    (hr : updates[a]?.or m[a]? = some r) (hnonce : r'.nonce = r.nonce) :
    Copied P m (updates.insert a r') := by
  refine h.insert ?_ fun hp => absurd hp hP
  cases hu : updates[a]? with
  | some u =>
    rw [hu, Option.some_or] at hr
    obtain rfl := Option.some.inj hr
    exact hnonce.trans (h a u hu).1
  | none =>
    rw [hu, Option.none_or] at hr
    exact hnonce.trans (nonceOf_some hr).symm

theorem copied_transferNft (hacc : w.state.accounts[tx.sender]? = some account) (hP : ¬ P)
    (nftId : Bytes32) (recipient : AccountId) (pubkey : Bytes) (salePrice : Option ℕ) :
    Ensures (computeTransferNftDiff env w (start env tx) tx.sender nftId recipient pubkey salePrice account)
      fun d => Copied P w.state.accounts d.accountUpdates := by
  simp only [computeTransferNftDiff, ensures_bind, ensures_okOr, ensures_failIf]
  intro nft _ _
  refine (copied_payRoyalty (P := P) hacc nft salePrice).mono fun u1 h1 => ?_
  have htake : Ensures (takeNft w.state nftId nft.owner u1) (Copied P w.state.accounts) := by
    simp only [takeNft, ensures_bind, ensures_okOr, ensures_pure]
    exact fun record hrecord => h1.insert_nfts hP hrecord rfl
  refine htake.mono fun u2 h2 => ?_
  have hgive : Ensures (giveNft w.state nftId recipient pubkey u2) (Copied P w.state.accounts) := by
    rw [giveNft]
    split
    · rename_i record hrecord
      exact ensures_pure.mpr (h2.insert_nfts hP (r := record) (by rw [hrecord]; rfl) rfl)
    · rename_i hnone
      cases hex : w.state.accounts[recipient]? with
      | some existing =>
        simp only [ensures_bind, ensures_pure, ensures_failIf]
        exact fun _ => h2.insert_nfts hP (r := existing) (by rw [hnone, hex]; rfl) rfl
      | none =>
        simp only [ensures_bind, ensures_pure, ensures_failIf]
        exact fun _ _ => h2.insert_fresh hex rfl fun hp => absurd hp hP
  exact hgive.mono fun u3 h3 => ensures_pure.mpr h3

/-- **The records in the diff of a handler.** -/
theorem copied_computeIntent (hacc : w.state.accounts[tx.sender]? = some account) (timestamp : ℕ)
    (intent : TransactionIntent) (hP : P → ¬ MovesNft intent) :
    Ensures (computeIntent env w (start env tx) tx.sender timestamp account intent)
      fun d => Copied P w.state.accounts d.accountUpdates := by
  have hstart := copied_start P w.state.accounts env tx
  cases intent with
  | transfer recipient pubkey amount => exact copied_transfer _ _ _
  | transferToName name amount =>
    simp only [computeIntent, ensures_bind]
    exact ensures_true.mono fun _ _ => copied_transfer _ _ _
  | batchTransfer transfers => exact copied_batchTransfer transfers
  | batchTransferToName transfers =>
    simp only [computeIntent, ensures_bind]
    exact ensures_true.mono fun _ _ => copied_batchTransfer _
  | claim recipient pubkey amount => exact copied_claim _ _ _ _ _
  | stake | unstake | withdrawStake | unjail | proposeTokenAuthority | voteTokenAuthority | callSystem =>
    exact ensures_throw.mpr trivial
  | rotateKey newPubkey =>
    simp only [computeIntent, computeRotateKeyDiff, ensures_bind, ensures_failIf, ensures_pure]
    exact fun _ _ => hstart.putRecord hacc rfl fun _ => rfl
  | mintNFT nftId name uri collection bps recipient =>
    have hP' : ¬ P := fun hp => hP hp trivial
    simp only [computeIntent, computeMintNftDiff, ensures_bind, ensures_failIf, ensures_okOr, ensures_pure]
    intro _ _ _ _ _ _ existing hex
    exact hstart.insert (nonceOf_some hex).symm fun hp => absurd hp hP'
  | transferNFT nftId recipient pubkey salePrice =>
    exact copied_transferNft hacc (fun hp => hP hp trivial) _ _ _ _
  | burnNFT nftId =>
    have hP' : ¬ P := fun hp => hP hp trivial
    simp only [computeIntent, computeBurnNftDiff, ensures_bind, ensures_failIf, ensures_pure]
    exact fun _ => hstart.putRecord hacc rfl fun hp => absurd hp hP'
  | deployCell cellId bytecode balance reads writes keys specs schemas =>
    simp only [computeIntent, computeDeployCellDiff, ensures_bind, ensures_failIf, ensures_pure]
    intro _ _ _ _
    exact ensures_true.mono fun _ _ => hstart.putRecord hacc rfl fun _ => rfl
  | deployToken cellId name symbol decimals supply bps feeRecipient nonTransferable =>
    simp only [computeIntent, computeDeployTokenDiff, ensures_bind, ensures_failIf, ensures_pure]
    exact fun _ _ => hstart.putRecord hacc rfl fun _ => rfl
  | callCell cellId calldata value gasLimit =>
    simp only [computeIntent, computeCallCellDiff, callSystemCell, callVmCell, ensures_bind, ensures_failIf,
      ensures_okOr, ensures_ite, ensures_pure]
    intro _ _ cell _ _ _
    exact ⟨fun _ _ => copied_payValue _ hacc hstart, fun _ _ =>
      ensures_true.mono fun _ _ => copied_payValue _ hacc hstart⟩
  | callCellChain calls gasLimit => exact copied_callChain hacc _ _ _
  | mcpToolCall agentId toolId calldata value gasLimit policyCellId logId time =>
    simp only [computeIntent, ensures_bind]
    exact ensures_true.mono fun _ _ => copied_callChain hacc _ _ _
  | closeCell cellId =>
    simp only [computeIntent, computeCloseCellDiff, ensures_bind, ensures_failIf, ensures_okOr, ensures_pure]
    exact ensures_true.mono fun _ _ _ owner howner => hstart.insert_same howner rfl rfl
  | privateBalanceInit cellId agentId enc comm nonce =>
    simp only [computeIntent, circuitInitPrivateBalance, ensures_bind, ensures_failIf, ensures_okOr,
      ensures_pure]
    refine ensures_true.mono fun _ _ => ensures_true.mono fun _ _ _ _ _ _ => ?_
    refine ensures_true.mono fun _ _ _ existing hex _ => ensures_true.mono fun _ _ => ?_
    exact copied_takePayments rfl hex rfl rfl
  | privateBalanceDeposit cellId agentId amount enc comm nonce old =>
    simp only [computeIntent, circuitDeposit, ensures_bind, ensures_failIf, ensures_okOr, ensures_pure]
    refine ensures_true.mono fun _ _ => ensures_true.mono fun _ _ _ => ?_
    refine ensures_true.mono fun _ _ existing hex _ => ensures_true.mono fun _ _ _ _ _ _ => ?_
    refine ensures_true.mono fun _ _ => ensures_true.mono fun _ _ => ?_
    exact copied_takePayments rfl hex rfl rfl
  | privateBalanceWithdraw cellId agentId amount recipient enc comm nonce old =>
    simp only [computeIntent, circuitWithdraw, ensures_bind, ensures_failIf, ensures_okOr, ensures_pure]
    refine ensures_true.mono fun _ _ => ensures_true.mono fun _ _ => ensures_true.mono fun _ _ => ?_
    refine ensures_true.mono fun _ _ _ _ existing hex _ _ => ensures_true.mono fun _ _ _ _ => ?_
    refine ensures_true.mono fun _ _ => ensures_true.mono fun _ _ => ?_
    exact copied_takePayments rfl hex rfl rfl
  | submitOracleReveal requestId body status =>
    simp only [computeIntent, computeOracleRevealDiff, ensures_bind, ensures_failIf, ensures_okOr,
      ensures_ite, ensures_pure]
    intro _ _ _ _ _ _ _ _ _ _
    exact ⟨fun _ => ensures_true.mono fun _ _ => hstart, fun _ => hstart⟩
  | _ =>
    simp only [computeIntent, computeDepositComputeDiff,
      computeWithdrawComputeDiff, computeWrapTrthDiff, computeUnwrapTrthDiff, computeApproveNftDiff,
      computeUpgradeCellDiff, computeTransferOwnershipDiff,
      computeMakeImmutableDiff, computeProposeCellUpgradeDiff,
      computeProposeCellOwnershipTransferDiff, computeProposeCellMakeImmutableDiff,
      computeVoteCellProposalDiff, computeExecuteCellProposalDiff, computeTokenTransferDiff,
      computeTokenMintDiff, computeTokenBurnDiff, computeTokenFreezeDiff, computeProposeUrlDiff,
      computeVoteUrlDiff, computeReportMaliciousUrlDiff, computeSetCellVisibilityDiff,
      computeOracleCommitDiff, circuitConfidentialTransfer, redeploy, takeCells, ensures_bind,
      ensures_failIf, ensures_okOr, ensures_pure]
    repeat intro
    exact hstart _ _ ‹_›

/-- **The records of a computed diff.** -/
theorem copied_compute {d : StateDiff} (h : computeTransactionDiffSkipSig env w tx = .ok d)
    (hP : P → ¬ MovesNft tx.intent) : Copied P w.state.accounts d.accountUpdates := by
  obtain ⟨account, d₁, f, hcheck, h1, hf, rfl⟩ := compute_eq_ok h
  obtain ⟨-, hacc, -⟩ := checkTransaction_eq_ok hcheck
  have hd₁ := copied_computeIntent hacc tx.timestamp tx.intent hP d₁ h1
  have hentry : ((d₁.accountUpdates[tx.sender]?).getD account).nonce = nonceOf w.state.accounts tx.sender ∧
      (P → ((d₁.accountUpdates[tx.sender]?).getD account).nfts = nftsOf w.state.accounts tx.sender) := by
    cases hu : d₁.accountUpdates[tx.sender]? with
    | some u => exact hd₁ tx.sender u hu
    | none => exact ⟨(nonceOf_some hacc).symm, fun _ => (nftsOf_some hacc).symm⟩
  rw [withFees_accountUpdates]
  refine hd₁.insert ?_ ?_
  · split_ifs
    · exact hentry.1
    · exact hentry.1
  · split_ifs
    · exact hentry.2
    · exact hentry.2

end Copies

/-! ## What payments leave alone -/

/-- The nonce and the NFTs of an account. -/
def marks (o : Option AccountRecord) : ℕ × List Bytes32 :=
  (o.elim 0 AccountRecord.nonce, o.elim [] AccountRecord.nfts)

/-- Two sets of accounts with the same nonces and NFTs. -/
def SameMarks (m m' : Accounts) : Prop := ∀ a, marks (slot m' a) = marks (slot m a)

/-- A pocket that holds neither the nonce nor the NFTs. -/
def Pocket.Apart (p : Pocket) : Prop := ∀ r n, marks (some (p.set r n)) = marks (some r)

section Marks
variable {env : Env} {d : StateDiff} {w : World} {m m' m'' : Accounts} {a : AccountId}

theorem SameMarks.refl (m : Accounts) : SameMarks m m := fun _ => rfl

theorem SameMarks.trans (h : SameMarks m m') (h' : SameMarks m' m'') : SameMarks m m'' :=
  fun a => (h' a).trans (h a)

theorem SameMarks.nonceOf (h : SameMarks m m') (a : AccountId) : nonceOf m' a = nonceOf m a :=
  congrArg Prod.fst (h a)

theorem SameMarks.nftsOf (h : SameMarks m m') (a : AccountId) : nftsOf m' a = nftsOf m a :=
  congrArg Prod.snd (h a)

theorem apart_balance : Pocket.Apart balancePocket := fun _ _ => rfl

theorem apart_escrow : Pocket.Apart escrowPocket := fun _ _ => rfl

theorem marks_fresh (o : Option AccountRecord) (pubkey : Bytes) :
    marks (some (o.getD (AccountRecord.fresh pubkey))) = marks o := by
  cases o with
  | none => rfl
  | some r => rfl

theorem sameMarks_insert {r : AccountRecord} (h : marks (some r) = marks (slot m a)) :
    SameMarks m (m.insert a r) := by
  intro b
  rw [slot_insert]
  split_ifs with hab
  · rw [← hab]
    exact h
  · rfl

theorem sameMarks_modify {f : AccountRecord → AccountRecord} (h : ∀ r, marks (some (f r)) = marks (some r)) :
    SameMarks m (m.modify a f) := by
  intro b
  rw [slot_modify]
  split_ifs
  · cases slot m b with
    | none => rfl
    | some r => exact h r
  · rfl

theorem sameMarks_runAll {ι : Type} {E : ι → Accounts → Accounts} (h : ∀ c m, SameMarks m (E c m)) (l : List ι)
    (m : Accounts) : SameMarks m (runAll E l m) := by
  induction l generalizing m with
  | nil => exact .refl m
  | cons c l ih => exact (h c m).trans (ih (E c m))

theorem sameMarks_credited (hp : Pocket.Apart p) (pubkey : AccountId → Bytes)
    (l : List (AccountId × ℕ)) (m : Accounts) : SameMarks m (credited p pubkey l m) := by
  refine sameMarks_runAll (fun c m => sameMarks_insert ?_) l m
  exact (hp _ _).trans (marks_fresh _ _)

theorem sameMarks_debited (hp : Pocket.Apart p) (l : List (AccountId × ℕ)) (m : Accounts) :
    SameMarks m (debited p l m) :=
  sameMarks_runAll (fun _ _ => sameMarks_modify fun r => hp r _) l m

theorem sameMarks_paidAccounts (pubkey : AccountId → Bytes) (d : StateDiff) (m : Accounts) :
    SameMarks m (paidAccounts pubkey d m) := by
  have h1 := sameMarks_credited apart_balance pubkey d.nativeTransfers m
  have h2 := h1.trans (sameMarks_debited apart_balance d.nativeDebits _)
  have h3 := h2.trans (sameMarks_credited apart_escrow pubkey d.computeEscrowCredits _)
  exact h3.trans (sameMarks_debited apart_escrow d.computeEscrowDebits _)

theorem sameMarks_paySlash (env : Env) (share : ℕ) (recipients : List Bytes) (dust : ℕ) (m : Accounts) :
    SameMarks m (paySlash env share recipients dust m) := by
  induction recipients generalizing dust m with
  | nil => exact .refl m
  | cons pk rest ih =>
    simp only [paySlash]
    refine SameMarks.trans ?_ (ih _ _)
    split_ifs
    · exact .refl m
    · exact sameMarks_insert (marks_fresh _ _)
    · exact .refl m
    · exact sameMarks_insert (marks_fresh _ _)

theorem sameMarks_slashBond (env : Env) (pattern : String) (p : UrlProposal) (w : World) :
    SameMarks w.state.accounts (slashBond env pattern p w).state.accounts := by
  simp only [slashBond]
  split_ifs
  · exact .refl _
  · simp only [distributeUrlSlashEqually]
    split_ifs
    · exact sameMarks_modify fun _ => rfl
    · refine SameMarks.trans ?_ (sameMarks_paySlash _ _ _ _ _)
      exact sameMarks_modify fun _ => rfl

theorem sameMarks_oracleEffect (env : Env) (u : OracleUpdate) (w : World) :
    SameMarks w.state.accounts (oracleEffect env u w).state.accounts := by
  by_cases hmoney : Agreement.MovesMoney u
  · cases u with
    | slashUrlProposer pattern =>
      simp only [oracleEffect]
      split
      · exact sameMarks_slashBond env _ _ w
      · exact .refl _
    | voteUrlProposal pattern voter n k =>
      simp only [oracleEffect, oracleStep, voteUrlProposal]
      split
      · exact .refl _
      · split_ifs
        · exact .refl _
        · exact .refl _
        · exact sameMarks_slashBond env _ _ _
        · exact .refl _
    | _ => exact absurd hmoney id
  · rw [Agreement.accounts_oracleEffect env hmoney]
    exact .refl _

/-- Once the payments and the records are in, the rest of `apply_diff` moves money only. -/
theorem sameMarks_applied (env : Env) (d : StateDiff) (w : World) :
    SameMarks (appliedAccounts d w.state.accounts) (applied env d w).state.accounts := by
  have hpays : SameMarks (appliedAccounts d w.state.accounts)
      (runAll payStep (payouts env d.stakingUpdates w.state.staking) (appliedAccounts d w.state.accounts)) := by
    refine sameMarks_runAll (fun c m => ?_) _ _
    exact sameMarks_modify fun _ => rfl
  have horacle : ∀ (us : List OracleUpdate) (w : World),
      SameMarks w.state.accounts (runAll (oracleEffect env) us w).state.accounts := by
    intro us
    induction us with
    | nil => exact fun w => .refl _
    | cons u us ih => exact fun w => (sameMarks_oracleEffect env u w).trans (ih _)
  have hnames := (Agreement.quiet_applyNames env d
    ⟨Agreement.appliedFees env d w, (updateParams d.paramUpdates w).globals⟩).2.1
  have hfees : (Agreement.appliedFees env d w).accounts =
      runAll payStep (payouts env d.stakingUpdates w.state.staking) (appliedAccounts d w.state.accounts) := by
    rw [Agreement.appliedFees_eq]
  rw [Agreement.applied_eq]
  refine SameMarks.trans ?_ (horacle d.oracleUpdates _)
  rw [hnames, hfees]
  exact hpays

theorem nftsOf_raised (updates : List (AccountId × ℕ)) (m : Accounts) (a : AccountId) :
    nftsOf (raiseNonces updates m) a = nftsOf m a := by
  have hraise : ∀ (u : AccountId × ℕ) o, (Option.map (raiseRec u.2) o).elim [] AccountRecord.nfts =
      o.elim [] AccountRecord.nfts := by
    intro u o
    cases o with
    | none => rfl
    | some r => rfl
  rw [nftsOf, slot_raiseNonces, runAll_frame (v := fun o => Option.elim o [] AccountRecord.nfts) hraise]
  rfl

theorem nftsOf_patched (updates : Map AccountId AccountRecord) (m : Accounts) (a : AccountId) :
    nftsOf (patchAccounts updates m) a = ((slot updates a).map AccountRecord.nfts).getD (nftsOf m a) := by
  rw [nftsOf, slot_patchAccounts]
  cases slot updates a with
  | none => rfl
  | some u =>
    cases slot m a with
    | none => rfl
    | some r => rfl

theorem nftsOf_applied (env : Env) (d : StateDiff) (w : World) (a : AccountId) :
    nftsOf (applied env d w).state.accounts a =
      ((slot d.accountUpdates a).map AccountRecord.nfts).getD (nftsOf w.state.accounts a) := by
  rw [(sameMarks_applied env d w).nftsOf, appliedAccounts, nftsOf_raised, nftsOf_patched,
    (sameMarks_paidAccounts (fun _ => []) d w.state.accounts).nftsOf]

theorem nonceOf_patched (d : StateDiff) (hcopied : Copied False m d.accountUpdates) (a : AccountId) :
    nonceOf (patchAccounts d.accountUpdates (paidAccounts (fun _ => []) d m)) a = nonceOf m a := by
  have hpaid := (sameMarks_paidAccounts (fun _ => []) d m).nonceOf a
  rw [nonceOf, slot_patchAccounts]
  cases hu : slot d.accountUpdates a with
  | none => exact hpaid
  | some u =>
    rw [nonceOf] at hpaid
    cases hr : slot (paidAccounts (fun _ => []) d m) a with
    | none => exact (hcopied a u hu).1
    | some r =>
      rw [hr] at hpaid
      exact hpaid

/-- **The nonces after a computed diff**: the one of the sender is raised to that of the transaction. -/
theorem nonceOf_applied {tx : Transaction} (h : computeTransactionDiffSkipSig env w tx = .ok d)
    (a : AccountId) :
    nonceOf (applied env d w).state.accounts a =
      if tx.sender = a then max (nonceOf w.state.accounts a) tx.nonce else nonceOf w.state.accounts a := by
  have hplain : d.nonceUpdates = [(tx.sender, tx.nonce)] := (MergeAgreement.computed h).1.nonceUpdates
  have hcopied : Copied False w.state.accounts d.accountUpdates := copied_compute h False.elim
  have hpatched := nonceOf_patched d hcopied a
  rw [(sameMarks_applied env d w).nonceOf, appliedAccounts, nonceOf, slot_raiseNonces, hplain]
  rw [nonceOf] at hpatched
  split_ifs with ha
  · have hpick : pick Prod.fst a [(tx.sender, tx.nonce)] = [(tx.sender, tx.nonce)] := by
      rw [← ha]
      exact pick_cons_self Prod.fst (tx.sender, tx.nonce) []
    have hsome : (slot (patchAccounts d.accountUpdates (paidAccounts (fun _ => []) d w.state.accounts))
        a).isSome := by
      rw [slot_patchAccounts]
      cases hu : slot d.accountUpdates a with
      | some u => rfl
      | none =>
        obtain ⟨account, d₁, f, -, -, -, rfl⟩ := compute_eq_ok h
        rw [withFees_accountUpdates, slot_insert, if_pos ha] at hu
        cases hu
    obtain ⟨r, hr⟩ := Option.isSome_iff_exists.mp hsome
    rw [hpick, hr, runAll_cons, runAll_nil, ← hpatched, hr]
    rfl
  · have hpick : pick Prod.fst a [(tx.sender, tx.nonce)] = [] := by
      rw [pick_cons_ne (by exact ha), pick_nil]
    rw [hpick, runAll_nil]
    exact hpatched

end Marks

/-! ## A diff that is refused halfway -/

section Halfway
variable {env : Env}

/-- The nonces and NFTs of all accounts. -/
def marksOf (m : Accounts) (a : AccountId) : ℕ × List Bytes32 := marks (slot m a)

theorem keeps_credit (hp : Pocket.Apart p) (pubkey : AccountId → Bytes) (overflow : String)
    (c : AccountId × ℕ) : Keeps marksOf (credit p pubkey overflow c) := by
  intro m
  have hfresh : SameMarks m (m.insert c.1 ((m[c.1]?).getD (AccountRecord.fresh (pubkey c.1)))) :=
    sameMarks_insert (marks_fresh _ _)
  simp only [credit, outcome_bind, outcome_get, outcome_modify]
  cases checkedAdd (p.amount ((m[c.1]?).getD (AccountRecord.fresh (pubkey c.1)))) c.2 with
  | none => exact funext hfresh
  | some n =>
    refine funext (hfresh.trans (sameMarks_insert ?_))
    rw [hp, slot_insert, if_pos rfl]

theorem keeps_debit (hp : Pocket.Apart p) (underflow : String) (c : AccountId × ℕ) :
    Keeps marksOf (debit p underflow c) := by
  intro m
  simp only [debit, outcome_bind, outcome_get]
  cases hr : m[c.1]? with
  | none => rfl
  | some r =>
    simp only
    cases checkedSub (p.amount r) c.2 with
    | none => rfl
    | some n =>
      refine funext (sameMarks_insert ?_)
      rw [hp, slot, hr]

theorem refusalKeeps_applyAccounts (d : StateDiff) : RefusalKeeps marksOf (applyAccounts d) := by
  unfold applyAccounts nativeTransfers nativeDebits escrowCredits escrowDebits
  refine (keeps_each (keeps_credit apart_balance _ _) _).refusal_bind fun _ => ?_
  refine (keeps_each (keeps_debit apart_balance _) _).refusal_bind fun _ => ?_
  refine (keeps_each (keeps_credit apart_escrow _ _) _).refusal_bind fun _ => ?_
  exact (keeps_each (keeps_debit apart_escrow _) _).refusal_bind fun _ => refusalKeeps_modify _

/-- The nonces and NFTs of all accounts, and the records of the NFTs. -/
def recordView (s : State) : (AccountId → ℕ × List Bytes32) × Map Bytes32 NFTRecord :=
  (marksOf s.accounts, s.nfts)

theorem nfts_oracleEffect (env : Env) (u : OracleUpdate) (w : World) :
    (oracleEffect env u w).state.nfts = w.state.nfts :=
  Agreement.of_beside (v := State.nfts) (fun _ => rfl) (Agreement.beside_oracleEffect env u w)

theorem keeps_onAccounts {x : ExceptT String (StateM Accounts) Unit} (h : Keeps marksOf x) :
    Keeps (fun w : World => recordView w.state) (onAccounts x) := by
  intro w
  rw [onAccounts, outcome_zoom]
  exact Prod.ext (h w.state.accounts) rfl

theorem keeps_payWithdrawal (a : AccountId) (n : ℕ) : Keeps marksOf (payWithdrawal a n) := by
  intro m
  simp only [payWithdrawal, outcome_bind, outcome_get]
  cases hr : m[a]? with
  | none => rfl
  | some r =>
    simp only
    cases checkedAdd r.balance n with
    | none => rfl
    | some k =>
      refine funext (sameMarks_insert ?_)
      rw [slot, hr]
      rfl

theorem keeps_onStaking {α : Type} (x : StakingM α) : Keeps (fun w : World => recordView w.state) (onStaking x) :=
  keeps_zoom _ x fun _ _ => rfl

theorem keeps_onCells {α : Type} (x : CellsM α) : Keeps (fun w : World => recordView w.state) (onCells x) :=
  keeps_zoom _ x fun _ _ => rfl

theorem keeps_modifyState {f : State → State} (h : ∀ s, recordView (f s) = recordView s) :
    Keeps (fun w : World => recordView w.state) (modifyState f) := keeps_modify fun w => h w.state

theorem keeps_stakingUpdate (u : StakingUpdate) :
    Keeps (fun w : World => recordView w.state) (stakingUpdate env u) := by
  cases u with
  | withdraw validator => exact (keeps_onStaking _).bind fun _ => keeps_onAccounts (keeps_payWithdrawal _ _)
  | _ => exact keeps_onStaking _

theorem keeps_applyBalances (d : StateDiff) :
    Keeps (fun w : World => recordView w.state) (applyBalances env d) := by
  unfold applyBalances
  refine (keeps_onCells _).bind fun _ => (keeps_modifyState ?_).bind fun _ =>
    (keeps_onStaking _).bind fun _ => (keeps_onCells _).bind fun _ => (keeps_onCells _).bind fun _ =>
      keeps_modifyState ?_
  · exact fun _ => rfl
  · exact fun _ => rfl

theorem keeps_spendFee (amount : State → ℕ) {put : State → ℕ → State} (what : String) (n : ℕ)
    (h : ∀ s n, recordView (put s n) = recordView s) :
    Keeps (fun w : World => recordView w.state) (spendFee amount put what n) := by
  refine keeps_get.bind fun w => ?_
  simp only
  split_ifs
  · exact (keeps_throw _).bind fun _ => keeps_modifyState fun s => h s _
  · exact keeps_modifyState fun s => h s _
  · exact keeps_pure _

theorem keeps_spendFees (d : StateDiff) : Keeps (fun w : World => recordView w.state) (spendFees d) := by
  unfold spendFees
  refine (keeps_spendFee _ _ _ ?_).bind fun _ => (keeps_spendFee _ _ _ ?_).bind fun _ =>
    (keeps_spendFee _ _ _ ?_).bind fun _ => keeps_spendFee _ _ _ ?_
  all_goals exact fun _ _ => rfl

theorem recordView_payNameFee (fee : ℕ) (s : State) : recordView (payNameFee env fee s) = recordView s := by
  unfold payNameFee
  split_ifs <;> rfl

theorem recordView_recordTransaction (d : StateDiff) (s : State) :
    recordView (recordTransaction d s) = recordView s := by
  unfold recordTransaction
  split_ifs <;> rfl

theorem recordView_applyNames (d : StateDiff) (w : World) :
    recordView (applyNames env d w).state = recordView w.state := by
  simp only [recordView, applyNames, World.onState_state, freezeAccounts, countMinted, settleNames, recordClaims,
    transferNames, renewNames, tokenAuthorityVotes, proposeNames, addTokenAuthorityProposals, registerNames]

theorem keeps_applyOracleUpdate (u : OracleUpdate) :
    Keeps (fun w : World => recordView w.state) (applyOracleUpdate env u) := by
  have hview : ∀ u w, recordView (oracleEffect env u w).state = recordView w.state :=
    fun u w => Prod.ext (funext (sameMarks_oracleEffect env u w)) (nfts_oracleEffect env u w)
  intro w
  by_cases hfits : OracleFits u w
  · rw [(spec_applyOracleUpdate env u).ok w hfits]
    exact hview u w
  · -- only a slash of a missing proposal is refused, before it writes
    cases u with
    | slashUrlProposer pattern =>
      have hnone : w.state.urlProposals[pattern]? = none := Std.ExtTreeMap.getElem?_eq_none hfits
      simp only [applyOracleUpdate, slashUrlProposerBond, outcome_bind, outcome_get, hnone, outcome_throw]
    | _ => exact absurd trivial hfits

theorem keeps_later {d : StateDiff} {w : World} (accounts : Accounts) (hw : w.state.accounts = accounts) :
    marksOf (outcome (do
      each (stakingUpdate env) d.stakingUpdates
      modify (updateParams d.paramUpdates)
      modifyState fun s => { s with nfts := nftUpdates d.nftUpdates s.nfts }
      onCells (each (cellUpdate env) d.cellUpdates)
      applyBalances env d
      modifyState (payNameFee env d.nameFee)
      spendFees d
      modify (applyNames env d)
      each (applyOracleUpdate env) d.oracleUpdates) w).2.state.accounts = marksOf accounts := by
  have hmarks : ∀ {α : Type} {x : StM α}, Keeps (fun w : World => recordView w.state) x →
      Keeps (fun w : World => marksOf w.state.accounts) x := fun h w => congrArg Prod.fst (h w)
  rw [← hw]
  refine Keeps.bind (v := fun w : World => marksOf w.state.accounts)
    (hmarks (keeps_each keeps_stakingUpdate _)) (fun _ => ?_) w
  refine (keeps_modify ?_).bind fun _ => (keeps_modify ?_).bind fun _ => ?_
  · exact fun _ => rfl
  · exact fun _ => rfl
  refine (hmarks (keeps_onCells _)).bind fun _ => (hmarks (keeps_applyBalances d)).bind fun _ => ?_
  refine (hmarks (keeps_modifyState (recordView_payNameFee _))).bind fun _ =>
    (hmarks (keeps_spendFees d)).bind fun _ => ?_
  refine (hmarks (keeps_modify (recordView_applyNames d))).bind fun _ => ?_
  exact hmarks (keeps_each keeps_applyOracleUpdate _)

/-- **The nonces and lists after a diff** whose payments can be made are those of its records, though it may
be refused later. -/
theorem marks_of_accountsFit {d : StateDiff} {w : World} (h : AccountsFit d w.state.accounts) :
    marksOf (outcome (applyDiff env d) w).2.state.accounts = marksOf (appliedAccounts d w.state.accounts) := by
  have hfit : AccountsFit d (w.onState (recordTransaction d)).state.accounts := by
    rwa [World.onState_state, recordTransaction_accounts]
  have hpaid := (spec_onAccounts (spec_applyAccounts d)).ok _ hfit
  rw [applyDiff, outcome_bind]
  show marksOf (outcome (onAccounts (applyAccounts d) >>= _)
      (w.onState (recordTransaction d))).2.state.accounts = _
  rw [outcome_bind, hpaid]
  refine keeps_later _ ?_
  rw [World.onState_state, World.onState_state, recordTransaction_accounts]

/-- **A diff whose payments are refused** leaves the nonces and lists alone. -/
theorem marks_of_not_accountsFit {d : StateDiff} {w : World} (h : ¬ AccountsFit d w.state.accounts) :
    marksOf (outcome (applyDiff env d) w).2.state.accounts = marksOf w.state.accounts := by
  have hfit : ¬ AccountsFit d (w.onState (recordTransaction d)).state.accounts := by
    rwa [World.onState_state, recordTransaction_accounts]
  obtain ⟨e, m, he⟩ := (spec_applyAccounts d).err _ hfit
  have hkeeps := refusalKeeps_applyAccounts d _ e (congrArg Prod.fst he)
  have haccounts : outcome (onAccounts (applyAccounts d)) (w.onState (recordTransaction d)) =
      (.error e, (w.onState (recordTransaction d)).onState fun s => { s with accounts := m }) := by
    rw [onAccounts, outcome_zoom, he]
  rw [applyDiff, outcome_bind]
  show marksOf (outcome (onAccounts (applyAccounts d) >>= _)
      (w.onState (recordTransaction d))).2.state.accounts = _
  rw [outcome_bind, haccounts]
  rw [he, World.onState_state, recordTransaction_accounts] at hkeeps
  exact hkeeps

end Halfway

end TruthLinked.Ledger.Records
