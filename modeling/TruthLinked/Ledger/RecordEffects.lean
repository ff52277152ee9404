import TruthLinked.Ledger.CallChains
import TruthLinked.Ledger.CellProposals

/-! # What account records change

A rotation of a key, a claim, the closing of a cell and the royalty of a sale are written as whole account
records. `apply_diff` takes the balance of a record for a new account only, and its key for a new account and
for one without a key (`keyAt_appliedAccounts`). So the records of these four intents take effect when they
say what was there before, and not otherwise (`takesEffect_iff`). -/

namespace TruthLinked.Ledger.RecordEffects

open Core.Types Governance.Types Runtime.Types Ledger.Model Ledger.Mcp Ledger.Compute Ledger.ComputeCells
open Ledger.AccountSpecs Ledger.ApplySpec Ledger.ComputeSpec Ledger.Executor Ledger.CallChains
open Ledger.CellProposals Ledger.MergeAgreement Lib.Except Lib.Keyed Lib.Table

/-- The intents whose handlers write a key or a balance as an account record. -/
def WritesRecords : TransactionIntent → Prop
  | .rotateKey .. | .claim .. | .closeCell .. | .transferNFT .. => True
  | _ => False

/-- Every account with a record has the balance of the record, less its debits and with its credits. -/
def BalancesTake (m : Accounts) (d : StateDiff) : Prop :=
  ∀ a r, slot d.accountUpdates a = some r →
    balanceOf m a + moved a d.nativeDebits = r.balance + moved a d.nativeTransfers

/-- What the handler of a transaction sets is there after it. -/
def TakesEffect (env : Env) (w w' : World) (tx : Transaction) : Prop :=
  match tx.intent with
  | .rotateKey newPubkey => keyAt w'.state.accounts tx.sender = some newPubkey
  | _ => ∀ d, computeTransactionDiffSkipSig env w tx = .ok d → BalancesTake w'.state.accounts d

/-- The royalty of a sale. -/
def royaltyDue (sender : AccountId) (nft : NFTRecord) (salePrice : Option ℕ) : ℕ :=
  match salePrice, nft.royaltyRecipient with
  | some price, some recipient =>
    if 0 < nft.royaltyBps ∧ recipient ≠ sender then price * nft.royaltyBps / 10000 else 0
  | _, _ => 0

/-- The record changes nothing of an account that exists. -/
def Unneeded (w : World) (tx : Transaction) : Prop :=
  match tx.intent with
  | .rotateKey newPubkey =>
    keyAt w.state.accounts tx.sender = some [] ∨ keyAt w.state.accounts tx.sender = some newPubkey
  | .claim recipient _ amount => recipient ∈ w.state.accounts → amount = 0
  | .closeCell cellId => ∀ cell, w.state.cells.cells[cellId]? = some cell →
    cell.balance = 0 ∧ cell.rentDeposit = 0 ∨ balanceOf w.state.accounts cell.owner = u128 - 1
  | .transferNFT nftId _ _ salePrice => ∀ nft, w.state.nfts[nftId]? = some nft →
    royaltyDue tx.sender nft salePrice = 0
  | _ => True

/-! ## Records that keep the balances -/

/-- The records of accounts that exist have their balances. -/
def Kept (m : Accounts) (updates : Map AccountId AccountRecord) : Prop :=
  ∀ a r r₀, slot m a = some r₀ → slot updates a = some r → r.balance = r₀.balance

section Kept
variable {m : Accounts} {updates : Map AccountId AccountRecord} {a : AccountId} {r : AccountRecord}

theorem kept_empty (m : Accounts) : Kept m ∅ := by
  intro a r r₀ _ h
  rw [slot, Std.ExtTreeMap.getElem?_empty] at h
  cases h

/-- A record over another, or over none, with the balance that is there. -/
theorem kept_insert_same (h : ∀ r₀, slot m a = some r₀ → r.balance = ((slot updates a).getD r₀).balance) :
    Kept m (updates.insert a r) ↔ Kept m updates := by
  constructor
  · intro hkept b u r₀ hr₀ hu
    by_cases hab : a = b
    · subst hab
      have hr := hkept a r r₀ hr₀ ((slot_insert ..).trans (if_pos rfl))
      rwa [h r₀ hr₀, hu, Option.getD_some] at hr
    · exact hkept b u r₀ hr₀ ((slot_insert ..).trans ((if_neg hab).trans hu))
  · intro hkept b u r₀ hr₀ hu
    rw [slot_insert] at hu
    split_ifs at hu with hab
    · obtain rfl := Option.some.inj hu
      subst hab
      rw [h r₀ hr₀]
      cases hold : slot updates a with
      | none => rfl
      | some old => exact hkept a old r₀ hr₀ hold
    · exact hkept b u r₀ hr₀ hu

theorem kept_single : Kept m ((∅ : Map AccountId AccountRecord).insert a r) ↔
    ∀ r₀, slot m a = some r₀ → r.balance = r₀.balance := by
  constructor
  · intro h r₀ hr₀
    exact h a r r₀ hr₀ ((slot_insert ..).trans (if_pos rfl))
  · intro h b u r₀ hr₀ hu
    rw [slot_insert] at hu
    split_ifs at hu with hab
    · obtain rfl := Option.some.inj hu
      exact h r₀ (hab ▸ hr₀)
    · rw [slot, Std.ExtTreeMap.getElem?_empty] at hu
      cases hu

theorem kept_withFees {sender : AccountId} {account : AccountRecord} (hacc : m[sender]? = some account) (f : Fees)
    (d : StateDiff) : Kept m (withFees sender account f d).accountUpdates ↔ Kept m d.accountUpdates := by
  rw [withFees_accountUpdates]
  refine kept_insert_same fun r₀ hr₀ => ?_
  obtain rfl := Option.some.inj (hr₀.symm.trans hacc)
  split_ifs
  · rfl
  · rfl

/-- **Balances take effect** when the records have them already. -/
theorem balancesTake_iff {d : StateDiff} (htransfers : d.nativeTransfers = [])
    (hcredits : d.computeEscrowCredits = [])
    (hfit : AccountsFit d m) : BalancesTake (appliedAccounts d m) d ↔ Kept m d.accountUpdates := by
  have hbalance : ∀ a r, slot d.accountUpdates a = some r →
      (balanceOf (appliedAccounts d m) a + moved a d.nativeDebits = r.balance + moved a d.nativeTransfers ↔
        ∀ r₀, slot m a = some r₀ → r.balance = r₀.balance) := by
    intro a r hr
    have hzero : moved a d.nativeTransfers = 0 := by
      rw [htransfers]
      rfl
    have hnone : ∀ l : List (AccountId × ℕ), l = [] → ¬ Paid a l := by
      rintro l rfl ⟨c, hc, -⟩
      cases hc
    have hdebit : moved a d.nativeDebits ≤ balanceOf m a ∧ (slot m a = none → moved a d.nativeDebits = 0) := by
      by_cases hpaid : Paid a d.nativeDebits
      · obtain ⟨c, hc, rfl⟩ := hpaid
        obtain ⟨hsome, hle⟩ := hfit.debits c hc
        rw [hzero] at hle
        refine ⟨hle, fun hno => ?_⟩
        rw [hno] at hsome
        rcases hsome with h | h
        · cases h
        · exact absurd h (hnone _ htransfers)
      · rw [Agreement.moved_unpaid hpaid]
        exact ⟨Nat.zero_le _, fun _ => rfl⟩
    rw [balanceOf_appliedAccounts, settledBalance, hzero]
    cases hr₀ : slot m a with
    | none =>
      rw [if_neg ?_, hdebit.2 hr₀, balanceOf, hr]
      · refine ⟨fun _ _ h => ?_, fun _ => rfl⟩
        cases h
      · rintro ((h | h) | h)
        · cases h
        · exact hnone _ htransfers h
        · exact hnone _ hcredits h
    | some r₀ =>
      have hown : balanceOf m a = r₀.balance := by
        rw [balanceOf, hr₀]
        rfl
      rw [if_pos (.inl (.inl rfl)), hown]
      rw [hown] at hdebit
      constructor
      · rintro h r' hr'
        obtain rfl := Option.some.inj hr'
        omega
      · intro h
        have := h r₀ rfl
        omega
  constructor
  · exact fun h a r r₀ hr₀ hr => (hbalance a r hr).mp (h a r hr) r₀ hr₀
  · exact fun h a r hr => (hbalance a r hr).mpr fun r₀ hr₀ => h a r r₀ hr₀ hr

end Kept

/-! ## The four handlers -/

/-- The diff of a handler pays nobody and leaves stakes and oracle requests. -/
structure PaysNobody (d : StateDiff) : Prop where
  transfers : d.nativeTransfers = []
  credits : d.computeEscrowCredits = []
  staking : d.stakingUpdates = []
  oracle : d.oracleUpdates = []

section Handlers
variable {env : Env} {w : World} {tx : Transaction} {account : AccountRecord} {d : StateDiff}

theorem kept_claim {recipient : AccountId} {pubkey : Bytes} {amount timestamp : ℕ}
    (h : computeClaimDiff env w (start env tx) tx.sender recipient pubkey amount timestamp = .ok d) :
    PaysNobody d ∧ (Kept w.state.accounts d.accountUpdates ↔ (recipient ∈ w.state.accounts → amount = 0)) := by
  simp only [computeClaimDiff, failIf_bind_ok] at h
  obtain ⟨-, h⟩ := h
  obtain ⟨-, -, h⟩ := bind_eq_ok.mp h
  simp only [failIf_bind_ok, okOr_bind_ok] at h
  obtain ⟨minted, -, -, -, h⟩ := h
  obtain ⟨-, -, h⟩ := bind_eq_ok.mp h
  obtain ⟨record, hrecord, h⟩ := bind_eq_ok.mp h
  obtain rfl := pure_eq_ok.mp h
  refine ⟨⟨rfl, rfl, rfl, rfl⟩, kept_single.trans ?_⟩
  rw [claimRecord] at hrecord
  cases hr : w.state.accounts[recipient]? with
  | none =>
    have hmem : recipient ∉ w.state.accounts := by
      rw [Std.ExtTreeMap.mem_iff_isSome_getElem?, hr]
      exact Bool.false_ne_true
    exact ⟨fun _ h => absurd h hmem, fun _ r₀ hr₀ => (nomatch hr.symm.trans hr₀)⟩
  | some existing =>
    have hmem : recipient ∈ w.state.accounts := Std.ExtTreeMap.mem_iff_isSome_getElem?.mpr (hr ▸ rfl)
    have hbalance : record.balance = existing.balance + amount := by
      simp only [hr, okOr_bind_ok] at hrecord
      obtain ⟨balance, hsum, hrecord⟩ := hrecord
      obtain ⟨-, rfl⟩ := Demand.checkedAdd_eq_some.mp hsum
      split_ifs at hrecord
      · rw [failIf_bind_ok, pure_eq_ok] at hrecord
        rw [← hrecord.2]
      · rw [← pure_eq_ok.mp hrecord]
    rw [hbalance]
    constructor
    · intro h _
      have := h existing hr
      omega
    · intro h r₀ hr₀
      obtain rfl := Option.some.inj (hr₀.symm.trans hr)
      rw [h hmem]
      rfl

theorem kept_closeCell {cellId : AccountId} (hfits : ∀ a, balanceOf w.state.accounts a < u128)
    (h : computeCloseCellDiff env w (start env tx) tx.sender cellId = .ok d) :
    PaysNobody d ∧ (Kept w.state.accounts d.accountUpdates ↔ ∀ cell, w.state.cells.cells[cellId]? = some cell →
      cell.balance = 0 ∧ cell.rentDeposit = 0 ∨ balanceOf w.state.accounts cell.owner = u128 - 1) := by
  simp only [computeCloseCellDiff] at h
  obtain ⟨cell, hcell, h⟩ := bind_eq_ok.mp h
  simp only [failIf_bind_ok, okOr_bind_ok, pure_eq_ok] at h
  obtain ⟨-, owner, howner, rfl⟩ := h
  have hcell' : w.state.cells.cells[cellId]? = some cell := by
    simp only [ownedCell, okOr_bind_ok, failIf_bind_ok, pure_eq_ok] at hcell
    obtain ⟨cell', hcell', -, -, rfl⟩ := hcell
    exact hcell'
  have hbalance : balanceOf w.state.accounts cell.owner = owner.balance := by
    rw [balanceOf, slot, howner]
    rfl
  have hlt := hbalance ▸ hfits cell.owner
  refine ⟨⟨rfl, rfl, rfl, rfl⟩, kept_single.trans ?_⟩
  rw [hcell']
  have hsum : satAdd (satAdd owner.balance cell.balance) cell.rentDeposit = owner.balance ↔
      cell.balance = 0 ∧ cell.rentDeposit = 0 ∨ owner.balance = u128 - 1 := by
    unfold satAdd
    omega
  constructor
  · rintro hkept cell' hsome
    obtain rfl := Option.some.inj hsome
    rw [hbalance]
    exact hsum.mp (hkept owner howner)
  · intro hkept r₀ hr₀
    obtain rfl := Option.some.inj (hr₀.symm.trans howner)
    exact hsum.mpr (hbalance ▸ hkept cell rfl)

/-- **The royalty** is written into two records, of the payer and of the recipient. -/
theorem kept_payRoyalty {nft : NFTRecord} {salePrice : Option ℕ} {updates : Map AccountId AccountRecord}
    (hacc : w.state.accounts[tx.sender]? = some account)
    (h : payRoyalty w.state (start env tx) tx.sender nft salePrice account = .ok updates) :
    Kept w.state.accounts updates ↔ royaltyDue tx.sender nft salePrice = 0 := by
  have hstart : (start env tx).accountUpdates = ∅ := rfl
  unfold payRoyalty at h
  unfold royaltyDue
  cases salePrice with
  | none =>
    obtain rfl := pure_eq_ok.mp h
    exact iff_of_true (kept_empty _) rfl
  | some price =>
    cases hto : nft.royaltyRecipient with
    | none =>
      rw [hto] at h
      obtain rfl := pure_eq_ok.mp h
      exact iff_of_true (kept_empty _) rfl
    | some recipient =>
      rw [hto] at h
      dsimp only at h ⊢
      split_ifs at h ⊢ with hdue
      · simp only [failIf_bind_ok, okOr_bind_ok, pure_eq_ok] at h
        obtain ⟨-, balance, hbalance, payee, hpayee, payeeBalance, hpaid, rfl⟩ := h
        obtain ⟨-, rfl⟩ := Demand.checkedAdd_eq_some.mp hpaid
        generalize price * nft.royaltyBps / 10000 = royalty at *
        have hle : royalty ≤ account.balance ∧ balance = account.balance - royalty := by
          rw [checkedSub] at hbalance
          split_ifs at hbalance with hle
          exact ⟨hle, (Option.some.inj hbalance).symm⟩
        constructor
        · intro hkept
          have hrecipient := hkept recipient _ payee hpayee ((slot_insert ..).trans (if_pos rfl))
          exact Nat.add_eq_left.mp hrecipient
        · intro hzero
          refine (kept_insert_same fun r₀ hr₀ => ?_).mpr
            ((kept_insert_same fun r₀ hr₀ => ?_).mpr (hstart ▸ kept_empty _))
          · obtain rfl := Option.some.inj (hr₀.symm.trans hpayee)
            rw [putRecord, slot_insert, if_neg (Ne.symm hdue.2), hstart, slot,
              Std.ExtTreeMap.getElem?_empty, hzero]
            rfl
          · obtain rfl := Option.some.inj (hr₀.symm.trans hacc)
            rw [hstart, slot, Std.ExtTreeMap.getElem?_empty, Option.getD_none]
            dsimp only
            omega
      · obtain rfl := pure_eq_ok.mp h
        exact iff_of_true (kept_empty _) rfl

theorem kept_transferNft {nftId : Bytes32} {recipient : AccountId} {pubkey : Bytes} {salePrice : Option ℕ}
    (hacc : w.state.accounts[tx.sender]? = some account)
    (h : computeTransferNftDiff env w (start env tx) tx.sender nftId recipient pubkey salePrice account = .ok d) :
    PaysNobody d ∧ (Kept w.state.accounts d.accountUpdates ↔
      ∀ nft, w.state.nfts[nftId]? = some nft → royaltyDue tx.sender nft salePrice = 0) := by
  simp only [computeTransferNftDiff, okOr_bind_ok, failIf_bind_ok] at h
  obtain ⟨nft, hnft, -, h⟩ := h
  obtain ⟨u1, h1, h⟩ := bind_eq_ok.mp h
  obtain ⟨u2, h2, h⟩ := bind_eq_ok.mp h
  obtain ⟨u3, h3, h⟩ := bind_eq_ok.mp h
  obtain rfl := pure_eq_ok.mp h
  have htaken : Kept w.state.accounts u2 ↔ Kept w.state.accounts u1 := by
    simp only [takeNft, okOr_bind_ok, pure_eq_ok] at h2
    obtain ⟨record, hrecord, rfl⟩ := h2
    refine kept_insert_same fun r₀ hr₀ => ?_
    rw [show w.state.accounts[nft.owner]? = some r₀ from hr₀] at hrecord
    rw [slot]
    cases hu : u1[nft.owner]? with
    | none =>
      rw [hu, Option.none_or] at hrecord
      rw [← Option.some.inj hrecord]
      rfl
    | some u =>
      rw [hu, Option.some_or] at hrecord
      rw [← Option.some.inj hrecord]
      rfl
  have hgiven : Kept w.state.accounts u3 ↔ Kept w.state.accounts u2 := by
    rw [giveNft] at h3
    cases hu : u2[recipient]? with
    | some u =>
      rw [hu] at h3
      obtain rfl := pure_eq_ok.mp h3
      refine kept_insert_same fun r₀ hr₀ => ?_
      rw [slot, hu]
      rfl
    | none =>
      cases hex : w.state.accounts[recipient]? with
      | some existing =>
        simp only [hu, hex, pure_bind, failIf_bind_ok, pure_eq_ok] at h3
        obtain ⟨-, rfl⟩ := h3
        refine kept_insert_same fun r₀ hr₀ => ?_
        obtain rfl := Option.some.inj (hr₀.symm.trans hex)
        rw [slot, hu]
        rfl
      | none =>
        simp only [hu, hex, pure_bind, failIf_bind_ok, pure_eq_ok] at h3
        obtain ⟨-, -, rfl⟩ := h3
        refine kept_insert_same fun r₀ hr₀ => ?_
        cases hex.symm.trans hr₀
  refine ⟨⟨rfl, rfl, rfl, rfl⟩, (hgiven.trans htaken).trans ((kept_payRoyalty hacc h1).trans ?_)⟩
  constructor
  · rintro hzero nft' hnft'
    obtain rfl := Option.some.inj (hnft.symm.trans hnft')
    exact hzero
  · exact fun hzero => hzero nft hnft

/-- **The key of a rotation** is taken by an account without a key. -/
theorem rotated_iff {newPubkey : Bytes} {f : Fees} (hacc : w.state.accounts[tx.sender]? = some account)
    (h : computeRotateKeyDiff env w (start env tx) tx.sender newPubkey account = .ok d) :
    keyAt (applied env (withFees tx.sender account f d) w).state.accounts tx.sender = some newPubkey ↔
      keyAt w.state.accounts tx.sender = some [] ∨ keyAt w.state.accounts tx.sender = some newPubkey := by
  simp only [computeRotateKeyDiff, failIf_bind_ok, pure_eq_ok] at h
  obtain ⟨hlength, -, rfl⟩ := h
  have hne : newPubkey ≠ [] := by
    rintro rfl
    exact hlength (by decide)
  have hold : keyAt w.state.accounts tx.sender = some account.pubkeyBytes := by
    rw [keyAt, slot, hacc]
    rfl
  set d := withFees tx.sender account f
    { start env tx with
      accountUpdates := putRecord (start env tx) tx.sender { account with pubkeyBytes := newPubkey }
      cuFee := w.globals.getU64 env "gas.rotate_key" } with hd
  have htransfers : d.nativeTransfers = [] := rfl
  have hrecord : (slot d.accountUpdates tx.sender).map AccountRecord.pubkeyBytes = some newPubkey := by
    rw [hd, withFees_accountUpdates, slot_insert, if_pos rfl, putRecord, getElem?_insert_ite, if_pos rfl]
    rw [Option.getD_some, if_neg hne]
    rfl
  obtain ⟨u, hu, rfl⟩ := Option.map_eq_some_iff.mp hrecord
  rw [Agreement.accounts_applied env (d := d) rfl rfl, keyAt_appliedAccounts (d := d) rfl rfl, hu, hold]
  simp only [Option.elim_some, Option.some.injEq]
  split_ifs with hempty
  · exact iff_of_true rfl (.inl hempty)
  · exact ⟨.inr, fun h => h.resolve_left hempty⟩

theorem balancesTake_applied {f : Fees} (hacc : w.state.accounts[tx.sender]? = some account) (h : PaysNobody d)
    (happ : Applicable env (withFees tx.sender account f d) w.state) :
    BalancesTake (applied env (withFees tx.sender account f d) w).state.accounts
      (withFees tx.sender account f d) ↔
      Kept w.state.accounts d.accountUpdates := by
  rw [Agreement.accounts_applied env (d := withFees tx.sender account f d) h.staking h.oracle]
  exact (balancesTake_iff (d := withFees tx.sender account f d) h.transfers h.credits happ.accounts).trans
    (kept_withFees hacc f d)

/-- **When the records of a transaction take effect**: when they say what was there before. -/
theorem takesEffect_iff {w' : World} {n : ℕ} (hwrites : WritesRecords tx.intent)
    (hfits : ∀ a, balanceOf w.state.accounts a < u128) (hrun : runTransaction env tx w = (.ok n, w')) :
    TakesEffect env w w' tx ↔ Unneeded w tx := by
  obtain ⟨d, hd, happ⟩ :=
    runTransaction_isOk_iff.mp (show (runTransaction env tx w).1.isOk = true from hrun ▸ rfl)
  rw [runTransaction_eq hd happ] at hrun
  obtain rfl := congrArg Prod.snd hrun
  obtain ⟨account, d₁, f, hcheck, h1, -, rfl⟩ := compute_eq_ok hd
  obtain ⟨-, hacc, -⟩ := checkTransaction_eq_ok hcheck
  have honly : ∀ {P : StateDiff → Prop}, (∀ d, computeTransactionDiffSkipSig env w tx = .ok d → P d) ↔
      P (withFees tx.sender account f d₁) := by
    intro P
    constructor
    · exact fun h => h _ hd
    · intro h d hd'
      obtain rfl := Except.ok.inj (hd.symm.trans hd')
      exact h
  unfold TakesEffect Unneeded
  cases hi : tx.intent with
  | rotateKey newPubkey =>
    rw [hi] at h1
    exact rotated_iff hacc h1
  | claim recipient pubkey amount =>
    rw [hi] at h1
    obtain ⟨hpays, hkept⟩ := kept_claim h1
    exact honly.trans ((balancesTake_applied hacc hpays happ).trans hkept)
  | closeCell cellId =>
    rw [hi] at h1
    obtain ⟨hpays, hkept⟩ := kept_closeCell hfits h1
    exact honly.trans ((balancesTake_applied hacc hpays happ).trans hkept)
  | transferNFT nftId recipient pubkey salePrice =>
    rw [hi] at h1
    obtain ⟨hpays, hkept⟩ := kept_transferNft hacc h1
    exact honly.trans ((balancesTake_applied hacc hpays happ).trans hkept)
  | _ =>
    rw [hi] at hwrites
    exact hwrites.elim

end Handlers

/-! ## A claim -/

def sampleClaim : Transaction := ⟨1, .claim 2 none 5, [], 1, 0, 7, 10⟩

def claimBytes (tx : Transaction) : Bytes :=
  match tx.intent with
  | .claim recipient none amount =>
    ofBytes32 tx.sender ++ [4] ++ ofBytes32 recipient ++ [0] ++ varint 19 amount ++
      varint 10 tx.signature.length ++
      tx.signature ++ varint 10 tx.nonce ++ varint 10 tx.timestamp ++ ofBytes32 tx.genesisFingerprint ++
      varint 10 tx.expirationHeight
  | _ => []

def airdropKey : Bytes32 := 0x6d8a08f172c720d709113e1cce4ea40ef8897d92580af62151bbe2ed9d96ff77

/-- The third-party code, on the inputs that occur here. -/
def claimEnv : Env :=
  { sampleEnv with
    blake3 := fun _ => 0x206dd0bef4ff970c484ecc5aa4d52ca9c601a66cb92335f8ff4beaf311238a33
    serialize := claimBytes
    sha256 := fun _ => airdropKey }

/-- The two sample accounts, with a limit of one coin for a claim. -/
def claimWorld : World where
  state := { sampleState with foundationMintAuthority := some 1 }
  globals := { sampleWorld.globals with paramCache := fromList [(airdropKey, encodeU64 oneTlkd)] }

/-- A claim is taken, and does not change the account that it names. -/
theorem run_sampleClaim : runTransaction claimEnv sampleClaim claimWorld =
    (.ok 0, (runTransaction claimEnv sampleClaim claimWorld).2) := by
  refine Prod.ext ?_ rfl
  decide +kernel

theorem balanceOf_claimWorld (a : AccountId) : balanceOf claimWorld.state.accounts a < u128 := by
  have hall : claimWorld.state.accounts.toList.all fun e => e.2.balance < u128 := by decide +kernel
  cases hr : slot claimWorld.state.accounts a with
  | none =>
    rw [balanceOf, hr]
    exact Nat.two_pow_pos 128
  | some r =>
    have hin := List.all_eq_true.mp hall (a, r) (Std.ExtTreeMap.mem_toList_iff_getElem?_eq_some.mpr hr)
    rw [balanceOf, hr]
    exact of_decide_eq_true hin

/-- The condition at the sample claim. -/
theorem takesEffect_sample :
    TakesEffect claimEnv claimWorld (runTransaction claimEnv sampleClaim claimWorld).2 sampleClaim ↔
      Unneeded claimWorld sampleClaim :=
  takesEffect_iff trivial balanceOf_claimWorld run_sampleClaim

/-- A claim for an account that exists is lost. -/
theorem claim_lost :
    ¬ ∀ env w w' tx n, WritesRecords tx.intent → (∀ a, balanceOf w.state.accounts a < u128) →
      runTransaction env tx w = (.ok n, w') → TakesEffect env w w' tx := by
  intro h
  have htakes := h claimEnv claimWorld _ sampleClaim 0 trivial balanceOf_claimWorld run_sampleClaim
  have hafter : balanceOf (runTransaction claimEnv sampleClaim claimWorld).2.state.accounts 2 =
      50 := by decide +kernel
  have hmap : (computeTransactionDiffSkipSig claimEnv claimWorld sampleClaim).map
      (fun d => ((slot d.accountUpdates 2).map AccountRecord.balance, d.nativeDebits, d.nativeTransfers)) =
      .ok (some 55, [], []) := by decide +kernel
  cases hd : computeTransactionDiffSkipSig claimEnv claimWorld sampleClaim with
  | error e =>
    rw [hd] at hmap
    cases hmap
  | ok d =>
    rw [hd] at hmap
    obtain ⟨hrecord, hlists⟩ := Prod.mk.inj (Except.ok.inj hmap)
    obtain ⟨hdebits, htransfers⟩ := Prod.mk.inj hlists
    obtain ⟨r, hr, hbalance⟩ := Option.map_eq_some_iff.mp hrecord
    have htake := htakes d hd 2 r hr
    rw [hafter, hdebits, htransfers, hbalance] at htake
    exact absurd htake (by decide)

end TruthLinked.Ledger.RecordEffects
