import TruthLinked.Ledger.ComputeSpec

/-! # `apply_diff` against `merge_diff_inplace` on computed diffs

The diff of a transaction keeps apart what `Agreement` asks for (`separate_of_compute`). So the two functions
agree on it exactly when both refuse it, or both take it and it collects and mints nothing, repeats the
records of the accounts, changes no parameter, casts no vote that counts, and the executed hashes have room
(`Alike`). -/

namespace TruthLinked.Ledger.MergeAgreement

open Core.Types Runtime.Types Governance.Types Ledger.Model Ledger.Phases Ledger.Apply Ledger.ApplySpec
open Ledger.MergeSpec Ledger.Mcp Ledger.Agreement Ledger.ComputeCells Ledger.ComputeSpec Lib.Keyed Lib.Wp

section Computed
variable {env : Env} {w : World} {tx : Transaction} {d : StateDiff}

theorem accountsAgree_of_no_record {account : AccountRecord} {f : Fees} {m : Accounts}
    (hacc : slot m tx.sender = some account) (hrec : d.accountUpdates = ∅)
    (hpay : d.nativeTransfers = []) (hesc : d.computeEscrowCredits = []) :
    AccountsAgree (withFees tx.sender account f d) m := by
  intro a
  have hslot : slot (withFees tx.sender account f d).accountUpdates a =
      if tx.sender = a then some account else none := by
    have hnone : (∅ : Map AccountId AccountRecord)[tx.sender]? = none :=
      Std.ExtTreeMap.getElem?_empty
    rw [withFees_accountUpdates, hrec, slot_insert, hnone, Option.getD_none]
    split_ifs with ha hnil
    · rfl
    · rfl
    · exact Std.ExtTreeMap.getElem?_empty
  rw [hslot]
  split_ifs with ha
  · subst ha
    rw [hacc]
    exact ⟨.inr rfl, rfl, rfl, rfl⟩
  · cases slot m a with
    | none =>
      refine ⟨?_, ?_⟩ <;> rintro ⟨c, hc, -⟩
      · rw [show (withFees tx.sender account f d).nativeTransfers = [] from hpay] at hc
        exact absurd hc List.not_mem_nil
      · rw [show (withFees tx.sender account f d).computeEscrowCredits = [] from hesc] at hc
        exact absurd hc List.not_mem_nil
    | some r => trivial

theorem computed (h : computeTransactionDiffSkipSig env w tx = .ok d) :
    Plain env tx d ∧ txHashOf env tx ∉ w.state.executedTxHashes ∧ Separate d w.state ∧
      (d.paramUpdates = [] ∨ d.paramUpdates.length = 1) := by
  obtain ⟨account, d₁, f, hcheck, h1, -, rfl⟩ := compute_eq_ok h
  obtain ⟨hhash, hacc, -⟩ := checkTransaction_eq_ok hcheck
  have hd := handled_computeIntent tx.timestamp tx.intent d₁ h1
  refine ⟨plain_withFees hd.plain, hhash, ⟨fun hne => ?_, fun hm => ?_⟩, ?_⟩
  · obtain ⟨-, h2, h3, h4⟩ := hd.params.resolve_left hne
    exact ⟨h2, h3, hd.plain.tokenAuthorityVotes, h4⟩
  · obtain ⟨u, hu, hmoves⟩ := hm
    obtain ⟨hrec, hpay, hesc⟩ := hd.money.resolve_left fun hno => hno u hu hmoves
    exact accountsAgree_of_no_record hacc hrec hpay hesc
  · exact hd.params.imp id fun h => h.1

end Computed

/-! ## The condition -/

/-- What makes `apply_diff` and `merge_diff_inplace` write the same state, for the diff of a transaction
that both take. -/
structure Alike (d : StateDiff) (s : State) : Prop where
  /-- The records of the diff say what the accounts say. -/
  records : AccountsAgree d s.accounts
  /-- No hash is pruned. -/
  room : s.executedTxHashes.size < maxExecutedTxHashes
  /-- No fee is collected, or the counter of the epoch is full. -/
  fees : s.accumulatedEpochFees = u128 - 1 ∨
    (s.accumulatedEpochFees < u128 ∧ d.gasFee + d.computeFeeTlkd = 0)
  /-- Nothing is minted, or the counter is full. -/
  minted : d.mintedAmount = 0 ∨ s.totalMinted = u128 - 1
  /-- The parameters have their new values already. -/
  params : ∀ p ∈ d.paramUpdates, s.params[p.1]? = some p.2
  /-- No vote is for a pending name on which the voter has not voted. -/
  votes : ∀ v ∈ d.nameVotes, ∀ p, s.pendingNames[v.1]? = some p → v.2.1 ∈ p.votes

theorem size_pruneHashes {hs : FSet Bytes32} (h : maxExecutedTxHashes < hs.size) :
    (pruneHashes hs).size ≤ keepExecutedTxHashes := by
  rw [pruneHashes, if_pos h]
  exact Std.ExtTreeSet.size_ofList_le.trans (List.length_take_le _ _)

theorem pruneHashes_eq_iff (hs : FSet Bytes32) : pruneHashes hs = hs ↔ hs.size ≤ maxExecutedTxHashes := by
  constructor
  · intro h
    by_contra hlt
    have hsize := size_pruneHashes (Nat.lt_of_not_le hlt)
    have hkeep : keepExecutedTxHashes < maxExecutedTxHashes := by decide
    rw [h] at hsize
    omega
  · intro h
    rw [pruneHashes, if_neg (Nat.not_lt.mpr h)]

theorem satAdd_eq_self_iff (x n : ℕ) : satAdd x n = x ↔ x = u128 - 1 ∨ (x < u128 ∧ n = 0) := by
  have hpos : 0 < u128 := by decide
  rw [satAdd]
  omega

section Fields
variable {env : Env} {w : World} {tx : Transaction} {d : StateDiff}

theorem hashes_iff (hp : Plain env tx d) (hfresh : txHashOf env tx ∉ w.state.executedTxHashes) :
    (recordTransaction d w.state).executedTxHashes = (recordHashes d w.state).executedTxHashes ↔
      w.state.executedTxHashes.size < maxExecutedTxHashes := by
  have hempty : d.txHashes.isEmpty = true := by
    rw [hp.txHashes]
    exact Std.ExtTreeSet.isEmpty_empty
  simp only [recordTransaction, recordHashes, hp.isSystem, hempty, Bool.false_eq_true, if_false, if_true,
    collectEpochFees, collectFees]
  have hnot : ¬ w.state.executedTxHashes.contains (txHashOf env tx) = true := hfresh
  rw [pruneHashes_eq_iff, hp.txHash, Std.ExtTreeSet.size_insert, if_neg hnot]
  omega

theorem epoch_iff (hp : Plain env tx d) :
    (recordTransaction d w.state).accumulatedEpochFees = w.state.accumulatedEpochFees ↔
      w.state.accumulatedEpochFees = u128 - 1 ∨
        (w.state.accumulatedEpochFees < u128 ∧ d.gasFee + d.computeFeeTlkd = 0) := by
  have htre : d.treasuryFee = 0 := congrArg StateDiff.treasuryFee hp
  simp only [recordTransaction, hp.isSystem, Bool.false_eq_true, if_false, collectEpochFees, collectFees,
    htre, satAdd]
  have hpos : 0 < u128 := by decide
  omega

theorem minted_iff :
    (countMinted d.mintedAmount w.state).totalMinted = w.state.totalMinted ↔
      d.mintedAmount = 0 ∨ w.state.totalMinted = u128 - 1 := by
  simp only [countMinted]
  split_ifs with hpos
  · rw [satAdd_eq_self_iff]
    omega
  · refine ⟨fun _ => .inl (by omega), fun _ => rfl⟩

theorem params_iff (hone : d.paramUpdates = [] ∨ d.paramUpdates.length = 1) :
    (updateParams d.paramUpdates w).state.params = w.state.params ↔
      ∀ p ∈ d.paramUpdates, w.state.params[p.1]? = some p.2 := by
  rcases hone with hnil | hone
  · simp [updateParams, hnil]
  · obtain ⟨p, hp⟩ := List.length_eq_one_iff.mp hone
    simp only [updateParams, hp, List.foldl_cons, List.foldl_nil, List.mem_singleton, forall_eq]
    constructor
    · intro h
      rw [← h]
      exact Std.ExtTreeMap.getElem?_insert_self
    · intro h
      refine slot_ext fun a => ?_
      rw [slot_insert]
      split_ifs with ha
      · rw [← ha]
        exact h.symm
      · rfl

end Fields

/-- **When `apply_diff` and `merge_diff_inplace` agree on the diff of a transaction.** -/
theorem apply_agrees_with_merge_iff {env : Env} {w : World} {tx : Transaction} {d : StateDiff}
    (h : computeTransactionDiffSkipSig env w tx = .ok d) :
    DiffsAgree env d w ↔
      (¬ Applicable env d w.state ∧ ¬ Mergeable env d w.state) ∨
      (Applicable env d w.state ∧ Mergeable env d w.state ∧ Alike d w.state) := by
  obtain ⟨hp, hfresh, hsep, hone⟩ := computed h
  have halike : Agree d w ↔ Alike d w.state := by
    constructor
    · rintro ⟨h1, h2, h3, h4, h5, h6⟩
      exact ⟨h1, (hashes_iff hp hfresh).mp h2, (epoch_iff hp).mp h3, minted_iff.mp h4,
        (params_iff hone).mp h5, h6⟩
    · rintro ⟨h1, h2, h3, h4, h5, h6⟩
      exact ⟨h1, (hashes_iff hp hfresh).mpr h2, (epoch_iff hp).mpr h3, minted_iff.mpr h4,
        (params_iff hone).mpr h5, h6⟩
  rw [diffsAgree_iff hsep, halike]

/-! ## A sample node

Two accounts, and the parameters a transfer reads. The hash functions and the serialised form are those of
the node on the inputs that occur here. -/

/-- A number in the variable-length form of `postcard`, of at most `k` bytes. -/
def varint : ℕ → ℕ → Bytes
  | 0, _ => []
  | k + 1, n => if n < 128 then [UInt8.ofNat n] else UInt8.ofNat (n % 128 + 128) :: varint k (n / 128)

/-- The serialised form of the intents that occur here. -/
def intentBytes : TransactionIntent → Bytes
  | .transfer recipient none amount => [0] ++ ofBytes32 recipient ++ [0] ++ varint 19 amount
  | .depositCompute amount => [6] ++ varint 19 amount
  | .acceptOwnership cellId => [24] ++ ofBytes32 cellId
  | _ => []

/-- The serialised form of a transaction. -/
def txBytes (tx : Transaction) : Bytes :=
  ofBytes32 tx.sender ++ intentBytes tx.intent ++ varint 10 tx.signature.length ++ tx.signature ++
    varint 10 tx.nonce ++ varint 10 tx.timestamp ++ ofBytes32 tx.genesisFingerprint ++
    varint 10 tx.expirationHeight

/-- The keys of the parameters that occur here. -/
def paramDigest (bs : Bytes) : Bytes32 :=
  if bs = "truthlinked.param.v1gas.transfer".toUTF8.toList then
    0xb90a8fcbd336004e27bcc510a7b05d1ca860394c717835c02b3c2e87a88e7939
  else if bs = "truthlinked.param.v1fees.tx_byte".toUTF8.toList then
    0x20b073866fefc2eaa9139669458c86d59a01586baf154a11e5a5871ed9001ab3
  else if bs = "truthlinked.param.v1cu.per_tlkd".toUTF8.toList then
    0x650a85b912bb7463e3c2205d8341fa629b3f03fb2379d4643c560ad94e5f42d6
  else 0

/-- Account 1 sends 5 to account 2. -/
def sampleTransfer : Transaction :=
  ⟨1, .transfer 2 none 5, [], 1, 0, 7, 10⟩

/-- Account 1 moves all it has to its compute escrow. -/
def sampleDeposit : Transaction :=
  ⟨1, .depositCompute 1000, [], 1, 0, 7, 10⟩

/-- The third-party code, on the inputs that occur here. -/
def sampleEnv : Env where
  blake3 bs := if bs = txBytes sampleTransfer then
      0x380f09fea3b0dd0fc4d713d9d82c9170e4b74660500acf6bff03e2932b3aaec2
    else if bs = txBytes sampleDeposit then
      0x5b1ec51f179d097fc10a899154a8357bffc7de595cc59f86258b35647ede76b6
    else 0
  parsePriceUsdMicros _ := none
  priceUsdBody _ _ := []
  sha256 := paramDigest
  serialize := txBytes
  isPublicKey _ := false
  verifyCtProof _ _ := .error "no proof"

/-- A ledger with two accounts. -/
def sampleState : State where
  accounts := fromList [(1, ⟨[1], 1000, 1000, 0, []⟩), (2, ⟨[2], 50, 0, 0, []⟩)]
  staking := ⟨∅, 0, none⟩
  nfts := ∅
  cells := ⟨∅, ∅, ∅⟩
  accumulatedGasFees := 0
  accumulatedNameFees := 0
  accumulatedComputeFeesTlkd := 0
  accumulatedTreasuryFees := 0
  executedTxHashes := ∅
  params := ∅
  nameRegistry := ∅
  pendingNames := ∅
  tokenAuthorityProposals := ∅
  airdropClaims := ∅
  totalMinted := 0
  foundationMintAuthority := none
  pendingOracleRequests := ∅
  oraclePending := ∅
  oracleResults := ∅
  urlProposals := ∅
  schemaProposals := ∅
  schemaRegistry := ∅
  cellVisibility := ∅
  accumulatedEpochFees := 0
  lastEmissionEpoch := 0
  chainAgeYears := 0

/-- The node: gas price 10 for a transfer, 1 for a byte, and 1000000000 compute units to the coin. -/
def sampleWorld : World where
  state := sampleState
  globals :=
    { paramCache := fromList
        [(paramKey paramDigest "gas.transfer", encodeU64 10),
          (paramKey paramDigest "fees.tx_byte", encodeU64 1),
          (paramKey paramDigest "cu.per_tlkd", encodeU64 1000000000)]
      oracleResults := ∅
      cellVisibility := ∅
      urlProposals := ∅
      currentHeight := 0
      genesisHash := 7 }

/-- The diff of the transfer: 113 of gas, of which the handler takes 10. -/
def sampleDiff : StateDiff :=
  { nonceUpdates := [(1, 1)]
    txHash := 0x380f09fea3b0dd0fc4d713d9d82c9170e4b74660500acf6bff03e2932b3aaec2
    nativeTransfers := [(2, 5)]
    nativeDebits := [(1, 15), (1, 103)]
    gasFee := 113
    accountUpdates := fromList [(1, ⟨[1], 1000, 1000, 0, []⟩)] }

theorem compute_sampleTransfer :
    computeTransactionDiffSkipSig sampleEnv sampleWorld sampleTransfer = .ok sampleDiff := by
  decide +kernel

/-- The condition at the sample transfer, which both functions take and which pays a fee. -/
theorem apply_agrees_with_merge_sample :
    computeTransactionDiffSkipSig sampleEnv sampleWorld sampleTransfer = .ok sampleDiff ∧
      (DiffsAgree sampleEnv sampleDiff sampleWorld ↔
        (¬ Applicable sampleEnv sampleDiff sampleState ∧ ¬ Mergeable sampleEnv sampleDiff sampleState) ∨
        (Applicable sampleEnv sampleDiff sampleState ∧ Mergeable sampleEnv sampleDiff sampleState ∧
          Alike sampleDiff sampleState)) :=
  ⟨compute_sampleTransfer, apply_agrees_with_merge_iff compute_sampleTransfer⟩

/-- After the sample transfer `apply_diff` has 113 in the counter of the epoch, `merge_diff_inplace` none. -/
theorem transfer_merged_differs :
    ¬ ∀ env w tx d, computeTransactionDiffSkipSig env w tx = .ok d → DiffsAgree env d w := by
  intro h
  have hagree := h sampleEnv sampleWorld sampleTransfer sampleDiff compute_sampleTransfer
  have happ : (outcome (applyDiff sampleEnv sampleDiff) sampleWorld).1 = .ok () ∧
      (outcome (applyDiff sampleEnv sampleDiff) sampleWorld).2.state.accumulatedEpochFees = 113 := by
    decide +kernel
  have hmrg : (outcome (mergeDiffInplace sampleEnv sampleDiff) sampleWorld).1 = .ok () ∧
      (outcome (mergeDiffInplace sampleEnv sampleDiff) sampleWorld).2.state.accumulatedEpochFees = 0 := by
    decide +kernel
  rw [DiffsAgree] at hagree
  generalize outcome (applyDiff sampleEnv sampleDiff) sampleWorld = a at *
  generalize outcome (mergeDiffInplace sampleEnv sampleDiff) sampleWorld = m at *
  obtain ⟨ra, wa⟩ := a
  obtain ⟨rm, wm⟩ := m
  obtain ⟨rfl, ha⟩ := happ
  obtain ⟨rfl, hm⟩ := hmrg
  have hstate : wa.state = wm.state := hagree
  have hfees : wa.state.accumulatedEpochFees = 113 := ha
  rw [hstate] at hfees
  exact absurd (hfees.symm.trans hm) (by decide)

end TruthLinked.Ledger.MergeAgreement
