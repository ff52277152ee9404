import TruthLinked.Lib.FirstFit
import TruthLinked.Runtime.Cells
import Mathlib.Data.Finset.Basic
import Mathlib.Data.Finset.Image

/-! # Conflict domains and the partitioner

`ConcreteConflictDomain.from_transaction` and `partition_by_compiler_domains` of
`compiler_aware.rs`. The partitioner is the first-fit grouping of `Lib.FirstFit` with
`conflictsWith` as the clash: a transaction joins the first part it does *not* conflict with. So
each part is free of conflicts, and two conflicting transactions are always apart
(`conflicting_apart`), while the executor runs the parts side by side on one snapshot. -/

namespace TruthLinked.Runtime.CompilerAware

open Core.Types Runtime.Cells Lib.FirstFit

/-- `StorageKey`. -/
inductive StorageKey where
  | account (id : AccountId)
  | cellStorage (cell : AccountId) (key : Bytes32)
  | global (name : String)
  | unknown (key : Bytes32)
  deriving DecidableEq

/-- `ConcreteConflictDomain`. -/
@[ext]
structure ConcreteConflictDomain where
  reads : Finset StorageKey
  writes : Finset StorageKey
  deriving DecidableEq

/-- `ConcreteConflictDomain::conflicts_with`. -/
def conflictsWith (self other : ConcreteConflictDomain) : Bool :=
  decide (∃ w ∈ self.writes, w ∈ other.writes) || decide (∃ r ∈ self.reads, r ∈ other.writes) ||
    decide (∃ w ∈ self.writes, w ∈ other.reads)

/-- The key a storage key spec cuts out of the calldata. -/
def specKey (calldata : Bytes) (spec : StorageKeySpec) : Option Bytes32 :=
  let stop := spec.offset + spec.len
  -- `checked_add` on `usize`
  if stop < 2 ^ 64 ∧ spec.len = 32 ∧ stop ≤ calldata.length then
    some (toBytes32 (slice calldata spec.offset stop))
  else none

/-- The declared reads of a called cell. -/
def cellReads (cellId : AccountId) (cell : CellAccount) : Finset StorageKey :=
  (cell.declaredReads.map (StorageKey.cellStorage cellId)).toFinset

/-- The declared writes of a called cell and the keys cut out of the calldata, the commutative keys
left out. -/
def cellWrites (cellId : AccountId) (cell : CellAccount) (calldata : Bytes) : Finset StorageKey :=
  (((cell.declaredWrites ++ cell.storageKeySpecs.filterMap (specKey calldata)).filter
    (· ∉ cell.commutativeKeys)).map (StorageKey.cellStorage cellId)).toFinset

/-- `ConcreteConflictDomain::from_transaction`. -/
def fromTransaction (tx : Transaction) (cell : Option CellAccount)
    (cells : Map AccountId CellAccount) : ConcreteConflictDomain :=
  match tx.intent with
  | .transfer recipient _ _ | .claim recipient _ _ =>
    ⟨∅, {.account tx.sender, .account recipient}⟩
  | .batchTransfer transfers =>
    ⟨∅, insert (.account tx.sender) (transfers.map fun t => .account t.recipient).toFinset⟩
  | .transferToName .. | .batchTransferToName .. =>
    ⟨∅, {.account tx.sender, .global "name_registry"}⟩
  | .depositCompute .. | .withdrawCompute .. | .wrapTLKD .. | .unwrapTLKD .. =>
    ⟨∅, {.account tx.sender}⟩
  | .tokenTransfer tokenCell _ _ => ⟨∅, {.cellStorage tokenCell tx.sender}⟩
  | .closeCell cellId | .proposeCellUpgrade cellId .. | .proposeCellOwnershipTransfer cellId ..
  | .proposeCellMakeImmutable cellId .. | .voteCellProposal cellId .. | .executeCellProposal cellId =>
    ⟨∅, {.cellStorage cellId cellId}⟩
  | .proposeTokenAuthority .. | .voteTokenAuthority .. | .callSystem .. | .proposeUrl ..
  | .voteUrl .. | .reportMaliciousUrl .. => ⟨∅, {.global "system"}⟩
  | .callCell cellId calldata _ _ =>
    match cell with
    | some c => ⟨cellReads cellId c, cellWrites cellId c calldata⟩
    | none => ⟨∅, {.global "global"}⟩
  | .callCellChain calls _ =>
    calls.foldl (fun dom call =>
      match cells[call.cellId]? with
      | some c => ⟨dom.reads ∪ cellReads call.cellId c,
          dom.writes ∪ cellWrites call.cellId c call.calldata⟩
      | none => ⟨dom.reads, insert (.global "global") dom.writes⟩) ⟨∅, ∅⟩
  | .registerMcpTool .. | .registerMcpResource .. | .registerMcpPrompt .. | .registerAgent ..
  | .suspendAgent .. | .reinstateAgent .. | .mcpToolCall .. | .privateBalanceInit ..
  | .privateBalanceDeposit .. | .privateBalanceWithdraw .. | .privateBalanceConfidentialTransfer ..
  | .submitOracleCommit .. | .submitOracleReveal .. | .setCellVisibility .. | .mintNFT ..
  | .transferNFT .. | .burnNFT .. | .approveNFT .. | .deployCell .. | .deployToken ..
  | .upgradeCell .. | .transferOwnership .. | .acceptOwnership .. | .makeImmutable ..
  | .tokenMint .. | .tokenBurn .. | .tokenFreeze .. | .tokenThaw .. | .stake .. | .unstake ..
  | .withdrawStake | .unjail | .rotateKey .. => ⟨∅, {.global "global"}⟩

/-- The domain the partitioner computes for a transaction: the called cell, or the first of a chain,
is looked up in the cells. -/
def domainOf (cells : Map AccountId CellAccount) (tx : Transaction) : ConcreteConflictDomain :=
  let cell := match tx.intent with
    | .callCell cellId _ _ _ => cells[cellId]?
    | .callCellChain calls _ => calls.head?.bind fun c => cells[c.cellId]?
    | _ => none
  fromTransaction tx cell cells

/-- `part_domain.reads.extend(..)`, `part_domain.writes.extend(..)`. -/
def extend (part dom : ConcreteConflictDomain) : ConcreteConflictDomain :=
  ⟨part.reads ∪ dom.reads, part.writes ∪ dom.writes⟩

/-- `partition_by_compiler_domains`. The two vectors `partitions` and `domains` are one list of
pairs. -/
def partitionByCompilerDomains (batch : List Transaction) (cells : Map AccountId CellAccount) :
    List (List ℕ) :=
  firstFit conflictsWith extend (batch.map (domainOf cells))

theorem conflictsWith_iff {a b : ConcreteConflictDomain} : conflictsWith a b = true ↔
    (∃ w ∈ a.writes, w ∈ b.writes) ∨ (∃ r ∈ a.reads, r ∈ b.writes) ∨
      ∃ w ∈ a.writes, w ∈ b.reads := by
  simp [conflictsWith, or_assoc]

theorem conflictsWith_comm (a b : ConcreteConflictDomain) : conflictsWith a b = conflictsWith b a := by
  rw [Bool.eq_iff_iff, conflictsWith_iff, conflictsWith_iff]
  constructor
  · rintro (⟨k, h, h'⟩ | ⟨k, h, h'⟩ | ⟨k, h, h'⟩)
    · exact Or.inl ⟨k, h', h⟩
    · exact Or.inr (Or.inr ⟨k, h', h⟩)
    · exact Or.inr (Or.inl ⟨k, h', h⟩)
  · rintro (⟨k, h, h'⟩ | ⟨k, h, h'⟩ | ⟨k, h, h'⟩)
    · exact Or.inl ⟨k, h', h⟩
    · exact Or.inr (Or.inr ⟨k, h', h⟩)
    · exact Or.inr (Or.inl ⟨k, h', h⟩)

theorem extend_distributes : Distributes conflictsWith extend := by
  intro d e f
  rw [Bool.eq_iff_iff, Bool.or_eq_true, conflictsWith_iff, conflictsWith_iff, conflictsWith_iff]
  simp only [extend, Finset.mem_union, and_or_left, exists_or]
  simp only [or_assoc, or_left_comm]

/-- `partition_by_compiler_domains` splits the batch: every index stands in exactly one part, once,
and every part is increasing. -/
def SplitsBatch (batch : List Transaction) (parts : List (List ℕ)) : Prop :=
  parts.flatten.Perm (List.range batch.length) ∧ ∀ p ∈ parts, p.Pairwise (· < ·)

theorem partition_splitsBatch (batch : List Transaction) (cells : Map AccountId CellAccount) :
    SplitsBatch batch (partitionByCompilerDomains batch cells) := by
  refine ⟨?_, fun p hp => firstFit_sorted _ _ _ hp⟩
  have h := firstFit_perm conflictsWith extend (batch.map (domainOf cells))
  rwa [List.length_map] at h

/-- The transactions `i < j` of the batch have conflicting domains. -/
def ConflictAt (batch : List Transaction) (cells : Map AccountId CellAccount) (i j : ℕ) : Prop :=
  ∃ ti tj, batch[i]? = some ti ∧ batch[j]? = some tj ∧ i < j ∧
    conflictsWith (domainOf cells ti) (domainOf cells tj) = true

/-- **Conflicting transactions are never in one part.** -/
theorem conflicting_apart {batch : List Transaction} {cells : Map AccountId CellAccount} {i j : ℕ}
    (h : ConflictAt batch cells i j) {p : List ℕ} (hp : p ∈ partitionByCompilerDomains batch cells)
    (hi : i ∈ p) : j ∉ p := by
  obtain ⟨ti, tj, hti, htj, hij, hc⟩ := h
  intro hj
  have hfree := firstFit_clashFree extend_distributes _ hp hij hi hj
    (d := domainOf cells ti) (e := domainOf cells tj) (by simp [hti]) (by simp [htj])
  rw [conflictsWith_comm, hc] at hfree
  exact Bool.noConfusion hfree

/-- Any two transactions with conflicting domains are placed in the same part. -/
def ConflictsTogether (batch : List Transaction) (cells : Map AccountId CellAccount)
    (parts : List (List ℕ)) : Prop :=
  ∀ i j, ConflictAt batch cells i j → ∃ p ∈ parts, i ∈ p ∧ j ∈ p

/-- **The partitioner keeps conflicting transactions together exactly when there are none.** -/
theorem partition_keeps_conflicts_iff (batch : List Transaction) (cells : Map AccountId CellAccount) :
    (SplitsBatch batch (partitionByCompilerDomains batch cells) ∧
      ConflictsTogether batch cells (partitionByCompilerDomains batch cells)) ↔
      ∀ i j, ¬ ConflictAt batch cells i j := by
  constructor
  · rintro ⟨-, htog⟩ i j hc
    obtain ⟨p, hp, hi, hj⟩ := htog i j hc
    exact conflicting_apart hc hp hi hj
  · intro hnone
    exact ⟨partition_splitsBatch batch cells, fun i j hc => absurd hc (hnone i j)⟩

/-- A transfer of one unit from account `1` to `recipient`. -/
def sampleTransfer (recipient : AccountId) : Transaction where
  sender := 1
  intent := .transfer recipient none 1
  signature := []
  nonce := 1
  timestamp := 0
  genesisFingerprint := 0
  expirationHeight := 0

/-- Two transfers of one sender both write its account, and land in two parts. -/
theorem partition_separates_transfers :
    ¬ ∀ (batch : List Transaction) (cells : Map AccountId CellAccount),
      SplitsBatch batch (partitionByCompilerDomains batch cells) ∧
        ConflictsTogether batch cells (partitionByCompilerDomains batch cells) := by
  intro h
  obtain ⟨-, htog⟩ := h [sampleTransfer 2, sampleTransfer 3] ∅
  obtain ⟨p, hp, hi, hj⟩ := htog 0 1 ⟨sampleTransfer 2, sampleTransfer 3, rfl, rfl, by decide,
    by decide⟩
  have hparts : partitionByCompilerDomains [sampleTransfer 2, sampleTransfer 3] ∅ = [[0], [1]] := by
    decide
  rw [hparts] at hp
  rcases List.mem_cons.mp hp with rfl | hp
  · simp at hj
  · simp_all

end TruthLinked.Runtime.CompilerAware
