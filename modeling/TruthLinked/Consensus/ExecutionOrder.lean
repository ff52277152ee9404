import TruthLinked.Consensus.Validation
import TruthLinked.Ledger.MergeAgreement

/-! # The order in which a batch is executed

The header commits to an execution order, and the leader sorts its batch into that order before it executes
it. The other nodes check the commitment on a sorted copy and then execute the batch as it came
(`process_header_with_batch`, `apply_sync_batch`, `process_sync_buffer`). They compute the leader's state
on a batch that came in the committed order; the check accepts every other order as well. -/

namespace TruthLinked.Consensus.ExecutionOrder

open Core.Types Staking.State Ledger.Model Ledger.Executor Ledger.Maintenance Ledger.MergeAgreement
open Consensus.Types Consensus.Validation Lib.SortKey

/-- How a node runs a list of transactions from a world. -/
abbrev Execute := World → List Transaction → Except String World

section
variable (prim : Primitives) (serialize : Transaction → Bytes) (validatorPubkey : Bytes)
variable (execute : Execute) (w : World) (header : BatchHeader)

/-- The state that `process_header_with_batch` computes, before it compares the roots. The new state of
`apply_sync_batch` and `process_sync_buffer` is computed in the same way. -/
def receivedState (batch : List Transaction) : Except String World := do
  validateSyncHeaderWithBatch prim serialize validatorPubkey w.state header batch
  execute w batch

/-- The state that the leader computes in `batch_timer_task`, after it has sorted the batch in place. -/
def leaderState (batch : List Transaction) : Except String World :=
  execute w (executionOrder prim serialize batch header.batchHash)

/-- The batch lists its transactions in the order that the header commits to. -/
def InCommittedOrder (batch : List Transaction) : Prop :=
  batch.Pairwise fun a b => keyLe (orderKey prim serialize header.batchHash) a b = true

/-- Both batches lead to the state of the committed order. -/
def FollowsOrder (b₁ b₂ : List Transaction) : Prop :=
  receivedState prim serialize validatorPubkey execute w header b₁ =
      leaderState prim serialize execute w header b₁ ∧
    receivedState prim serialize validatorPubkey execute w header b₂ =
      leaderState prim serialize execute w header b₁ ∧
    leaderState prim serialize execute w header b₂ = leaderState prim serialize execute w header b₁

end

section Order
variable {prim : Primitives} {serialize : Transaction → Bytes} {validatorPubkey : Bytes}
variable {w : World} {header : BatchHeader} {b₁ b₂ : List Transaction}

theorem computeBatchCommitment_perm (hperm : b₁.Perm b₂) (parentHash : Bytes32) (height : ℕ) :
    computeBatchCommitment prim serialize b₁ parentHash height =
      computeBatchCommitment prim serialize b₂ parentHash height := by
  have hsorted : sortByKey id (b₁.map (batchTxHash prim serialize)) =
      sortByKey id (b₂.map (batchTxHash prim serialize)) := by
    refine sortByKey_eq_of_perm (hperm.map _) ?_
    intro a _ b _ hab
    exact Std.LawfulEqOrd.eq_of_compare hab
  rw [computeBatchCommitment, computeBatchCommitment, hsorted]

theorem executionOrder_perm {commitment : Bytes32} (hperm : b₁.Perm b₂)
    (hkeys : KeysTellApart (orderKey prim serialize commitment) b₁) :
    executionOrder prim serialize b₁ commitment = executionOrder prim serialize b₂ commitment :=
  sortByKey_eq_of_perm hperm hkeys

/-- **The check accepts a batch in every order or in none.** -/
theorem validate_perm (hperm : b₁.Perm b₂)
    (hkeys : KeysTellApart (orderKey prim serialize header.batchHash) b₁) (s : State) :
    validateSyncHeaderWithBatch prim serialize validatorPubkey s header b₁ =
      validateSyncHeaderWithBatch prim serialize validatorPubkey s header b₂ := by
  unfold validateSyncHeaderWithBatch computeExecutionOrder
  rw [computeBatchCommitment_perm hperm, executionOrder_perm hperm hkeys]

theorem executionOrder_eq_self_iff {b : List Transaction} :
    executionOrder prim serialize b header.batchHash = b ↔ InCommittedOrder prim serialize header b :=
  sortByKey_eq_self_iff

theorem receivedState_of_valid {execute : Execute} {b : List Transaction}
    (hvalid : validateSyncHeaderWithBatch prim serialize validatorPubkey w.state header b = .ok ()) :
    receivedState prim serialize validatorPubkey execute w header b = execute w b := by
  unfold receivedState
  rw [hvalid]
  rfl

/-- **A batch in the committed order** leads to the state of the leader, and so does every other one that
is in that order. -/
theorem followsOrder_of_sorted (execute : Execute) (hperm : b₁.Perm b₂)
    (hkeys : KeysTellApart (orderKey prim serialize header.batchHash) b₁)
    (h₁ : validateSyncHeaderWithBatch prim serialize validatorPubkey w.state header b₁ = .ok ())
    (h₂ : validateSyncHeaderWithBatch prim serialize validatorPubkey w.state header b₂ = .ok ())
    (ho₁ : InCommittedOrder prim serialize header b₁) (ho₂ : InCommittedOrder prim serialize header b₂) :
    FollowsOrder prim serialize validatorPubkey execute w header b₁ b₂ := by
  have hsame := executionOrder_perm hperm hkeys
  have he₁ := executionOrder_eq_self_iff.mpr ho₁
  have he₂ := executionOrder_eq_self_iff.mpr ho₂
  refine ⟨?_, ?_, ?_⟩
  · rw [receivedState_of_valid h₁, leaderState, he₁]
  · rw [receivedState_of_valid h₂, leaderState, hsame, he₂]
  · rw [leaderState, leaderState, hsame]

/-- A node that tells one list from all others has executed that list. -/
theorem sorted_of_followsOrder
    (h₁ : validateSyncHeaderWithBatch prim serialize validatorPubkey w.state header b₁ = .ok ())
    (h₂ : validateSyncHeaderWithBatch prim serialize validatorPubkey w.state header b₂ = .ok ())
    (h : ∀ execute, FollowsOrder prim serialize validatorPubkey execute w header b₁ b₂) :
    InCommittedOrder prim serialize header b₁ ∧ InCommittedOrder prim serialize header b₂ := by
  classical
  set order := executionOrder prim serialize b₁ header.batchHash with horder
  obtain ⟨hp₁, hp₂, hl⟩ := h fun w batch => if batch = order then .ok w else .error ""
  rw [receivedState_of_valid h₁, leaderState, ← horder, if_pos rfl] at hp₁
  rw [receivedState_of_valid h₂, leaderState, ← horder, if_pos rfl] at hp₂
  rw [leaderState, leaderState, ← horder, if_pos rfl] at hl
  have hb₁ : b₁ = order := by
    by_contra hne
    rw [if_neg hne] at hp₁
    cases hp₁
  have hb₂ : b₂ = order := by
    by_contra hne
    rw [if_neg hne] at hp₂
    cases hp₂
  have ho₂ : executionOrder prim serialize b₂ header.batchHash = order := by
    by_contra hne
    rw [if_neg hne] at hl
    cases hl
  constructor
  · rw [← executionOrder_eq_self_iff, ← horder]
    exact hb₁.symm
  · rw [← executionOrder_eq_self_iff, ho₂]
    exact hb₂.symm

end Order

/-- **When the committed order is executed.** Two orders of one batch that pass the check lead every node to
the leader's state if both are the committed order; and where one is not, some executor can tell. -/
theorem committed_order_executed_iff (prim : Primitives) (env : Env) (validatorPubkey : Bytes)
    (split : List PartResult → Split PartResult) (w : World) (header : BatchHeader)
    (b₁ b₂ : List Transaction) (hperm : b₁.Perm b₂)
    (hkeys : KeysTellApart (orderKey prim env.serialize header.batchHash) b₁)
    (h₁ : validateSyncHeaderWithBatch prim env.serialize validatorPubkey w.state header b₁ = .ok ())
    (h₂ : validateSyncHeaderWithBatch prim env.serialize validatorPubkey w.state header b₂ = .ok ()) :
    (InCommittedOrder prim env.serialize header b₁ ∧ InCommittedOrder prim env.serialize header b₂ →
      FollowsOrder prim env.serialize validatorPubkey (executeBatch env split) w header b₁ b₂) ∧
    ((∀ execute, FollowsOrder prim env.serialize validatorPubkey execute w header b₁ b₂) ↔
      InCommittedOrder prim env.serialize header b₁ ∧ InCommittedOrder prim env.serialize header b₂) := by
  refine ⟨?_, sorted_of_followsOrder h₁ h₂, ?_⟩
  · rintro ⟨ho₁, ho₂⟩
    exact followsOrder_of_sorted _ hperm hkeys h₁ h₂ ho₁ ho₂
  · rintro ⟨ho₁, ho₂⟩ execute
    exact followsOrder_of_sorted execute hperm hkeys h₁ h₂ ho₁ ho₂

/-! ## Two orders of one batch

The block after genesis with the transfer and the deposit of the sample node, which now has one validator.
The hash functions are those of the node on the inputs that occur here; every signature passes. -/

def soleKey : Bytes := List.replicate 1952 9

def soleWorld : World :=
  { sampleWorld with
    state := { sampleState with
      staking := ⟨(∅ : Map Bytes ValidatorStake).insert soleKey (.new minValidatorStake), 0, none⟩ } }

def pairCommitment : Bytes32 := 0xdf50ed3d66e34533cfe37d397a87634dda71f8b243f6daea4ac44a87f5c1543c

/-- The third-party code of the node, on the inputs that occur here. -/
def solePrim : Primitives where
  blake3 bs :=
    if bs = txBytes sampleTransfer then
      0x380f09fea3b0dd0fc4d713d9d82c9170e4b74660500acf6bff03e2932b3aaec2
    else if bs = txBytes sampleDeposit then
      0x5b1ec51f179d097fc10a899154a8357bffc7de595cc59f86258b35647ede76b6
    else if bs = ofBytes32 0 ++ leBytes 8 1 then
      0x5469679938a702cfd12d8b4873945d1173b3ab1ba86258ecadc86cf3ea067583
    else if bs = txBytes sampleTransfer ++ ofBytes32 pairCommitment then
      0x3081de7afc59e03f84741322813c68f93078bfa1ee0191bf8136f71855da6145
    else if bs = txBytes sampleDeposit ++ ofBytes32 pairCommitment then
      0x60bfad64d8efa8b248010880581aeb9f4bb73cd09fb082f15fd3d0e495240714
    else 0
  sha256 bs :=
    if bs = [1] ++ ofBytes32 0x380f09fea3b0dd0fc4d713d9d82c9170e4b74660500acf6bff03e2932b3aaec2 ++
        ofBytes32 0x5b1ec51f179d097fc10a899154a8357bffc7de595cc59f86258b35647ede76b6 then
      0xf2b2f9085f082e3a32f593f0e2059c0aadda410dd853f10656bca447fb7b8050
    else if bs = [1] ++ ofBytes32 0x5469679938a702cfd12d8b4873945d1173b3ab1ba86258ecadc86cf3ea067583 ++
        ofBytes32 0x5469679938a702cfd12d8b4873945d1173b3ab1ba86258ecadc86cf3ea067583 then
      0xcfbab6bdf393566c3e4bc41aca8618d63b4ba59acdff297ec349f99474357472
    else if bs = [1] ++ ofBytes32 0xf2b2f9085f082e3a32f593f0e2059c0aadda410dd853f10656bca447fb7b8050 ++
        ofBytes32 0xcfbab6bdf393566c3e4bc41aca8618d63b4ba59acdff297ec349f99474357472 then
      pairCommitment
    else 0
  verify _ _ _ _ := true

def pairHeader : BatchHeader where
  height := 1
  parentHash := 0
  batchHash := pairCommitment
  executionOrderRoot := 0xf2b2f9085f082e3a32f593f0e2059c0aadda410dd853f10656bca447fb7b8050
  stateRoot := 0
  timestamp := 0
  totalFees := 0
  finalityCertificate := PqFinalityCertificate.empty solePrim 1 0 pairCommitment 0
  leaderPubkey := soleKey
  leaderSignature := List.replicate 3309 5
  leaderRound := 0

/-- The batch in the committed order. -/
def inOrder : List Transaction := [sampleTransfer, sampleDeposit]

def outOfOrder : List Transaction := [sampleDeposit, sampleTransfer]

theorem inOrder_perm : inOrder.Perm outOfOrder := List.Perm.swap _ _ _

theorem inOrder_facts :
    validateSyncHeaderWithBatch solePrim txBytes soleKey soleWorld.state pairHeader inOrder = .ok () ∧
    compare (orderKey solePrim txBytes pairCommitment sampleTransfer)
      (orderKey solePrim txBytes pairCommitment sampleDeposit) = .lt ∧
    compare (orderKey solePrim txBytes pairCommitment sampleDeposit)
      (orderKey solePrim txBytes pairCommitment sampleTransfer) = .gt ∧
    keyLe (orderKey solePrim txBytes pairCommitment) sampleTransfer sampleDeposit = true := by
  decide +kernel

theorem inOrder_valid :
    validateSyncHeaderWithBatch solePrim txBytes soleKey soleWorld.state pairHeader inOrder = .ok () :=
  inOrder_facts.1

theorem inOrder_keys : KeysTellApart (orderKey solePrim txBytes pairHeader.batchHash) inOrder := by
  obtain ⟨-, hne, hne', -⟩ := inOrder_facts
  intro a ha b hb hab
  simp only [inOrder, List.mem_cons, List.not_mem_nil, or_false] at ha hb
  rcases ha with rfl | rfl
  · rcases hb with rfl | rfl
    · rfl
    · exact absurd (hab.symm.trans hne) (by decide)
  · rcases hb with rfl | rfl
    · exact absurd (hab.symm.trans hne') (by decide)
    · rfl

theorem outOfOrder_valid :
    validateSyncHeaderWithBatch solePrim txBytes soleKey soleWorld.state pairHeader outOfOrder = .ok () := by
  rw [← validate_perm inOrder_perm inOrder_keys]
  exact inOrder_valid

/-- The batch in the committed order leads to the leader's state. -/
theorem committed_order_executed_pair :
    FollowsOrder solePrim txBytes soleKey (executeBatch sampleEnv .bucket) soleWorld pairHeader inOrder
      inOrder := by
  have hsorted : InCommittedOrder solePrim txBytes pairHeader inOrder :=
    List.pairwise_pair.mpr inOrder_facts.2.2.2
  exact (committed_order_executed_iff solePrim sampleEnv soleKey .bucket soleWorld pairHeader inOrder inOrder
    (.refl _) inOrder_keys inOrder_valid inOrder_valid).1 ⟨hsorted, hsorted⟩

def epochFees (r : Except String World) : Option ℕ := r.toOption.map fun w => w.state.accumulatedEpochFees

/-- **Both orders pass the check of one header** and lead to different states: in the committed order the
transfer pays and the deposit is refused for its nonce, in the other one the deposit fails on the balance and
its fee stays. -/
theorem two_orders_differ :
    inOrder.Perm outOfOrder ∧
      validateSyncHeaderWithBatch solePrim txBytes soleKey soleWorld.state pairHeader inOrder = .ok () ∧
      validateSyncHeaderWithBatch solePrim txBytes soleKey soleWorld.state pairHeader outOfOrder = .ok () ∧
      epochFees (receivedState solePrim txBytes soleKey (executeBatch sampleEnv .bucket) soleWorld pairHeader
        inOrder) = some 113 ∧
      epochFees (receivedState solePrim txBytes soleKey (executeBatch sampleEnv .bucket) soleWorld pairHeader
        outOfOrder) = some 81 ∧
      ¬ FollowsOrder solePrim txBytes soleKey (executeBatch sampleEnv .bucket) soleWorld pairHeader inOrder
        outOfOrder := by
  have hin : epochFees (receivedState solePrim txBytes soleKey (executeBatch sampleEnv .bucket) soleWorld
      pairHeader inOrder) = some 113 := by
    rw [receivedState_of_valid inOrder_valid]
    decide +kernel
  have hout : epochFees (receivedState solePrim txBytes soleKey (executeBatch sampleEnv .bucket) soleWorld
      pairHeader outOfOrder) = some 81 := by
    rw [receivedState_of_valid outOfOrder_valid]
    decide +kernel
  refine ⟨inOrder_perm, inOrder_valid, outOfOrder_valid, hin, hout, ?_⟩
  rintro ⟨h₁, h₂, -⟩
  rw [h₁] at hin
  rw [h₂, hin] at hout
  cases hout

end TruthLinked.Consensus.ExecutionOrder
