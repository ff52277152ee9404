import TruthLinked.Consensus.ExecutionOrder
import TruthLinked.Lib.MerkleTree

/-! # What a batch commitment commits to

`compute_batch_commitment_round`, `merkle_root` and `verify_merkle_proof`. The last leaf of the tree is the
hash of parent and height, which no transaction has: two commitments are equal exactly if parent, height and
the multiset of the transactions are (`batch_commitment_eq_iff`). The verifier of Merkle proofs gets no number
of leaves: what it accepts is about a leaf if the proof has one sibling for each layer, and about the leaf of
that index if the list is long enough (`merkle_proof_iff`). -/

namespace TruthLinked.Consensus.BatchCommitment

open Core.Types Core.Bytes Consensus.Types Consensus.Validation Consensus.ExecutionOrder Lib.SortKey
open Lib.Merkle Ledger.MergeAgreement

/-! ## Merkle proofs -/

/-- `verify_merkle_proof`. -/
def verifyMerkleProof (prim : Primitives) (leaf : Bytes32) (proof : List Bytes32) (index : ℕ) (root : Bytes32) :
    Bool :=
  let (hash, _) := proof.foldl (fun (hash, idx) sibling =>
    (prim.sha256 ([1] ++ if idx % 2 = 0 then ofBytes32 hash ++ ofBytes32 sibling
      else ofBytes32 sibling ++ ofBytes32 hash), idx / 2)) (leaf, index)
  hash = root

/-- The input of the hash of an inner node. -/
def nodeInput (p : Bytes32 × Bytes32) : Bytes := [1] ++ ofBytes32 p.1 ++ ofBytes32 p.2

/-- SHA-256 has no collision among the nodes over these pairs. -/
def NoNodeCollision (prim : Primitives) (ps : List (Bytes32 × Bytes32)) : Prop :=
  Set.InjOn prim.sha256 {x | ∃ p ∈ ps, nodeInput p = x}

section
variable {prim : Primitives}

theorem noNodeCollision_of_all {ps : List (Bytes32 × Bytes32)}
    (h : (ps.all fun p => ps.all fun q =>
      decide (prim.sha256 (nodeInput p) = prim.sha256 (nodeInput q) → nodeInput p = nodeInput q)) = true) :
    NoNodeCollision prim ps := by
  rintro x ⟨p, hp, rfl⟩ y ⟨q, hq, rfl⟩ heq
  exact of_decide_eq_true (List.all_eq_true.mp (List.all_eq_true.mp h p hp) q hq) heq

theorem nodeInput_inj {p q : Bytes32 × Bytes32} (h : nodeInput p = nodeInput q) : p = q := by
  unfold nodeInput at h
  rw [List.append_assoc, List.append_assoc] at h
  obtain ⟨hl, hr⟩ := List.append_inj (List.append_cancel_left h) (by rw [length_ofBytes32, length_ofBytes32])
  exact Prod.ext (ofBytes32_inj.mp hl) (ofBytes32_inj.mp hr)

theorem merkleNode_inj {ps : List (Bytes32 × Bytes32)} (h : NoNodeCollision prim ps) {a b a' b' : Bytes32}
    (hp : (a, b) ∈ ps) (hq : (a', b') ∈ ps) (heq : merkleNode prim a b = merkleNode prim a' b') :
    a = a' ∧ b = b' :=
  Prod.mk.inj (nodeInput_inj (h ⟨(a, b), hp, rfl⟩ ⟨(a', b'), hq, rfl⟩ heq))

theorem verifyMerkleProof_eq (leaf : Bytes32) (proof : List Bytes32) (index : ℕ) (root : Bytes32) :
    verifyMerkleProof prim leaf proof index root = true ↔ walk (merkleNode prim) index leaf proof = root := by
  unfold verifyMerkleProof
  rw [decide_eq_true_iff]
  induction proof generalizing leaf index with
  | nil => rfl
  | cons sibling proof ih =>
    rw [List.foldl_cons, walk, ← ih]
    unfold merkleNode
    by_cases h : index % 2 = 0
    · simp only [if_pos h, List.append_assoc]
    · simp only [if_neg h, List.append_assoc]

/-- **Merkle proofs.** The sibling path of every leaf verifies. A proof with as many siblings as the tree has
layers verifies for the leaf for which the index stands, which is the leaf at the index unless the list is
shorter, and only as its sibling path. -/
theorem merkle_proof_iff (prim : Primitives) (leaves : List Bytes32) (hne : leaves ≠ []) :
    (∀ i leaf, leaves[i]? = some leaf →
      verifyMerkleProof prim leaf (siblings (merkleNode prim) leaves i) i (merkleRoot prim leaves) = true) ∧
    ∀ leaf proof i, proof.length = Nat.clog 2 leaves.length →
      NoNodeCollision prim (joins (merkleNode prim) leaves ++ walked (merkleNode prim) i leaf proof) →
      (verifyMerkleProof prim leaf proof i (merkleRoot prim leaves) = true ↔
        leaves[place (Nat.clog 2 leaves.length) leaves.length i]? = some leaf ∧
          proof = siblings (merkleNode prim) leaves (place (Nat.clog 2 leaves.length) leaves.length i)) ∧
      (i < leaves.length → place (Nat.clog 2 leaves.length) leaves.length i = i) := by
  refine ⟨fun i leaf hleaf => ?_, fun leaf proof i hlen hcol => ⟨?_, fun hi => ?_⟩⟩
  · rw [verifyMerkleProof_eq]
    exact (walk_siblings hleaf).1
  · rw [verifyMerkleProof_eq]
    exact walk_eq_root_iff
      (S := fun a b => (a, b) ∈ joins (merkleNode prim) leaves ++ walked (merkleNode prim) i leaf proof)
      (fun hp hq => merkleNode_inj hcol hp hq) hne hlen (fun p hp => List.mem_append_left _ hp)
      fun p hp => List.mem_append_right _ hp
  · exact place_eq_self (Nat.le_pow_clog Nat.one_lt_two _) hi

end

/-! ## Batch commitments -/

section Commitments
variable (prim : Primitives) (serialize : Transaction → Bytes)

/-- What the leaves under a batch commitment are hashes of. -/
def leafInputs (batch : List Transaction) (parentHash : Bytes32) (height : ℕ) : List Bytes :=
  batch.map serialize ++ [ofBytes32 parentHash ++ leBytes 8 height]

/-- The leaves under a batch commitment. -/
def commitmentLeaves (batch : List Transaction) (parentHash : Bytes32) (height : ℕ) : List Bytes32 :=
  sortByKey id (batch.map (batchTxHash prim serialize)) ++
    [prim.blake3 (ofBytes32 parentHash ++ leBytes 8 height)]

/-- The hash functions have no collision among the inputs of two commitments, and no value in common there. -/
structure Collisionless (inputs : List Bytes) (joined : List (Bytes32 × Bytes32)) : Prop where
  leaves : Set.InjOn prim.blake3 {x | x ∈ inputs}
  nodes : NoNodeCollision prim joined
  apart : ∀ x ∈ inputs, ∀ p ∈ joined, prim.sha256 (nodeInput p) ≠ prim.blake3 x

/-- The serialisation loses nothing, and writes the two arrays of 32 bytes of a transaction as they are. -/
structure Serializes (txs : List Transaction) : Prop where
  inj : ∀ a ∈ txs, ∀ b ∈ txs, serialize a = serialize b → a = b
  long : ∀ a ∈ txs, 64 ≤ (serialize a).length

variable {prim serialize} {inputs : List Bytes} {joined : List (Bytes32 × Bytes32)}
variable {batch : List Transaction} {parentHash : Bytes32} {height : ℕ}

theorem mem_commitmentLeaves {x : Bytes32} : x ∈ commitmentLeaves prim serialize batch parentHash height ↔
    ∃ bs ∈ leafInputs serialize batch parentHash height, prim.blake3 bs = x := by
  unfold commitmentLeaves leafInputs batchTxHash
  simp only [List.mem_append, mem_sortByKey, List.mem_map, List.mem_singleton]
  constructor
  · rintro (⟨tx, htx, rfl⟩ | rfl)
    · exact ⟨_, .inl ⟨tx, htx, rfl⟩, rfl⟩
    · exact ⟨_, .inr rfl, rfl⟩
  · rintro ⟨bs, ⟨tx, htx, rfl⟩ | rfl, rfl⟩
    · exact .inl ⟨tx, htx, rfl⟩
    · exact .inr rfl

theorem Collisionless.tells (h : Collisionless prim inputs joined) :
    Tells (merkleNode prim) (fun x => ∃ bs ∈ inputs, prim.blake3 bs = x) fun a b => (a, b) ∈ joined where
  inj hp hq heq := merkleNode_inj h.nodes hp hq heq
  apart := by
    rintro a b x hp ⟨bs, hbs, rfl⟩
    exact h.apart bs hbs (a, b) hp

/-- **The last leaf** is the hash of no transaction: those are longer. -/
theorem capped_commitmentLeaves (h : Collisionless prim inputs joined)
    (hw : ∀ tx ∈ batch, 64 ≤ (serialize tx).length)
    (hin : ∀ bs ∈ leafInputs serialize batch parentHash height, bs ∈ inputs) :
    Capped (prim.blake3 (ofBytes32 parentHash ++ leBytes 8 height))
      (commitmentLeaves prim serialize batch parentHash height) := by
  refine capped_concat fun hmem => ?_
  rw [mem_sortByKey, List.mem_map] at hmem
  obtain ⟨tx, htx, heq⟩ := hmem
  have hbytes : serialize tx = ofBytes32 parentHash ++ leBytes 8 height :=
    h.leaves (hin _ (List.mem_append_left _ (List.mem_map.mpr ⟨tx, htx, rfl⟩)))
      (hin _ (List.mem_append_right _ (List.mem_singleton_self _))) heq
  have hlen := hw tx htx
  rw [hbytes, List.length_append, length_ofBytes32, length_leBytes] at hlen
  omega

theorem perm_of_map {α β : Type*} {f : α → β} {l l' : List α}
    (hinj : ∀ a ∈ l ++ l', ∀ b ∈ l ++ l', f a = f b → a = b)
    (h : (l.map f).Perm (l'.map f)) : l.Perm l' := by
  induction l generalizing l' with
  | nil =>
    rw [List.map_nil, List.nil_perm, List.map_eq_nil_iff] at h
    rw [h]
  | cons a l ih =>
    obtain ⟨b, hb, heq⟩ := List.mem_map.mp (h.subset List.mem_cons_self)
    obtain rfl := hinj b (List.mem_append_right _ hb) a List.mem_cons_self heq
    obtain ⟨s, t, rfl⟩ := List.append_of_mem hb
    have hmid : (s ++ b :: t).Perm (b :: (s ++ t)) := List.perm_middle
    have hrest : (l.map f).Perm ((s ++ t).map f) := (h.trans (hmid.map f)).cons_inv
    refine ((ih (fun x hx y hy => hinj x ?_ y ?_) hrest).cons b).trans hmid.symm
    all_goals
      simp only [List.mem_append, List.mem_cons] at hx hy ⊢
      tauto

/-- **What a batch commitment commits to**: parent, height and the multiset of the transactions. -/
theorem batch_commitment_eq_iff {b₁ b₂ : List Transaction} {p₁ p₂ : Bytes32} {h₁ h₂ : ℕ}
    (hcol : Collisionless prim (leafInputs serialize b₁ p₁ h₁ ++ leafInputs serialize b₂ p₂ h₂)
      (joins (merkleNode prim) (commitmentLeaves prim serialize b₁ p₁ h₁) ++
        joins (merkleNode prim) (commitmentLeaves prim serialize b₂ p₂ h₂)))
    (hw : Serializes serialize (b₁ ++ b₂)) (hh₁ : h₁ < 2 ^ 64) (hh₂ : h₂ < 2 ^ 64) :
    computeBatchCommitment prim serialize b₁ p₁ h₁ = computeBatchCommitment prim serialize b₂ p₂ h₂ ↔
      p₁ = p₂ ∧ h₁ = h₂ ∧ b₁.Perm b₂ := by
  constructor
  · intro h
    have hroot : root (merkleNode prim) (prim.sha256 []) (commitmentLeaves prim serialize b₁ p₁ h₁) =
        root (merkleNode prim) (prim.sha256 []) (commitmentLeaves prim serialize b₂ p₂ h₂) := h
    have hleaves : commitmentLeaves prim serialize b₁ p₁ h₁ = commitmentLeaves prim serialize b₂ p₂ h₂ := by
      refine root_inj hcol.tells (fun x hx => .leaf ?_) (fun x hx => .leaf ?_)
        (capped_commitmentLeaves hcol (fun tx htx => hw.long tx (List.mem_append_left _ htx))
          fun bs hbs => List.mem_append_left _ hbs)
        (capped_commitmentLeaves hcol (fun tx htx => hw.long tx (List.mem_append_right _ htx))
          fun bs hbs => List.mem_append_right _ hbs)
        (fun p hp => List.mem_append_left _ hp) (fun p hp => List.mem_append_right _ hp) hroot
      · obtain ⟨bs, hbs, rfl⟩ := mem_commitmentLeaves.mp hx
        exact ⟨bs, List.mem_append_left _ hbs, rfl⟩
      · obtain ⟨bs, hbs, rfl⟩ := mem_commitmentLeaves.mp hx
        exact ⟨bs, List.mem_append_right _ hbs, rfl⟩
    obtain ⟨hsorted, hlast⟩ := List.append_inj' hleaves rfl
    have hctx := hcol.leaves
      (List.mem_append_left _ (List.mem_append_right _ (List.mem_singleton_self _)))
      (List.mem_append_right _ (List.mem_append_right _ (List.mem_singleton_self _))) (List.cons.inj hlast).1
    obtain ⟨hparent, hheight⟩ := List.append_inj hctx (by rw [length_ofBytes32, length_ofBytes32])
    refine ⟨ofBytes32_inj.mp hparent, (leBytes_inj hh₁ hh₂).mp hheight, ?_⟩
    have hhashes : (b₁.map (batchTxHash prim serialize)).Perm (b₂.map (batchTxHash prim serialize)) :=
      (sortByKey_perm id _).symm.trans (hsorted ▸ sortByKey_perm id _)
    have hinput : ∀ tx ∈ b₁ ++ b₂, serialize tx ∈ leafInputs serialize b₁ p₁ h₁ ++
        leafInputs serialize b₂ p₂ h₂ :=
      fun tx htx => (List.mem_append.mp htx).elim
        (fun hin => List.mem_append_left _ (List.mem_append_left _ (List.mem_map.mpr ⟨tx, hin, rfl⟩)))
        fun hin => List.mem_append_right _ (List.mem_append_left _ (List.mem_map.mpr ⟨tx, hin, rfl⟩))
    exact perm_of_map
      (fun a ha b hb heq => hw.inj a ha b hb (hcol.leaves (hinput a ha) (hinput b hb) heq)) hhashes
  · rintro ⟨rfl, rfl, hperm⟩
    exact computeBatchCommitment_perm hperm p₁ h₁

end Commitments

/-! ## The batch of two transactions -/

theorem pair_serializes : Serializes txBytes (inOrder ++ outOfOrder) := by
  have htwo : ∀ tx ∈ inOrder ++ outOfOrder, tx = sampleTransfer ∨ tx = sampleDeposit := by
    intro tx htx
    simp only [inOrder, outOfOrder, List.mem_append, List.mem_cons, List.not_mem_nil, or_false] at htx
    tauto
  have hne : txBytes sampleTransfer ≠ txBytes sampleDeposit := by decide +kernel
  have hlen : 64 ≤ (txBytes sampleTransfer).length ∧ 64 ≤ (txBytes sampleDeposit).length := by decide +kernel
  refine ⟨fun a ha b hb h => ?_, fun a ha => ?_⟩
  · rcases htwo a ha with rfl | rfl <;> rcases htwo b hb with rfl | rfl
    · rfl
    · exact absurd h hne
    · exact absurd h.symm hne
    · rfl
  · rcases htwo a ha with rfl | rfl
    · exact hlen.1
    · exact hlen.2

/-- What is hashed under the commitments to the two orders of the batch. -/
def pairInputs : List Bytes := leafInputs txBytes inOrder 0 1 ++ leafInputs txBytes outOfOrder 0 1

def pairJoins : List (Bytes32 × Bytes32) :=
  joins (merkleNode solePrim) (commitmentLeaves solePrim txBytes inOrder 0 1) ++
    joins (merkleNode solePrim) (commitmentLeaves solePrim txBytes outOfOrder 0 1)

theorem pair_collisionless : Collisionless solePrim pairInputs pairJoins where
  leaves := by
    have h : ∀ x ∈ pairInputs, ∀ y ∈ pairInputs, solePrim.blake3 x = solePrim.blake3 y →
        x = y := by decide +kernel
    exact fun x hx y hy => h x hx y hy
  nodes := noNodeCollision_of_all (by decide +kernel)
  apart x hx p hp := by
    have h : (pairInputs.all fun x => pairJoins.all fun p =>
        decide (solePrim.sha256 (nodeInput p) ≠ solePrim.blake3 x)) = true := by decide +kernel
    exact of_decide_eq_true (List.all_eq_true.mp (List.all_eq_true.mp h x hx) p hp)

theorem pair_commitments_agree : computeBatchCommitment solePrim txBytes inOrder 0 1 =
    computeBatchCommitment solePrim txBytes outOfOrder 0 1 :=
  (batch_commitment_eq_iff pair_collisionless pair_serializes (by decide) (by decide)).mpr
    ⟨rfl, rfl, inOrder_perm⟩

/-! ## The tree over three leaves -/

/-- Hash functions that no two of the inputs below collide under. -/
def markPrim : Primitives where
  blake3 bs := BitVec.ofNat 256 (2 * (beNat bs % (2 ^ 127 - 1)))
  sha256 bs := BitVec.ofNat 256 (2 * (beNat bs % (2 ^ 127 - 1)) + 1)
  verify _ _ _ _ := true

def threeLeaves : List Bytes32 := [2, 4, 6]

def threeJoins : List (Bytes32 × Bytes32) :=
  joins (merkleNode markPrim) threeLeaves ++
    walked (merkleNode markPrim) 1 4 (siblings (merkleNode markPrim) threeLeaves 1)

theorem threeLeaves_verifies :
    verifyMerkleProof markPrim 4 (siblings (merkleNode markPrim) threeLeaves 1) 1
      (merkleRoot markPrim threeLeaves) =
        true ∧
      threeLeaves[place (Nat.clog 2 threeLeaves.length) threeLeaves.length 1]? = some 4 := by
  obtain ⟨hcomplete, hsound⟩ := merkle_proof_iff markPrim threeLeaves (List.cons_ne_nil _ _)
  have hverifies := hcomplete 1 4 rfl
  have hcol : NoNodeCollision markPrim threeJoins := noNodeCollision_of_all (by decide +kernel)
  obtain ⟨hiff, -⟩ := hsound 4 (siblings (merkleNode markPrim) threeLeaves 1) 1 (length_siblings rfl) hcol
  exact ⟨hverifies, (hiff.mp hverifies).1⟩

/-- The last leaf verifies at an index beyond the list, and the root itself as the first leaf. -/
theorem verifier_misses_length :
    (NoNodeCollision markPrim (joins (merkleNode markPrim) threeLeaves ++
        walked (merkleNode markPrim) 3 6 (siblings (merkleNode markPrim) threeLeaves 2)) ∧
      verifyMerkleProof markPrim 6 (siblings (merkleNode markPrim) threeLeaves 2) 3
        (merkleRoot markPrim threeLeaves) = true ∧ ¬ 3 < threeLeaves.length) ∧
    (NoNodeCollision markPrim (joins (merkleNode markPrim) threeLeaves ++
        walked (merkleNode markPrim) 0 (merkleRoot markPrim threeLeaves) []) ∧
      verifyMerkleProof markPrim (merkleRoot markPrim threeLeaves) [] 0 (merkleRoot markPrim threeLeaves) = true ∧
      threeLeaves[0]? ≠ some (merkleRoot markPrim threeLeaves)) :=
  ⟨⟨noNodeCollision_of_all (by decide +kernel), by decide +kernel, by decide⟩,
    noNodeCollision_of_all (by decide +kernel), by decide +kernel, by decide +kernel⟩

end TruthLinked.Consensus.BatchCommitment
