import TruthLinked.Core.Bytes
import TruthLinked.Lib.Except
import TruthLinked.Zk.Transfer

/-! # What a commitment binds

`compute_commitment` and `verify_commitment` of `truthlinked-mcp/src/private_balance.rs`, and the byte form of
a digest. Balance, nonce and the hash of the ciphertext go into the permutation as six words, each as its
residue: the openings that collide (`Collide`) have one commitment, and no others have (`binds_iff`). -/

namespace TruthLinked.Zk.Commitment

open Core.Types Core.Bytes Lib.Goldilocks Lib.Except Zk.Transfer

/-! ## The functions -/

/-- `digest_to_bytes`. -/
def digestToBytes (d : Digest) : Bytes32 := toBytes32 ((List.finRange 4).flatMap fun i => leBytes 8 (d i).val)

/-- `u64::from_le_bytes` of the bytes from `i * 8` to `(i + 1) * 8`. -/
def wordOf (b : Bytes32) (i : Fin 4) : ℕ := leNat (slice (ofBytes32 b) (i * 8) ((i + 1) * 8))

/-- `bytes_to_digest`. -/
def bytesToDigest (b : Bytes32) : Digest := fun i => (wordOf b i : Felt)

/-- The first 16 bytes of the hash of a ciphertext. -/
def ctHashLo16 (blake3 : Bytes → Bytes32) (ciphertext : Bytes) : Bytes16 :=
  ⟨(ofBytes32 (blake3 ciphertext)).take 16, by rw [List.length_take, length_ofBytes32]; rfl⟩

/-- `compute_commitment`. -/
def computeCommitment (c : Rescue) (blake3 : Bytes → Bytes32) (balance nonce : BitVec 128) (ciphertext : Bytes) :
    Bytes32 :=
  digestToBytes (rescueCommit c balance nonce (ctHashLo16 blake3 ciphertext))

/-- `verify_commitment`. -/
def verifyCommitment (c : Rescue) (blake3 : Bytes → Bytes32) (commitment : Bytes32) (balance nonce : BitVec 128)
    (ciphertext : Bytes) : Except String Unit :=
  failIf (computeCommitment c blake3 balance nonce ciphertext ≠ commitment)
    "Commitment mismatch: balance, nonce, or ciphertext does not match"

theorem verifyCommitment_eq_ok {c : Rescue} {blake3 : Bytes → Bytes32} {commitment : Bytes32}
    {balance nonce : BitVec 128} {ciphertext : Bytes} :
    verifyCommitment c blake3 commitment balance nonce ciphertext = .ok () ↔
      computeCommitment c blake3 balance nonce ciphertext = commitment := by
  unfold verifyCommitment
  rw [failIf_eq_ok, not_not]

/-! ## Chunks -/

theorem leNat_inj {a b : Bytes} (hlen : a.length = b.length) (h : leNat a = leNat b) : a = b := by
  rw [← leBytes_leNat a, ← leBytes_leNat b, hlen, h]

/-- The chunks of a byte string that is put together from chunks. -/
theorem slice_flatMap {w n : ℕ} {g : Fin n → Bytes} (hg : ∀ i, (g i).length = w) (i : Fin n) :
    slice ((List.finRange n).flatMap g) (i * w) ((i + 1) * w) = g i := by
  unfold slice
  rw [Nat.succ_mul, Nat.add_sub_cancel_left]
  induction n with
  | zero => exact i.elim0
  | succ n ih =>
    rw [List.finRange_succ, List.flatMap_cons, List.flatMap_map]
    cases i using Fin.cases with
    | zero => rw [Fin.val_zero, Nat.zero_mul, List.drop_zero, List.take_left' (hg 0)]
    | succ i =>
      have hskip : (i.succ : ℕ) * w = (g 0).length + i * w := by rw [Fin.val_succ, Nat.succ_mul, hg 0, add_comm]
      rw [hskip, List.drop_append, List.drop_of_length_le (Nat.le_add_right _ _), List.nil_append,
        Nat.add_sub_cancel_left]
      exact ih (fun j => hg j.succ) i

theorem flatMap_slice {w n : ℕ} {bs : Bytes} (h : bs.length = n * w) :
    ((List.finRange n).flatMap fun i : Fin n => slice bs (i * w) ((i + 1) * w)) = bs := by
  unfold slice
  simp only [Nat.succ_mul, Nat.add_sub_cancel_left]
  induction n generalizing bs with
  | zero =>
    rw [Nat.zero_mul] at h
    rw [List.eq_nil_of_length_eq_zero h]
    rfl
  | succ n ih =>
    have htail : (bs.drop w).length = n * w := by
      rw [List.length_drop, h, Nat.succ_mul, Nat.add_sub_cancel]
    have hrest := ih htail
    simp only [List.drop_drop] at hrest
    rw [List.finRange_succ, List.flatMap_cons, List.flatMap_map]
    simp only [Fin.val_zero, Nat.zero_mul, List.drop_zero, Fin.val_succ, Nat.succ_mul]
    simp only [Nat.add_comm _ w, hrest, List.take_append_drop]

/-! ## Digests as bytes -/

theorem wordOf_lt (b : Bytes32) (i : Fin 4) : wordOf b i < 2 ^ 64 := by
  have hlen : (slice (ofBytes32 b) (i * 8) ((i + 1) * 8)).length ≤ 8 := by
    unfold slice
    rw [List.length_take]
    omega
  exact (leNat_lt _).trans_le (Nat.pow_le_pow_right (by decide) hlen)

theorem toBytes32_words (b : Bytes32) :
    toBytes32 ((List.finRange 4).flatMap fun i => leBytes 8 (wordOf b i)) = b := by
  have hword : ∀ i : Fin 4, leBytes 8 (wordOf b i) = slice (ofBytes32 b) (i * 8) ((i + 1) * 8) := by
    intro i
    have hlen : (slice (ofBytes32 b) (i * 8) ((i + 1) * 8)).length = 8 := by
      unfold slice
      rw [List.length_take, List.length_drop, length_ofBytes32]
      omega
    have hback := leBytes_leNat (slice (ofBytes32 b) (i * 8) ((i + 1) * 8))
    rwa [hlen] at hback
  simp only [hword]
  rw [flatMap_slice (by rw [length_ofBytes32]), toBytes32_ofBytes32]

theorem wordOf_injective : Function.Injective wordOf := fun a b h => by
  rw [← toBytes32_words a, ← toBytes32_words b, h]

theorem wordOf_digestToBytes (d : Digest) (i : Fin 4) : wordOf (digestToBytes d) i = (d i).val := by
  have hlen : ((List.finRange 4).flatMap fun i => leBytes 8 (d i).val).length = 32 := by
    rw [List.length_flatMap]
    simp only [length_leBytes]
    rfl
  unfold wordOf digestToBytes
  rw [ofBytes32_toBytes32 hlen, @slice_flatMap 8 4 (fun i => leBytes 8 (d i).val) (fun _ => length_leBytes _ _),
    leNat_leBytes ((val_lt _).trans (by decide))]

theorem digestToBytes_injective : Function.Injective digestToBytes := fun a b h => by
  funext i
  have hword : wordOf (digestToBytes a) i = wordOf (digestToBytes b) i := by rw [h]
  rw [wordOf_digestToBytes, wordOf_digestToBytes] at hword
  exact ZMod.val_injective modulus hword

/-- **Which 32-byte arrays come back from a digest**: those with all words below the modulus. -/
theorem digestToBytes_bytesToDigest_iff (b : Bytes32) :
    digestToBytes (bytesToDigest b) = b ↔ ∀ i, wordOf b i < modulus := by
  rw [← wordOf_injective.eq_iff, funext_iff]
  refine forall_congr' fun i => ?_
  rw [wordOf_digestToBytes]
  exact val_cast_eq_iff

/-! ## Collisions -/

/-- Different words with the same residues. -/
def Collide {n : ℕ} (x y : Fin n → ℕ) : Prop := x ≠ y ∧ ∀ i, Meet (x i) (y i)

theorem casts_eq_iff {n : ℕ} {x y : Fin n → ℕ} (hx : ∀ i, x i < 2 ^ 64) (hy : ∀ i, y i < 2 ^ 64) :
    (fun i => (x i : Felt)) = (fun i => (y i : Felt)) ↔ ∀ i, Meet (x i) (y i) := by
  rw [funext_iff]
  exact forall_congr' fun i => cast_eq_iff (hx i) (hy i)

/-- **Which 32-byte arrays have a digest in common.** -/
theorem bytesToDigest_injective_iff (a b : Bytes32) :
    (bytesToDigest a = bytesToDigest b → a = b) ↔ ¬ Collide (wordOf a) (wordOf b) := by
  unfold bytesToDigest Collide
  rw [casts_eq_iff (wordOf_lt a) (wordOf_lt b), not_and', ne_eq, not_not, wordOf_injective.eq_iff]

/-! ## Openings -/

/-- What a commitment is made of. -/
structure Opening where
  balance : BitVec 128
  nonce : BitVec 128
  ciphertext : Bytes

section Openings
variable (c : Rescue) (blake3 : Bytes → Bytes32)

/-- The words of an opening, as `u128_to_felts` and `bytes16_to_felts` cut them. -/
def Opening.words (o : Opening) : Fin 6 → ℕ :=
  ![o.balance.toNat % 2 ^ 64, o.balance.toNat / 2 ^ 64, o.nonce.toNat % 2 ^ 64, o.nonce.toNat / 2 ^ 64,
    leNat ((ctHashLo16 blake3 o.ciphertext).1.take 8), leNat ((ctHashLo16 blake3 o.ciphertext).1.drop 8)]

/-- The state in which its hash starts. -/
def Opening.input (o : Opening) : HashState := buildRescueInput o.balance o.nonce (ctHashLo16 blake3 o.ciphertext)

/-- The opening verifies against the commitment. -/
def Opening.Opens (commitment : Bytes32) (o : Opening) : Prop :=
  verifyCommitment c blake3 commitment o.balance o.nonce o.ciphertext = .ok ()

/-- No commitment is opened by both, unless they are one. -/
def Binds (o o' : Opening) : Prop :=
  ∀ commitment, o.Opens c blake3 commitment → o'.Opens c blake3 commitment → o = o'

/-- The digest of an input state. -/
def digestOfInput (s : HashState) : Digest := digestOf (applyPermutation c s)

theorem Opening.words_lt (o : Opening) (i : Fin 6) : o.words blake3 i < 2 ^ 64 := by
  have hhash : (ctHashLo16 blake3 o.ciphertext).1.length = 16 := (ctHashLo16 blake3 o.ciphertext).2
  have hbalance := o.balance.isLt
  have hnonce := o.nonce.isLt
  have hlo := leNat_lt ((ctHashLo16 blake3 o.ciphertext).1.take 8)
  have hhi := leNat_lt ((ctHashLo16 blake3 o.ciphertext).1.drop 8)
  rw [List.length_take, hhash] at hlo
  rw [List.length_drop, hhash] at hhi
  unfold Opening.words
  fin_cases i
  · show o.balance.toNat % 2 ^ 64 < 2 ^ 64
    omega
  · show o.balance.toNat / 2 ^ 64 < 2 ^ 64
    omega
  · show o.nonce.toNat % 2 ^ 64 < 2 ^ 64
    omega
  · show o.nonce.toNat / 2 ^ 64 < 2 ^ 64
    omega
  · exact hlo
  · exact hhi

theorem Opening.input_eq (o : Opening) :
    o.input blake3 = ![6, 0, 0, 0, (o.words blake3 0 : Felt), (o.words blake3 1 : Felt),
      (o.words blake3 2 : Felt),
      (o.words blake3 3 : Felt), (o.words blake3 4 : Felt), (o.words blake3 5 : Felt), 0, 0] := rfl

theorem input_eq_iff (o o' : Opening) :
    o.input blake3 = o'.input blake3 ↔ ∀ i, Meet (o.words blake3 i) (o'.words blake3 i) := by
  rw [← casts_eq_iff (o.words_lt blake3) (o'.words_lt blake3)]
  constructor
  · intro h
    funext i
    have hcell : ∀ j, o.input blake3 j = o'.input blake3 j := congrFun h
    fin_cases i
    exacts [hcell 4, hcell 5, hcell 6, hcell 7, hcell 8, hcell 9]
  · intro h
    have hword : ∀ i, (o.words blake3 i : Felt) = (o'.words blake3 i : Felt) := congrFun h
    rw [o.input_eq, o'.input_eq, hword 0, hword 1, hword 2, hword 3, hword 4, hword 5]

theorem words_eq_iff (o o' : Opening) :
    o.words blake3 = o'.words blake3 ↔ o.balance = o'.balance ∧ o.nonce = o'.nonce ∧
      ctHashLo16 blake3 o.ciphertext = ctHashLo16 blake3 o'.ciphertext := by
  constructor
  · intro h
    have hword : ∀ i, o.words blake3 i = o'.words blake3 i := congrFun h
    have h0 : o.balance.toNat % 2 ^ 64 = o'.balance.toNat % 2 ^ 64 := hword 0
    have h1 : o.balance.toNat / 2 ^ 64 = o'.balance.toNat / 2 ^ 64 := hword 1
    have h2 : o.nonce.toNat % 2 ^ 64 = o'.nonce.toNat % 2 ^ 64 := hword 2
    have h3 : o.nonce.toNat / 2 ^ 64 = o'.nonce.toNat / 2 ^ 64 := hword 3
    have hlen : ∀ b : Bytes16, b.1.length = 16 := fun b => b.2
    have hlo := leNat_inj (by rw [List.length_take, List.length_take, hlen, hlen]) (hword 4)
    have hhi := leNat_inj (by rw [List.length_drop, List.length_drop, hlen, hlen]) (hword 5)
    refine ⟨BitVec.eq_of_toNat_eq (by omega), BitVec.eq_of_toNat_eq (by omega), Subtype.ext ?_⟩
    rw [← List.take_append_drop 8 (ctHashLo16 blake3 o.ciphertext).1, hlo, hhi, List.take_append_drop]
  · rintro ⟨hbalance, hnonce, hhash⟩
    unfold Opening.words
    rw [hbalance, hnonce, hhash]

/-- **Which openings a commitment tells apart**: all but those that collide. -/
theorem binds_iff {O : Set Opening} (hdigest : Set.InjOn (digestOfInput c) (Opening.input blake3 '' O))
    (hhash : Set.InjOn (ctHashLo16 blake3) (Opening.ciphertext '' O)) {o o' : Opening}
    (ho : o ∈ O) (ho' : o' ∈ O) :
    Binds c blake3 o o' ↔ ¬ Collide (o.words blake3) (o'.words blake3) := by
  have hsame : o = o' ↔ o.words blake3 = o'.words blake3 := by
    rw [words_eq_iff]
    constructor
    · rintro rfl
      exact ⟨rfl, rfl, rfl⟩
    · rintro ⟨hbalance, hnonce, hct⟩
      have hciphertext := hhash ⟨o, ho, rfl⟩ ⟨o', ho', rfl⟩ hct
      cases o
      cases o'
      subst hbalance hnonce hciphertext
      rfl
  have hopens : (∃ commitment, o.Opens c blake3 commitment ∧ o'.Opens c blake3 commitment) ↔
      ∀ i, Meet (o.words blake3 i) (o'.words blake3 i) := by
    rw [← input_eq_iff]
    constructor
    · rintro ⟨commitment, hopen, hopen'⟩
      refine hdigest ⟨o, ho, rfl⟩ ⟨o', ho', rfl⟩ (digestToBytes_injective ?_)
      exact (verifyCommitment_eq_ok.mp hopen).trans (verifyCommitment_eq_ok.mp hopen').symm
    · intro h
      refine ⟨digestToBytes (digestOfInput c (o.input blake3)), verifyCommitment_eq_ok.mpr rfl,
        verifyCommitment_eq_ok.mpr ?_⟩
      rw [h]
      rfl
  unfold Binds Collide
  rw [← hopens, hsame]
  constructor
  · rintro h ⟨hne, commitment, hopen, hopen'⟩
    exact hne (h commitment hopen hopen')
  · intro h commitment hopen hopen'
    by_contra hne
    exact h ⟨hne, commitment, hopen, hopen'⟩

end Openings

end TruthLinked.Zk.Commitment
