import TruthLinked.Consensus.RootBinding
import TruthLinked.Consensus.Validation

/-! # Evidence of double signing

`verify_double_sign_evidence` of `truthlinked-staking/src/lib.rs` and the evidence that
`detect_and_slash_equivocation` collects from the two sides of a fork. The staking crate rebuilds the
signed bytes from height and batch hash alone, while validators sign round and state root too and leaders
sign the bare batch hash under a context of their own. With an ideal signature scheme no evidence of what
a validator signs is ever accepted (`evidence_refused`). -/

namespace TruthLinked.Consensus.DoubleSign

open Core.Types Consensus.Types
open Core.Bytes (length_leBytes length_ofBytes32)
open Consensus.Validation (batchSignContext)

/-! ## The code -/

/-- `DoubleSignEvidence`. -/
structure DoubleSignEvidence where
  validatorPubkey : Bytes
  height : ℕ
  batchHash1 : Bytes32
  batchHash2 : Bytes32
  signature1 : Bytes
  signature2 : Bytes
  deriving DecidableEq

/-- `StakingState::attestation_message`. -/
def stakingAttestationMessage (height : ℕ) (batchHash : Bytes32) : Bytes :=
  leBytes 8 height ++ ofBytes32 batchHash

/-- `StakingState::verify_double_sign_evidence`; `isKey` is the decoding of a public key. -/
def verifyDoubleSignEvidence (prim : Primitives) (isKey : Bytes → Bool) (ev : DoubleSignEvidence) :
    Except String Unit := do
  if ev.batchHash1 = ev.batchHash2 then throw "Evidence must show two different batches"
  let msg1 := stakingAttestationMessage ev.height ev.batchHash1
  let msg2 := stakingAttestationMessage ev.height ev.batchHash2
  if ev.validatorPubkey.length ≠ 1952 then throw "Invalid pubkey length"
  if isKey ev.validatorPubkey = false then throw "Invalid pubkey"
  if ev.signature1.length ≠ 3309 then throw "Invalid signature 1 length"
  if ev.signature2.length ≠ 3309 then throw "Invalid signature 2 length"
  if prim.verify ev.validatorPubkey msg1 ev.signature1 attestationContext = false then
    throw "Signature 1 verification failed"
  if prim.verify ev.validatorPubkey msg2 ev.signature2 attestationContext = false then
    throw "Signature 2 verification failed"

/-- The blocks of one side of a fork by height, each with its batch hash. -/
def blocksByHeight (chain : List BatchHeader) : Map ℕ (Bytes32 × BatchHeader) :=
  chain.foldl (fun blocks header => blocks.insert header.height (header.batchHash, header)) ∅

/-- The evidence for one height of the two sides, when one leader signed both. -/
def evidenceAt (height : ℕ) (old new : Bytes32 × BatchHeader) : Option DoubleSignEvidence :=
  if old.1 ≠ new.1 then
    if old.2.leaderPubkey = new.2.leaderPubkey ∧ old.2.leaderPubkey ≠ [] then
      some
        { height
          batchHash1 := old.1
          batchHash2 := new.1
          signature1 := old.2.leaderSignature
          signature2 := new.2.leaderSignature
          validatorPubkey := old.2.leaderPubkey }
    else none
  else none

/-- The same evidence from two attestations of one validator. -/
def attestationEvidence (a b : Attestation) : DoubleSignEvidence :=
  { height := a.height
    batchHash1 := a.batchHash
    batchHash2 := b.batchHash
    signature1 := a.signature
    signature2 := b.signature
    validatorPubkey := a.validatorPubkey }

/-! ## Ideal signatures -/

/-- Signatures are ideal: `made pk message context s` says that the owner of `pk` made `s` for just this
message and context, and a signature passes iff it was made so. -/
structure Ideal (prim : Primitives) (isKey : Bytes → Bool)
    (made : (pk message context signature : Bytes) → Prop) : Prop where
  verify_iff : ∀ pk m s ctx, prim.verify pk m s ctx = true ↔ made pk m ctx s
  exactly : ∀ {pk m m' ctx ctx' s}, made pk m ctx s → made pk m' ctx' s → m = m' ∧ ctx = ctx'
  key_length : ∀ {pk}, isKey pk = true → pk.length = 1952
  signature_length : ∀ {pk m ctx s}, made pk m ctx s → s.length = 3309

/-- `send_attestation` made the attestation with the key `pk`. -/
structure AttestedBy (made : (pk message context signature : Bytes) → Prop) (pk : Bytes)
    (att : Attestation) : Prop where
  key : att.validatorPubkey = pk
  signed : made pk (attestationMessage att.height att.round att.batchHash att.stateRoot)
    attestationContext att.signature

/-- The header carries the signature of `sign_batch` with the key `pk`. -/
structure LedBy (made : (pk message context signature : Bytes) → Prop) (pk : Bytes)
    (header : BatchHeader) : Prop where
  key : header.leaderPubkey = pk
  signed : made pk (ofBytes32 header.batchHash) batchSignContext header.leaderSignature

theorem stakingAttestationMessage_ne (height height' round : ℕ) (hash hash' root : Bytes32) :
    attestationMessage height' round hash' root ≠ stakingAttestationMessage height hash := by
  intro h
  have hlen := congrArg List.length h
  simp only [attestationMessage, stakingAttestationMessage, List.length_append, length_leBytes,
    length_ofBytes32] at hlen
  omega

theorem batchSignContext_ne : batchSignContext ≠ attestationContext := by decide +kernel

section Refused
variable {prim : Primitives} {isKey : Bytes → Bool}
  {made : (pk message context signature : Bytes) → Prop}

theorem Ideal.verify_eq_false (ideal : Ideal prim isKey made) {pk m m' ctx ctx' s : Bytes}
    (hmade : made pk m ctx s) (hne : m ≠ m' ∨ ctx ≠ ctx') : prim.verify pk m' s ctx' = false := by
  rw [Bool.eq_false_iff]
  intro hv
  have heq := ideal.exactly hmade ((ideal.verify_iff _ _ _ _).mp hv)
  rcases hne with h | h
  · exact h heq.1
  · exact h heq.2

theorem verify_evidence_eq_error (ideal : Ideal prim isKey made) {ev : DoubleSignEvidence}
    {m ctx m' ctx' : Bytes} (hkey : isKey ev.validatorPubkey = true)
    (hne : ev.batchHash1 ≠ ev.batchHash2) (h1 : made ev.validatorPubkey m ctx ev.signature1)
    (h2 : made ev.validatorPubkey m' ctx' ev.signature2)
    (hother : m ≠ stakingAttestationMessage ev.height ev.batchHash1 ∨ ctx ≠ attestationContext) :
    verifyDoubleSignEvidence prim isKey ev = .error "Signature 1 verification failed" := by
  have hfail := ideal.verify_eq_false h1 hother
  have hpk := ideal.key_length hkey
  have hs1 := ideal.signature_length h1
  have hs2 := ideal.signature_length h2
  unfold verifyDoubleSignEvidence
  simp [hne, hpk, hkey, hs1, hs2, hfail, throw, throwThe, MonadExceptOf.throw, bind, Except.bind]

theorem evidenceAt_of_led {pk : Bytes} {old new : BatchHeader} (hold : LedBy made pk old)
    (hnew : LedBy made pk new) (hpk : pk ≠ []) (hne : old.batchHash ≠ new.batchHash) (height : ℕ) :
    evidenceAt height (old.batchHash, old) (new.batchHash, new) =
      some ⟨pk, height, old.batchHash, new.batchHash, old.leaderSignature, new.leaderSignature⟩ := by
  have hsame : old.leaderPubkey = new.leaderPubkey := by rw [hold.key, hnew.key]
  unfold evidenceAt
  rw [if_pos hne, if_pos ⟨hsame, by rw [hold.key]; exact hpk⟩, hold.key]

/-- **No evidence is accepted.** Whatever two attestations of one height, or two headers of one height,
a validator signs for different batches, the evidence of it fails at its first signature. -/
theorem evidence_refused (ideal : Ideal prim isKey made) {pk : Bytes} (hkey : isKey pk = true) :
    (∀ a b : Attestation, AttestedBy made pk a → AttestedBy made pk b → a.height = b.height →
      a.batchHash ≠ b.batchHash →
      verifyDoubleSignEvidence prim isKey (attestationEvidence a b) =
        .error "Signature 1 verification failed") ∧
    (∀ old new : BatchHeader, LedBy made pk old → LedBy made pk new → old.height = new.height →
      old.batchHash ≠ new.batchHash →
      ∃ ev, evidenceAt old.height (old.batchHash, old) (new.batchHash, new) = some ev ∧
        verifyDoubleSignEvidence prim isKey ev = .error "Signature 1 verification failed") := by
  constructor
  · intro a b ha hb _ hne
    obtain ⟨rfl, ha⟩ := ha
    exact verify_evidence_eq_error ideal hkey hne ha hb.signed
      (.inl (stakingAttestationMessage_ne _ _ _ _ _ _))
  · intro old new hold hnew _ hne
    have hpk : pk ≠ [] := by
      rintro rfl
      exact absurd (ideal.key_length hkey) (by decide)
    refine ⟨_, evidenceAt_of_led hold hnew hpk hne old.height, ?_⟩
    exact verify_evidence_eq_error ideal hkey hne hold.signed hnew.signed (.inr batchSignContext_ne)

end Refused

/-! ## A validator that signs twice -/

/-- The key of the validator. -/
def cheatKey : Bytes := List.replicate 1952 1

/-- Its `n`-th signature. -/
def cheatSignature (n : UInt8) : Bytes := List.replicate 3309 n

def cheatAttestation (n : UInt8) (hash : Bytes32) : Attestation :=
  { height := 1, round := 0, batchHash := hash, stateRoot := 9, validatorPubkey := cheatKey
    signature := cheatSignature n }

def cheatHeader (n : UInt8) (hash : Bytes32) : BatchHeader :=
  { height := 1, parentHash := 0, batchHash := hash, executionOrderRoot := 0, stateRoot := 9
    timestamp := 0, totalFees := 0
    finalityCertificate :=
      { version := 1, height := 1, round := 0, batchHash := hash, stateRoot := 9, signerBitmap := []
        signatures := [], signatureRoot := 0, signedStake := 0 }
    leaderPubkey := cheatKey, leaderSignature := cheatSignature n, leaderRound := 0 }

/-- What was signed: two attestations and two headers, for the batches `5` and `6`. -/
def signedLog : List (Bytes × Bytes × UInt8) :=
  [(attestationMessage 1 0 5 9, attestationContext, 1), (attestationMessage 1 0 6 9, attestationContext, 2),
    (ofBytes32 5, batchSignContext, 3), (ofBytes32 6, batchSignContext, 4)]

/-- The signature was made by the validator and is in the log. -/
def Logged (pk m ctx s : Bytes) : Prop :=
  pk = cheatKey ∧ s = cheatSignature (s.headD 0) ∧ (m, ctx, s.headD 0) ∈ signedLog

instance (pk m ctx s : Bytes) : Decidable (Logged pk m ctx s) :=
  inferInstanceAs (Decidable (_ ∧ _ ∧ _))

def logKey (pk : Bytes) : Bool := decide (pk = cheatKey)

def logPrim : Primitives where
  blake3 _ := 0
  sha256 _ := 0
  verify pk m s ctx := decide (Logged pk m ctx s)

theorem log_ideal : Ideal logPrim logKey Logged where
  verify_iff pk m s ctx := by simp [logPrim]
  exactly := by
    intro pk m m' ctx ctx' s h h'
    have hinj : ∀ e ∈ signedLog, ∀ e' ∈ signedLog, e.2.2 = e'.2.2 → e = e' := by decide +kernel
    have heq := hinj _ h.2.2 _ h'.2.2 rfl
    exact ⟨congrArg Prod.fst heq, congrArg (fun e => e.2.1) heq⟩
  key_length := by
    intro pk h
    rw [of_decide_eq_true h, cheatKey, List.length_replicate]
  signature_length := by
    intro pk m ctx s h
    rw [h.2.1, cheatSignature, List.length_replicate]

theorem logKey_cheatKey : logKey cheatKey = true := decide_eq_true rfl

theorem log_attested :
    AttestedBy Logged cheatKey (cheatAttestation 1 5) ∧
      AttestedBy Logged cheatKey (cheatAttestation 2 6) :=
  ⟨⟨rfl, rfl, rfl, by decide +kernel⟩, ⟨rfl, rfl, rfl, by decide +kernel⟩⟩

theorem log_led :
    LedBy Logged cheatKey (cheatHeader 3 5) ∧ LedBy Logged cheatKey (cheatHeader 4 6) :=
  ⟨⟨rfl, rfl, rfl, by decide +kernel⟩, ⟨rfl, rfl, rfl, by decide +kernel⟩⟩

theorem evidence_refused_log :
    verifyDoubleSignEvidence logPrim logKey
        (attestationEvidence (cheatAttestation 1 5) (cheatAttestation 2 6)) =
      .error "Signature 1 verification failed" ∧
    ∃ ev, evidenceAt (cheatHeader 3 5).height ((cheatHeader 3 5).batchHash, cheatHeader 3 5)
        ((cheatHeader 4 6).batchHash, cheatHeader 4 6) = some ev ∧
      verifyDoubleSignEvidence logPrim logKey ev =
        .error "Signature 1 verification failed" :=
  ⟨(evidence_refused log_ideal logKey_cheatKey).1 _ _ log_attested.1 log_attested.2 rfl
      (by decide : (5 : Bytes32) ≠ 6),
    (evidence_refused log_ideal logKey_cheatKey).2 _ _ log_led.1 log_led.2 rfl
      (by decide : (5 : Bytes32) ≠ 6)⟩

/-- **A proven double signature goes unpunished.** Neither the two attestations nor the two headers of one
height are accepted as evidence. -/
theorem double_sign_unpunished :
    ¬ ∀ (prim : Primitives) (isKey : Bytes → Bool)
      (made : (pk message context signature : Bytes) → Prop), Ideal prim isKey made →
      ∀ pk : Bytes, isKey pk = true →
        (∀ a b : Attestation, AttestedBy made pk a → AttestedBy made pk b → a.height = b.height →
          a.batchHash ≠ b.batchHash →
          verifyDoubleSignEvidence prim isKey (attestationEvidence a b) = .ok ()) ∧
        (∀ old new : BatchHeader, LedBy made pk old → LedBy made pk new → old.height = new.height →
          old.batchHash ≠ new.batchHash →
          ∃ ev, evidenceAt old.height (old.batchHash, old) (new.batchHash, new) = some ev ∧
            verifyDoubleSignEvidence prim isKey ev = .ok ()) := by
  intro h
  have hne : (5 : Bytes32) ≠ 6 := by decide
  have hok := (h logPrim logKey Logged log_ideal cheatKey logKey_cheatKey).1 _ _ log_attested.1
    log_attested.2 rfl hne
  have herr : verifyDoubleSignEvidence logPrim logKey
      (attestationEvidence (cheatAttestation 1 5) (cheatAttestation 2 6)) = .error _ :=
    verify_evidence_eq_error log_ideal logKey_cheatKey hne log_attested.1.signed log_attested.2.signed
      (.inl (stakingAttestationMessage_ne _ _ _ _ _ _))
  rw [herr] at hok
  cases hok

end TruthLinked.Consensus.DoubleSign
