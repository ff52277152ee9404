import TruthLinked.Consensus.Types
import TruthLinked.Lib.Except
import TruthLinked.Lib.Weight

/-! # What an accepted certificate proves

`verify_attestation_set` of `streaming_consensus.rs` and the certificate methods it calls. A full
certificate that is accepted names distinct attesters with verified signatures over the header's
statement, and those other than the leader reach the required stake (`certificate_sound`). A compact
certificate, one without signatures, is accepted on its bitmap alone (`compact_accepted`). -/

namespace TruthLinked.Consensus.Certificate

open Core.Types Staking.State Consensus.Types Lib.Except Lib.Weight

variable {attesters : List Bytes} {stakeMap : StakeMap}

/-! ## The verifier -/

/-- One signer's share in a signed stake: the leader's is not counted. -/
def addStake (stakeMap : StakeMap) (leader : Bytes) (total : ℕ) (pk : Bytes) : ℕ :=
  if pk = leader then total else satAdd64 total (stakeAt stakeMap pk)

/-- The attesters whose bits are set. -/
def bitmapSigners (canon : List Bytes) (bitmap : Bytes) : List Bytes :=
  (canon.zipIdx.filter fun (_, idx) => bit bitmap idx).map Prod.fst

/-- `bitmap_signed_stake`. -/
def bitmapSignedStake (cert : PqFinalityCertificate) (attesters : List Bytes) (stakeMap : StakeMap)
    (leader : Bytes) : Except String (ℕ × ℕ) := do
  let canon := canonical attesters
  failIf (cert.signerBitmap.length ≠ (canon.length + 7) / 8)
    "PQ finality certificate bitmap length mismatch"
  failIf (strayBits cert.signerBitmap canon.length)
    "PQ finality certificate bitmap has out-of-range signer bits"
  let signers := bitmapSigners canon cert.signerBitmap
  pure (signers.length, signers.foldl (addStake stakeMap leader) 0)

/-- `validate_compact_metadata`. -/
def validateCompactMetadata (cert : PqFinalityCertificate) (attesters : List Bytes)
    (stakeMap : StakeMap) (leader : Bytes) (requiredStake : ℕ) : Except String Unit := do
  let r ← bitmapSignedStake cert attesters stakeMap leader
  failIf (r.1 = 0) "Missing PQ finality certificate signers"
  failIf (r.2 ≠ cert.signedStake)
    s!"PQ finality certificate signed stake mismatch: bitmap {r.2}, header {cert.signedStake}"
  failIf (r.2 < requiredStake) s!"PQ finality certificate stake below quorum: {r.2}/{requiredStake}"

/-- The attestation that a signature of a certificate stands for. -/
def attestationOf (cert : PqFinalityCertificate) (sig : PqFinalitySignature) : Attestation :=
  { height := cert.height, round := cert.round, batchHash := cert.batchHash, stateRoot := cert.stateRoot,
    validatorPubkey := sig.validatorPubkey, signature := sig.signature }

/-- The loop over the signatures: the keys seen so far and the stake so far. -/
def verifySignatures (prim : Primitives) (cert : PqFinalityCertificate) (canon : List Bytes)
    (stakeMap : StakeMap) (leader : Bytes) :
    List PqFinalitySignature → List Bytes → ℕ → Except String ℕ
  | [], _, total => pure total
  | sig :: rest, seen, total => do
    failIf (canon.length ≤ sig.validatorIndex) "PQ finality certificate signer index out of range"
    failIf (canon[sig.validatorIndex]? ≠ some sig.validatorPubkey)
      "PQ finality certificate signer index mismatch"
    failIf (bit cert.signerBitmap sig.validatorIndex = false)
      "PQ finality certificate signer missing from bitmap"
    failIf (sig.validatorPubkey ∈ seen) "Duplicate PQ finality certificate signer"
    failIf (verifyAttestationSignature prim (attestationOf cert sig) = false)
      "Invalid PQ finality certificate signature"
    verifySignatures prim cert canon stakeMap leader rest (sig.validatorPubkey :: seen)
      (addStake stakeMap leader total sig.validatorPubkey)

/-- `verify_attestation_set`, and `verify_historical_sync_attestation_set`, which only calls it. -/
def verifyAttestationSet (prim : Primitives) (header : BatchHeader) (attesters : List Bytes)
    (stakeMap : StakeMap) (requiredStake : ℕ) : Except String Unit := do
  let cert := header.finalityCertificate
  failIf (cert.version ≠ PqFinalityCertificate.VERSION)
    "Unsupported PQ finality certificate version"
  failIf (cert.height ≠ header.height ∨ cert.round ≠ header.leaderRound ∨
      cert.batchHash ≠ header.batchHash ∨ cert.stateRoot ≠ header.stateRoot)
    "PQ finality certificate does not match header"
  if requiredStake = 0 then
    failIf (¬ (attesters = [header.leaderPubkey] ∧ cert.signerCount = 0 ∧ cert.signedStake = 0))
      "No non-leader stake for quorum"
  else
    validateCompactMetadata cert attesters stakeMap header.leaderPubkey requiredStake
    -- compact certificates, as gossip carries them, end here
    if cert.signatures = [] then pure ()
    else
      failIf (cert.signatureRoot ≠ PqFinalityCertificate.signatureRootFor prim cert.signatures)
        "PQ finality certificate signature root mismatch"
      let total ← verifySignatures prim cert (canonical attesters) stakeMap header.leaderPubkey
        cert.signatures [] 0
      failIf (total ≠ cert.signedStake)
        s!"PQ finality certificate signed stake mismatch: computed {total}, header {cert.signedStake}"

/-! ## Lists of attesters -/

theorem mem_canonical {pk : Bytes} :
    pk ∈ canonical attesters ↔ pk ∈ attesters := by
  unfold canonical
  rw [Std.ExtTreeSet.mem_toList]
  simp

theorem canonical_nodup (attesters : List Bytes) : (canonical attesters).Nodup := by
  have h : (canonical attesters).Pairwise fun a b => compare a b = .lt :=
    Std.ExtTreeSet.ordered_toList
  refine h.imp ?_
  intro a b hab he
  rw [he, Std.ReflOrd.compare_self] at hab
  cases hab

theorem foldl_addStake (stakeMap : StakeMap) (leader : Bytes) (pks : List Bytes) {total : ℕ}
    (h : total ≤ u64 - 1) :
    pks.foldl (addStake stakeMap leader) total =
      min (total + ((pks.filter fun pk => pk ≠ leader).map (stakeAt stakeMap)).sum) (u64 - 1) := by
  have hskip := sum_map_skip (fun pk => decide (pk = leader)) (stakeAt stakeMap) pks
  simp only [decide_eq_true_eq, ← decide_not] at hskip
  rw [← hskip]
  refine foldl_capped ?_ h
  intro t ht pk _
  by_cases hpk : pk = leader
  · rw [addStake, if_pos hpk, if_pos hpk]
    omega
  · rw [addStake, if_neg hpk, if_neg hpk, satAdd64]

/-- What the verifier finds out about one signature. -/
structure SignatureOk (prim : Primitives) (cert : PqFinalityCertificate) (canon : List Bytes)
    (sig : PqFinalitySignature) : Prop where
  indexed : canon[sig.validatorIndex]? = some sig.validatorPubkey
  marked : bit cert.signerBitmap sig.validatorIndex = true
  verified : verifyAttestationSignature prim (attestationOf cert sig) = true

/-- **The loop over the signatures** passes iff every signature is in order and no key comes twice. -/
theorem verifySignatures_eq_ok {prim : Primitives} {cert : PqFinalityCertificate} {canon : List Bytes}
    {leader : Bytes} {sigs : List PqFinalitySignature} {seen : List Bytes}
    {total result : ℕ} :
    verifySignatures prim cert canon stakeMap leader sigs seen total = .ok result ↔
      (∀ sig ∈ sigs, SignatureOk prim cert canon sig ∧ sig.validatorPubkey ∉ seen) ∧
      (sigs.map PqFinalitySignature.validatorPubkey).Nodup ∧
      result = (sigs.map PqFinalitySignature.validatorPubkey).foldl (addStake stakeMap leader) total := by
  induction sigs generalizing seen total with
  | nil =>
    rw [verifySignatures, pure_eq_ok]
    simp [eq_comm]
  | cons sig rest ih =>
    simp only [verifySignatures, failIf_bind_ok, ih, List.map_cons, List.nodup_cons, List.foldl_cons,
      List.forall_mem_cons, Bool.not_eq_false, not_le, ne_eq, not_not]
    constructor
    · rintro ⟨-, hidx, hbit, hseen, hver, hrest, hnd, rfl⟩
      refine ⟨⟨⟨⟨hidx, hbit, hver⟩, hseen⟩, fun s hs => ⟨(hrest s hs).1, ?_⟩⟩, ⟨?_, hnd⟩, rfl⟩
      · exact fun h => (hrest s hs).2 (List.mem_cons_of_mem _ h)
      · intro h
        obtain ⟨s, hs, he⟩ := List.mem_map.mp h
        exact (hrest s hs).2 (he ▸ List.mem_cons_self)
    · rintro ⟨⟨⟨⟨hidx, hbit, hver⟩, hseen⟩, hrest⟩, ⟨hnew, hnd⟩, rfl⟩
      refine ⟨?_, hidx, hbit, hseen, hver, fun s hs => ⟨(hrest s hs).1, ?_⟩, hnd, rfl⟩
      · exact (List.getElem?_eq_some_iff.mp hidx).1
      · intro h
        rcases List.mem_cons.mp h with he | h
        · exact hnew (List.mem_map.mpr ⟨s, hs, he⟩)
        · exact (hrest s hs).2 h

theorem validateCompactMetadata_eq_ok {cert : PqFinalityCertificate}
    {leader : Bytes} {requiredStake : ℕ} :
    validateCompactMetadata cert attesters stakeMap leader requiredStake = .ok () ↔
      cert.signerBitmap.length = ((canonical attesters).length + 7) / 8 ∧
      strayBits cert.signerBitmap (canonical attesters).length = false ∧
      bitmapSigners (canonical attesters) cert.signerBitmap ≠ [] ∧
      (bitmapSigners (canonical attesters) cert.signerBitmap).foldl (addStake stakeMap leader) 0 =
        cert.signedStake ∧
      requiredStake ≤ cert.signedStake := by
  simp only [validateCompactMetadata, bitmapSignedStake, bind_assoc, failIf_bind_ok, pure_bind,
    failIf_eq_ok, ne_eq, not_not, Bool.not_eq_true, List.length_eq_zero_iff, not_lt]
  constructor
  · rintro ⟨hlen, hstray, hne, hsum, hle⟩
    exact ⟨hlen, hstray, hne, hsum, hsum ▸ hle⟩
  · rintro ⟨hlen, hstray, hne, hsum, hle⟩
    exact ⟨hlen, hstray, hne, hsum, hsum.symm ▸ hle⟩

/-- What a header that matches its certificate says. -/
structure Matches (header : BatchHeader) (cert : PqFinalityCertificate) : Prop where
  version : cert.version = PqFinalityCertificate.VERSION
  height : cert.height = header.height
  round : cert.round = header.leaderRound
  batchHash : cert.batchHash = header.batchHash
  stateRoot : cert.stateRoot = header.stateRoot

/-- **When a certificate is accepted**, given that some stake is required. -/
theorem verifyAttestationSet_eq_ok {prim : Primitives} {header : BatchHeader}
    {requiredStake : ℕ} (hreq : 0 < requiredStake) :
    verifyAttestationSet prim header attesters stakeMap requiredStake = .ok () ↔
      Matches header header.finalityCertificate ∧
      validateCompactMetadata header.finalityCertificate attesters stakeMap header.leaderPubkey
        requiredStake = .ok () ∧
      (header.finalityCertificate.signatures ≠ [] →
        header.finalityCertificate.signatureRoot =
          PqFinalityCertificate.signatureRootFor prim header.finalityCertificate.signatures ∧
        verifySignatures prim header.finalityCertificate (canonical attesters) stakeMap
          header.leaderPubkey header.finalityCertificate.signatures [] 0 =
          .ok header.finalityCertificate.signedStake) := by
  have hmatch : Matches header header.finalityCertificate ↔
      ¬ header.finalityCertificate.version ≠ PqFinalityCertificate.VERSION ∧
      ¬ (header.finalityCertificate.height ≠ header.height ∨
        header.finalityCertificate.round ≠ header.leaderRound ∨
        header.finalityCertificate.batchHash ≠ header.batchHash ∨
        header.finalityCertificate.stateRoot ≠ header.stateRoot) := by
    constructor
    · rintro ⟨h1, h2, h3, h4, h5⟩
      simp [h1, h2, h3, h4, h5]
    · rintro ⟨h1, h2⟩
      push Not at h1 h2
      exact ⟨h1, h2.1, h2.2.1, h2.2.2.1, h2.2.2.2⟩
  rw [hmatch, verifyAttestationSet]
  simp only [failIf_bind_ok, if_neg hreq.ne', and_assoc]
  refine and_congr_right fun _ => and_congr_right fun _ => ?_
  rw [bind_eq_ok]
  constructor
  · rintro ⟨⟨⟩, hmeta, h⟩
    refine ⟨hmeta, fun hne => ?_⟩
    rw [if_neg hne, failIf_bind_ok, bind_eq_ok] at h
    obtain ⟨hroot, total, hver, htotal⟩ := h
    rw [failIf_eq_ok, not_not] at htotal
    exact ⟨not_not.mp hroot, htotal ▸ hver⟩
  · rintro ⟨hmeta, h⟩
    refine ⟨(), hmeta, ?_⟩
    by_cases hne : header.finalityCertificate.signatures = []
    · rw [if_pos hne]
      rfl
    · obtain ⟨hroot, hver⟩ := h hne
      rw [if_neg hne, failIf_bind_ok, bind_eq_ok]
      exact ⟨not_not.mpr hroot, _, hver, by simp⟩

/-! ## Soundness -/

/-- The non-leader attesters `signers` signed the header's statement and reach `requiredStake`. -/
structure Quorum (prim : Primitives) (header : BatchHeader) (attesters : List Bytes)
    (stakeMap : StakeMap) (requiredStake : ℕ) (signers : Finset Bytes) : Prop where
  member : ∀ pk ∈ signers, pk ∈ attesters ∧ pk ≠ header.leaderPubkey
  signed : ∀ pk ∈ signers, ∃ signature, verifyAttestationSignature prim
    ⟨header.height, header.leaderRound, header.batchHash, header.stateRoot, pk, signature⟩ = true
  stake : requiredStake ≤ weight (stakeAt stakeMap) signers

/-- **An accepted certificate that carries signatures is backed by a quorum.** -/
theorem certificate_sound (prim : Primitives) (header : BatchHeader) (attesters : List Bytes)
    (stakeMap : StakeMap) (requiredStake : ℕ) (hreq : 0 < requiredStake)
    (hfull : header.finalityCertificate.signatures ≠ [])
    (h : verifyAttestationSet prim header attesters stakeMap requiredStake = .ok ()) :
    ∃ signers, signers.Nonempty ∧ Quorum prim header attesters stakeMap requiredStake signers := by
  obtain ⟨hmatch, hmeta, hsig⟩ := (verifyAttestationSet_eq_ok hreq).mp h
  obtain ⟨-, -, -, -, hle⟩ := validateCompactMetadata_eq_ok.mp hmeta
  obtain ⟨hok, hnd, htotal⟩ := verifySignatures_eq_ok.mp (hsig hfull).2
  set cert := header.finalityCertificate with hcert
  set pks := cert.signatures.map PqFinalitySignature.validatorPubkey with hpks
  set signers := pks.filter fun pk => pk ≠ header.leaderPubkey with hsigners
  have hstake : requiredStake ≤ weight (stakeAt stakeMap) signers.toFinset := by
    rw [← sum_map_eq_weight _ (hnd.filter _)]
    rw [foldl_addStake _ _ _ (Nat.zero_le _), Nat.zero_add] at htotal
    exact (hle.trans htotal.le).trans (min_le_left _ _)
  refine ⟨signers.toFinset, ?_, ?_, ?_, hstake⟩
  · rw [Finset.nonempty_iff_ne_empty]
    intro he
    rw [he, weight, Finset.sum_empty] at hstake
    omega
  · intro pk hpk
    obtain ⟨hpk, hne⟩ := List.mem_filter.mp (List.mem_toFinset.mp hpk)
    obtain ⟨sig, hsig, rfl⟩ := List.mem_map.mp hpk
    refine ⟨mem_canonical.mp (List.mem_of_getElem? (hok sig hsig).1.indexed), by simpa using hne⟩
  · intro pk hpk
    obtain ⟨hpk, -⟩ := List.mem_filter.mp (List.mem_toFinset.mp hpk)
    obtain ⟨sig, hsig, rfl⟩ := List.mem_map.mp hpk
    refine ⟨sig.signature, ?_⟩
    have hv := (hok sig hsig).1.verified
    rwa [attestationOf, hmatch.height, hmatch.round, hmatch.batchHash, hmatch.stateRoot] at hv

/-! ## Two validators -/

def leaderKey : Bytes := List.replicate 1952 1

def attesterKey : Bytes := List.replicate 1952 2

/-- The two validators have the least stake an active validator has. -/
def twoStakes : StakeMap := ((∅ : StakeMap).insert leaderKey 10000000000).insert attesterKey 10000000000

/-- The header of a first block, with the certificate of the attester's signature. -/
def fullHeader : BatchHeader :=
  { height := 1, parentHash := 0, batchHash := 5, executionOrderRoot := 0, stateRoot := 6,
    timestamp := 0, totalFees := 0
    finalityCertificate :=
      { version := 1, height := 1, round := 0, batchHash := 5, stateRoot := 6, signerBitmap := [2],
        signatures := [⟨1, attesterKey, List.replicate 3309 7⟩]
        signatureRoot := 0x5879d7b3a476848d373141677def555f9e66abf9577288bd4b314d37760bdeb4
        signedStake := 10000000000 }
    leaderPubkey := leaderKey, leaderSignature := [], leaderRound := 0 }

/-- The keys of `keys` sign with the byte `7`; the hash is that of the one list of signatures here. -/
def toyPrim (keys : List Bytes) : Primitives where
  blake3 _ := 0x5879d7b3a476848d373141677def555f9e66abf9577288bd4b314d37760bdeb4
  sha256 _ := 0
  verify pk _ signature _ := decide (pk ∈ keys) && signature.all (· == 7)

theorem fullHeader_quorum :
    ∃ signers, signers.Nonempty ∧
      Quorum (toyPrim [leaderKey, attesterKey]) fullHeader [leaderKey, attesterKey] twoStakes 5000000000
        signers :=
  certificate_sound _ _ _ _ _ (by decide) (by decide) (by decide +kernel)

/-- **The bitmap alone is enough**: where only the leader can sign, a header whose certificate marks the
other validator and carries no signature is accepted. -/
theorem compact_accepted :
    ¬ ∀ (prim : Primitives) (header : BatchHeader) (attesters : List Bytes) (stakeMap : StakeMap)
      (requiredStake : ℕ), 0 < requiredStake →
      verifyAttestationSet prim header attesters stakeMap requiredStake = .ok () →
      ∃ signers, Quorum prim header attesters stakeMap requiredStake signers := by
  intro h
  obtain ⟨signers, hq⟩ := h (toyPrim [leaderKey])
    { fullHeader with finalityCertificate := fullHeader.finalityCertificate.compactForGossip }
    [leaderKey, attesterKey] twoStakes 5000000000 (by decide) (by decide +kernel)
  have hnone : ∀ pk, pk ∉ signers := by
    intro pk hpk
    obtain ⟨signature, hsig⟩ := hq.signed pk hpk
    simp only [verifyAttestationSignature, toyPrim, Bool.and_eq_true, decide_eq_true_eq,
      List.mem_singleton] at hsig
    exact (hq.member pk hpk).2 hsig.2.1
  have hstake := hq.stake
  rw [Finset.eq_empty_of_forall_notMem hnone, weight, Finset.sum_empty] at hstake
  omega

end TruthLinked.Consensus.Certificate
