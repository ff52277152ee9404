import TruthLinked.Ledger.Slots
import TruthLinked.Ledger.Solvency
import TruthLinked.Zk.Commitment
import TruthLinked.Zk.Soundness

/-! # Commitments of private balance cells

A transaction supplies a commitment, a nonce and a ciphertext for each cell that it writes, and the cell holds
these three afterwards (`stored_of_accepted`). Nothing ties them to each other: the cell opens iff they were
made to. -/

namespace TruthLinked.Ledger.Commitments

open Core.Types Core.Bytes Governance.Types Runtime.Cells Runtime.Types Ledger.Model Ledger.Phases
open Ledger.SystemCells Ledger.Mcp Ledger.PrivateBalance Ledger.CellSpecs Ledger.Executor
open Ledger.Slots Ledger.Solvency Zk.Transfer Zk.Commitment Zk.Soundness Lib.Except Lib.Keyed Lib.Goldilocks
open Lib.Phase

variable {cs : CellState} {cell : CellAccount} {cipher : Bytes32 × Bytes32}

/-! ## Cells -/

/-- The ciphertext of a cell, as `read_and_decrypt_balance` puts it together. -/
def readCiphertext (cell : CellAccount) : Bytes :=
  ofBytes32 (slotOf cell "l") ++ (ofBytes32 (slotOf cell "h")).take 12

/-- The cell's commitment opens, for some balance, with the nonce and the ciphertext of the cell. -/
def CellOpens (c : Rescue) (blake3 : Bytes → Bytes32) (cell : CellAccount) : Prop :=
  ∃ balance, Opening.Opens c blake3 (slotOf cell "c")
    ⟨balance, BitVec.ofNat 128 (readCommitNonce cell), readCiphertext cell⟩

/-- What a transaction supplies for a cell. -/
structure Supplied where
  cellId : AccountId
  commitment : Bytes32
  nonce : BitVec 128
  ciphertext : Bytes

/-- The number that the bytes of the nonce spell. -/
def Supplied.number (s : Supplied) : BitVec 128 := BitVec.ofNat 128 (leNat (nonceBytes s.nonce))

/-- The commitment was computed from the nonce and the ciphertext, for some balance. -/
def Supplied.Computed (c : Rescue) (blake3 : Bytes → Bytes32) (s : Supplied) : Prop :=
  ∃ balance, computeCommitment c blake3 balance s.number s.ciphertext = s.commitment

/-- What an intent supplies. -/
def supplied : TransactionIntent → List Supplied
  | .privateBalanceInit cellId _ enc comm nonce => [⟨cellId, comm, nonce, enc⟩]
  | .privateBalanceDeposit cellId _ _ enc comm nonce _ => [⟨cellId, comm, nonce, enc⟩]
  | .privateBalanceWithdraw cellId _ _ _ enc comm nonce _ => [⟨cellId, comm, nonce, enc⟩]
  | .privateBalanceConfidentialTransfer sCell _ rCell _ _ sEnc sComm sNonce _ rEnc rComm rNonce _ =>
    [⟨sCell, sComm, sNonce, sEnc⟩, ⟨rCell, rComm, rNonce, rEnc⟩]
  | _ => []

/-- The cell holds what was supplied. -/
structure Holds (cs : CellState) (s : Supplied) (cell : CellAccount) : Prop where
  found : slot cs.cells s.cellId = some cell
  commitment : slotOf cell "c" = s.commitment
  nonce : readCommitNonce cell = leNat (nonceBytes s.nonce)
  ciphertext : readCiphertext cell = s.ciphertext

theorem Holds.opens_iff {s : Supplied} (h : Holds cs s cell) (c : Rescue)
    (blake3 : Bytes → Bytes32) : CellOpens c blake3 cell ↔ s.Computed c blake3 := by
  unfold CellOpens Supplied.Computed Supplied.number Opening.Opens
  rw [h.commitment, h.nonce, h.ciphertext]
  exact exists_congr fun balance => verifyCommitment_eq_ok

/-! ## Packing -/

theorem take_padded {bs : Bytes} (h : bs.length ≤ 32) : (ofBytes32 (padded bs)).take bs.length = bs := by
  have hlen : (bs ++ List.replicate (32 - bs.length) 0).length = 32 := by
    rw [List.length_append, List.length_replicate]
    omega
  unfold padded
  rw [List.take_of_length_le h, ofBytes32_toBytes32 hlen, List.take_left]

theorem unpack_ciphertext {ct : Bytes} (h : packCiphertext ct = .ok cipher) :
    ofBytes32 cipher.1 ++ (ofBytes32 cipher.2).take 12 = ct := by
  obtain ⟨hlen, h⟩ := failIf_bind_ok.mp h
  rw [not_not] at hlen
  unfold ciphertextLen at hlen
  obtain rfl := pure_eq_ok.mp h
  have hlo : (ct.take 32).length = 32 := by
    rw [List.length_take, hlen]
    rfl
  have hhi : (ct.drop 32).length = 12 := by rw [List.length_drop, hlen]
  have hfirst := take_padded hlo.le
  have hsecond := take_padded (hhi.le.trans (by decide))
  rw [hlo, List.take_of_length_le (length_ofBytes32 _).le] at hfirst
  rw [hhi] at hsecond
  rw [hfirst, hsecond, List.take_append_drop]

theorem decodeU128_packNonce (nonce : BitVec 128) : decodeU128 (packNonce nonce) = leNat (nonceBytes nonce) := by
  have hlen : (nonceBytes nonce).length = 16 := by
    unfold nonceBytes beBytes
    rw [List.length_reverse, length_leBytes]
  have htake := take_padded (hlen.le.trans (by decide))
  rw [hlen] at htake
  unfold decodeU128 packNonce
  rw [htake]

/-! ## What is written is stored -/

/-- The tags of a private balance cell. -/
def pbTags : List String := ["c", "l", "h", "n", "o", "a", "td", "tw", "tf", "to", "L", "sv"]

theorem pbKeys_nodup : (pbTags.map pbKey).Nodup := by decide +kernel

theorem pbKey_injOn : Set.InjOn pbKey { t | t ∈ pbTags } := fun _ ha _ hb h =>
  List.inj_on_of_nodup_map pbKeys_nodup ha hb h

theorem holds_of_slots {s : Supplied}
    (hcell : slot cs.cells s.cellId = some cell) (hcipher : packCiphertext s.ciphertext = .ok cipher)
    (hc : cell.storage[pbKey "c"]? = some s.commitment) (hl : cell.storage[pbKey "l"]? = some cipher.1)
    (hh : cell.storage[pbKey "h"]? = some cipher.2) (hn : cell.storage[pbKey "n"]? = some (packNonce s.nonce)) :
    Holds cs s cell := by
  refine ⟨hcell, ?_, ?_, ?_⟩
  · rw [slotOf, hc]
    rfl
  · rw [readCommitNonce, readSlotU128_of_some hn, decodeU128_packNonce]
  · rw [readCiphertext, slotOf, slotOf, hl, hh]
    exact unpack_ciphertext hcipher

theorem holds_deploy (env : Env) (cs : CellState) {s : Supplied}
    {owner agent : AccountId} (hcipher : packCiphertext s.ciphertext = .ok cipher)
    (hstorage : cell.storage = fromList
        [(pbKey "c", s.commitment), (pbKey "l", cipher.1), (pbKey "h", cipher.2), (pbKey "n", packNonce s.nonce),
          (pbKey "o", owner), (pbKey "a", agent), (pbKey "td", 0), (pbKey "tw", 0), (pbKey "tf", 0),
          (pbKey "to", 0), (pbKey "L", flagWord 1), (pbKey "sv", flagWord 1)]) :
    Holds (cellEffect env (.deploy s.cellId cell) cs) s cell := by
  have hslot : slot (cellEffect env (.deploy s.cellId cell) cs).cells s.cellId = some cell := by
    rw [cellEffect, slot_insert, if_pos rfl]
  refine holds_of_slots hslot hcipher ?_ ?_ ?_ ?_
  all_goals
    rw [hstorage]
    refine slot_fromList_of_mem ?_ (by simp)
    exact pbKeys_nodup

theorem holds_writes (env : Env) {s : Supplied} {old : Bytes32} {u : CellUpdate}
    (h : Writes cs s.cellId old s.commitment s.ciphertext s.nonce u) :
    ∃ cell, Holds (cellEffect env u cs) s cell := by
  obtain ⟨cell, cipher, extra, hcell, -, -, hcipher, hextra, rfl⟩ := h
  let first := [("c", some s.commitment), ("l", some cipher.1), ("h", some cipher.2),
    ("n", some (packNonce s.nonce))]
  let rest := extra.map fun e : String × Bytes32 => (e.1, some e.2)
  have hdiff : changeStorage cell.storage (fromList (balanceSlots s.commitment cipher s.nonce ++
      extra.map fun e => (pbKey e.1, some e.2))) = write pbKey cell.storage (first ++ rest) := by
    unfold write
    rw [List.map_append, List.map_map]
    rfl
  have hrest : ∀ e ∈ rest, e.1 ∈ ["td", "tw", "to"] := by
    intro e he
    obtain ⟨e, hmem, rfl⟩ := List.mem_map.mp he
    exact hextra e hmem
  have htags : ∀ e ∈ first ++ rest, e.1 ∈ pbTags := by
    intro e he
    rcases List.mem_append.mp he with he | he
    · exact (by decide : ∀ t ∈ ["c", "l", "h", "n"], t ∈ pbTags) e.1 (List.mem_map_of_mem he)
    · exact (by decide : ∀ t ∈ ["td", "tw", "to"], t ∈ pbTags) e.1 (hrest e he)
  have hslot : ∀ t ∈ ["c", "l", "h", "n"], (write pbKey cell.storage (first ++ rest))[pbKey t]? =
      overlaid first t cell.storage[pbKey t]? := by
    intro t ht
    have hapart : ∀ e ∈ rest, e.1 ≠ t := fun e he h =>
      (by decide : ∀ t ∈ ["c", "l", "h", "n"], t ∉ ["td", "tw", "to"]) t ht (h ▸ hrest e he)
    have hmem : t ∈ pbTags := (by decide : ∀ t ∈ ["c", "l", "h", "n"], t ∈ pbTags) t ht
    rw [getElem?_write pbKey_injOn hmem htags, overlaid, List.foldl_append]
    exact overlaid_of_ne hapart _
  refine ⟨{ cell with storage := write pbKey cell.storage (first ++ rest) },
    holds_of_slots ?_ hcipher (hslot "c" (by decide)) (hslot "l" (by decide)) (hslot "h" (by decide))
      (hslot "n" (by decide))⟩
  rw [cellEffect, modifyCell, slot_modify, if_pos rfl, hcell, Option.map_some, hdiff]

theorem Holds.frame {s : Supplied} (h : Holds cs s cell) (env : Env)
    {cellId : AccountId} {old comm : Bytes32} {enc : Bytes} {nonce : BitVec 128} {u : CellUpdate}
    (hu : Writes cs cellId old comm enc nonce u) (hne : s.cellId ≠ cellId) :
    Holds (cellEffect env u cs) s cell := by
  exact ⟨(hu.replaces.slot_ne env hne).trans h.found, h.commitment, h.nonce, h.ciphertext⟩

/-! ## One transaction -/

section One
variable {env : Env} {w : World} {tx : Transaction}

/-- **What an accepted transaction supplies is what the cells hold.** -/
theorem stored_of_accepted (hkind : IsPrivateBalance tx.intent) (hok : (runTransaction env tx w).1.isOk = true) :
    ∀ s ∈ supplied tx.intent, ∃ cell, Holds (runTransaction env tx w).2.state.cells s cell := by
  rcases @runTransaction_cells env w tx hkind with ⟨hfail, -⟩ | ⟨-, pb, hpb, hcells⟩
  · rw [hfail] at hok
    cases hok
  rw [hcells]
  cases hi : tx.intent with
  | privateBalanceInit cellId agentId enc comm nonce =>
    rw [hi] at hpb
    obtain ⟨cell, cipher, -, hus, hcipher, hstorage⟩ := circuitInit_writes hpb
    rw [hus, runAll_cons, runAll_nil, supplied, List.forall_mem_singleton]
    exact ⟨cell, @holds_deploy _ _ env _ ⟨cellId, comm, nonce, enc⟩ _ _ hcipher hstorage⟩
  | privateBalanceDeposit cellId agentId amount enc comm nonce old =>
    rw [hi] at hpb
    obtain ⟨u, hus, hu⟩ := circuitDeposit_writes hpb
    rw [hus, runAll_cons, runAll_nil, supplied, List.forall_mem_singleton]
    exact @holds_writes _ env ⟨cellId, comm, nonce, enc⟩ _ _ hu
  | privateBalanceWithdraw cellId agentId amount recipient enc comm nonce old =>
    rw [hi] at hpb
    obtain ⟨u, hus, hu⟩ := circuitWithdraw_writes hpb
    rw [hus, runAll_cons, runAll_nil, supplied, List.forall_mem_singleton]
    exact @holds_writes _ env ⟨cellId, comm, nonce, enc⟩ _ _ hu
  | privateBalanceConfidentialTransfer sCell sAgent rCell amt proof sEnc sNew sNonce sOld rEnc rNew rNonce
      rOld =>
    rw [hi] at hpb
    obtain ⟨-, hne, u, v, hus, hu, hv⟩ := circuitConfidentialTransfer_writes hpb
    have hv' : Writes (cellEffect env u w.state.cells) rCell rOld rNew rEnc rNonce v := by
      obtain ⟨cell, cipher, extra, hcell, hrest⟩ := hv
      exact ⟨cell, cipher, extra, (hu.replaces.slot_ne env (Ne.symm hne)).trans hcell, hrest⟩
    rw [hus, runAll_cons, runAll_cons, runAll_nil, supplied]
    simp only [List.forall_mem_cons, List.not_mem_nil, false_implies, implies_true, and_true]
    obtain ⟨cell, hcell⟩ := @holds_writes _ env ⟨sCell, sNew, sNonce, sEnc⟩ _ _ hu
    exact ⟨⟨cell, hcell.frame env hv' hne⟩, @holds_writes _ env ⟨rCell, rNew, rNonce, rEnc⟩ _ _ hv'⟩
  | _ =>
    rw [hi] at hkind
    exact hkind.elim

/-- The cells that the intent writes open. -/
def AllOpen (c : Rescue) (blake3 : Bytes → Bytes32) (cs : CellState) (intent : TransactionIntent) : Prop :=
  ∀ s ∈ supplied intent, ∃ cell, slot cs.cells s.cellId = some cell ∧ CellOpens c blake3 cell

/-- **When the cells of an accepted transaction open.** -/
theorem allOpen_iff (c : Rescue) (hkind : IsPrivateBalance tx.intent)
    (hok : (runTransaction env tx w).1.isOk = true) :
    AllOpen c env.blake3 (runTransaction env tx w).2.state.cells tx.intent ↔
      ∀ s ∈ supplied tx.intent, s.Computed c env.blake3 := by
  refine forall₂_congr fun s hs => ?_
  obtain ⟨cell, hcell⟩ := stored_of_accepted hkind hok s hs
  rw [← hcell.opens_iff, hcell.found]
  constructor
  · rintro ⟨_, hfound, hopen⟩
    obtain rfl := Option.some.inj hfound
    exact hopen
  · exact fun hopen => ⟨cell, rfl, hopen⟩

end One

/-- **What the commitments bind**: openings that do not collide; 32-byte arrays that do not, and the digest
gives those back whose words are below the modulus; an accepted transaction leaves cells that open iff it
supplies commitments that were computed from its nonces and ciphertexts. -/
theorem commitments_bind_iff (c : Rescue) (env : Env) {O : Set Opening}
    (hdigest : Set.InjOn (digestOfInput c) (Opening.input env.blake3 '' O))
    (hhash : Set.InjOn (ctHashLo16 env.blake3) (Opening.ciphertext '' O)) :
    (∀ o ∈ O, ∀ o' ∈ O,
      Binds c env.blake3 o o' ↔ ¬ Collide (o.words env.blake3) (o'.words env.blake3)) ∧
    (∀ b b', (bytesToDigest b = bytesToDigest b' → b = b') ↔ ¬ Collide (wordOf b) (wordOf b')) ∧
    (∀ b, digestToBytes (bytesToDigest b) = b ↔ ∀ i, wordOf b i < modulus) ∧
    ∀ w tx, IsPrivateBalance tx.intent → (runTransaction env tx w).1.isOk = true →
      (AllOpen c env.blake3 (runTransaction env tx w).2.state.cells tx.intent ↔
        ∀ s ∈ supplied tx.intent, s.Computed c env.blake3) :=
  ⟨fun _ ho _ ho' => binds_iff c env.blake3 hdigest hhash ho ho', bytesToDigest_injective_iff,
    digestToBytes_bytesToDigest_iff, fun _ _ hkind hok => allOpen_iff c hkind hok⟩

/-! ### A commitment of two balances, and one of none -/

def openingOf (balance : BitVec 128) : Opening := ⟨balance, 1, blank⟩

def sealCell : Transaction := ⟨1, .privateBalanceInit agentCell 2 blank (BitVec.allOnes 256) 1, [], 1, 0, 7, 10⟩

/-- The third-party code, on the inputs that occur here. -/
def sealEnv : Env :=
  { privateEnv with
    blake3 := fun bs => if bs = blank then 0x7d86d726212aaaf9ca792cf345d241066f225a6467c34c1ece287afbd920c8a9
      else if bs = privateTxBytes sealCell then
        0xb90cfd57def85b940e88d3e2a36ef0eee20cde2b75a39042eba13298395bb821
      else privateEnv.blake3 bs }

theorem computed_words_lt {c : Rescue} {blake3 : Bytes → Bytes32} {s : Supplied}
    (h : s.Computed c blake3) (i : Fin 4) :
    wordOf s.commitment i < modulus := by
  obtain ⟨balance, hcomm⟩ := h
  rw [← hcomm, computeCommitment, wordOf_digestToBytes]
  exact val_lt _

theorem input_zero_modulus (blake3 : Bytes → Bytes32) :
    (openingOf modulus).input blake3 = (openingOf 0).input blake3 := by
  rw [input_eq_iff]
  intro i
  fin_cases i
  · show Meet ((modulus : BitVec 128).toNat % 2 ^ 64) ((0 : BitVec 128).toNat % 2 ^ 64)
    decide
  · show Meet ((modulus : BitVec 128).toNat / 2 ^ 64) ((0 : BitVec 128).toNat / 2 ^ 64)
    decide
  all_goals exact .inl rfl

theorem injOn_zero_modulus {α β : Type} {f : Opening → α} (h : f (openingOf modulus) = f (openingOf 0))
    (g : α → β) :
    Set.InjOn g (f '' {openingOf 0, openingOf modulus}) := by
  rw [Set.image_pair, h, Set.pair_eq_singleton]
  exact Set.injOn_singleton _ _

/-- The balance 0 is not told apart from the modulus; words of all ones do not come back, and the cell that is
made with them does not open. -/
theorem zero_meets_modulus :
    ¬ Binds (rp64 0 0) sealEnv.blake3 (openingOf 0) (openingOf modulus) ∧
      digestToBytes (bytesToDigest (BitVec.allOnes 256)) ≠ BitVec.allOnes 256 ∧
      ¬ AllOpen (rp64 0 0) sealEnv.blake3 (runTransaction sealEnv sealCell privateWorld).2.state.cells
        sealCell.intent := by
  obtain ⟨hbind, -, hback, hopen⟩ := commitments_bind_iff (rp64 0 0) sealEnv
    (injOn_zero_modulus (input_zero_modulus _) _) (@injOn_zero_modulus _ _ Opening.ciphertext rfl _)
  have hword : ¬ wordOf (BitVec.allOnes 256) 0 < modulus := by decide +kernel
  refine ⟨?_, ?_, ?_⟩
  · rw [hbind _ (by simp) _ (by simp), not_not]
    refine ⟨fun h => ?_, (input_eq_iff _ _ _).mp (input_zero_modulus _).symm⟩
    exact absurd (congrFun h 0) (by decide +kernel)
  · exact fun h => hword ((hback _).mp h 0)
  · rw [hopen privateWorld sealCell trivial (by decide +kernel)]
    exact fun h => hword (computed_words_lt (h _ List.mem_cons_self) 0)

/-- Two openings of one commitment, two 32-byte arrays with one digest, one of which does not come back, and
an accepted transaction that leaves a cell that no balance opens. -/
theorem commitment_of_two_balances :
    Set.InjOn (digestOfInput (rp64 0 0)) (Opening.input sealEnv.blake3 '' {openingOf 0, openingOf modulus}) ∧
      Set.InjOn (ctHashLo16 sealEnv.blake3) (Opening.ciphertext '' {openingOf 0, openingOf modulus}) ∧
      modulus ≤ maxPrivateBalance ∧ ¬ Binds (rp64 0 0) sealEnv.blake3 (openingOf 0) (openingOf modulus) ∧
      bytesToDigest (BitVec.allOnes 256) =
        bytesToDigest 0xfeffffff00000000feffffff00000000feffffff00000000feffffff00000000 ∧
      digestToBytes (bytesToDigest (BitVec.allOnes 256)) ≠ BitVec.allOnes 256 ∧
      (runTransaction sealEnv sealCell privateWorld).1.isOk = true ∧
      ¬ AllOpen (rp64 0 0) sealEnv.blake3 (runTransaction sealEnv sealCell privateWorld).2.state.cells
        sealCell.intent := by
  have hword : ¬ wordOf (BitVec.allOnes 256) 0 < modulus := by decide +kernel
  have hok : (runTransaction sealEnv sealCell privateWorld).1.isOk = true := by decide +kernel
  refine ⟨injOn_zero_modulus (input_zero_modulus _) _,
    @injOn_zero_modulus _ _ Opening.ciphertext rfl _, by decide, ?_, ?_, ?_, hok, ?_⟩
  · intro h
    have hopen : computeCommitment (rp64 0 0) sealEnv.blake3 modulus 1 blank =
        computeCommitment (rp64 0 0) sealEnv.blake3 0 1 blank :=
      congrArg (fun s => digestToBytes (digestOfInput (rp64 0 0) s)) (input_zero_modulus sealEnv.blake3)
    have hsame := h _ (verifyCommitment_eq_ok.mpr rfl) (verifyCommitment_eq_ok.mpr hopen)
    exact absurd (congrArg Opening.balance hsame) (by decide)
  · funext i
    revert i
    decide +kernel
  · rw [ne_eq, digestToBytes_bytesToDigest_iff]
    exact fun h => hword (h 0)
  · have hkind : IsPrivateBalance sealCell.intent := trivial
    rw [allOpen_iff _ hkind hok]
    exact fun h => hword (computed_words_lt (h _ List.mem_cons_self) 0)

end TruthLinked.Ledger.Commitments
