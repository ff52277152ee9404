import TruthLinked.Ledger.Records
import TruthLinked.Ledger.Runs

/-! # Who owns an NFT

The owner of an NFT is written twice: in its record and in the list of its owner's account. Whatever a
transaction is, it changes the two together or not at all (`change_transaction`), also when its diff is
refused halfway: the intents that move an NFT are never refused by `apply_diff`, and the others write the
lists back as they were. So in every run from a genesis state the two agree (`nft_ownership`). -/

namespace TruthLinked.Ledger.NftOwnership

open Core.Types Runtime.Types Staking.State Ledger.Model Ledger.Phases Ledger.Execution Ledger.Compute
open Ledger.ComputeCells Ledger.Apply Ledger.ApplySpec Ledger.ComputeSpec Ledger.Coverage Ledger.Executor
open Ledger.MergeAgreement Ledger.Records Ledger.Runs Lib.Except Lib.Keyed Lib.Phase Lib.Run Lib.Wp

variable {nft : NFTRecord}

/-! ## The two places -/

/-- The lists of the accounts and the records of the NFTs. -/
structure Nfts where
  lists : AccountId → List Bytes32
  records : Map Bytes32 NFTRecord

/-- What a state says about NFTs. -/
def nftView (s : State) : Nfts := ⟨nftsOf s.accounts, s.nfts⟩

/-- An account lists just the NFTs whose record names it, each once. -/
structure Ownership (v : Nfts) : Prop where
  listed : ∀ a id, id ∈ v.lists a ↔ ∃ nft, v.records[id]? = some nft ∧ nft.owner = a
  nodup : ∀ a, (v.lists a).Nodup

/-- The lists with `id` taken out of that of `owner`. -/
def takenFrom (owner : AccountId) (id : Bytes32) (lists : AccountId → List Bytes32) (a : AccountId) :
    List Bytes32 :=
  if a = owner then (lists a).filter fun i => decide (i ≠ id) else lists a

/-- The lists with `id` added to that of `recipient`. -/
def givenTo (recipient : AccountId) (id : Bytes32) (lists : AccountId → List Bytes32) (a : AccountId) :
    List Bytes32 :=
  if a = recipient then lists a ++ [id] else lists a

/-- What a transaction of `sender` can do to the NFTs. -/
inductive Change (sender : AccountId) (v : Nfts) : Nfts → Prop where
  | none : Change sender v v
  | mint (id : Bytes32) (record : NFTRecord) (free : v.records[id]? = Option.none)
      (owner : record.owner = sender) :
      Change sender v ⟨givenTo sender id v.lists, v.records.insert id record⟩
  | move (id : Bytes32) (nft : NFTRecord) (recipient : AccountId) (known : v.records[id]? = some nft)
      (allowed : sender = nft.owner ∨ nft.approved = some sender) :
      Change sender v
        ⟨givenTo recipient id (takenFrom nft.owner id v.lists),
          v.records.insert id { nft with owner := recipient, approved := Option.none }⟩
  | burn (id : Bytes32) (mine : id ∈ v.lists sender) :
      Change sender v ⟨takenFrom sender id v.lists, v.records.erase id⟩
  | approve (id : Bytes32) (nft : NFTRecord) (operator : Option AccountId) (known : v.records[id]? = some nft) :
      Change sender v ⟨v.lists, v.records.insert id { nft with approved := operator }⟩

section Lists
variable {lists : AccountId → List Bytes32} {a b : AccountId} {id i : Bytes32}

theorem mem_takenFrom : i ∈ takenFrom b id lists a ↔ i ∈ lists a ∧ ¬ (a = b ∧ i = id) := by
  unfold takenFrom
  split_ifs with ha
  · simp [ha]
  · simp [ha]

theorem mem_givenTo : i ∈ givenTo b id lists a ↔ i ∈ lists a ∨ (a = b ∧ i = id) := by
  unfold givenTo
  split_ifs with ha
  · simp [ha]
  · simp [ha]

theorem nodup_takenFrom (h : (lists a).Nodup) : (takenFrom b id lists a).Nodup := by
  unfold takenFrom
  split_ifs
  · exact h.filter _
  · exact h

theorem nodup_givenTo (h : (lists a).Nodup) (hnew : id ∉ lists a) : (givenTo b id lists a).Nodup := by
  unfold givenTo
  split_ifs
  · rw [← List.concat_eq_append]
    exact h.concat hnew
  · exact h

end Lists

section Change
variable {sender : AccountId} {v v' : Nfts}

theorem Ownership.notMem_of_none (h : Ownership v) {id : Bytes32} (hfree : v.records[id]? = none)
    (a : AccountId) :
    id ∉ v.lists a := by
  intro hin
  obtain ⟨nft, hnft, -⟩ := (h.listed a id).mp hin
  rw [hfree] at hnft
  cases hnft

theorem Ownership.owner_of_mem (h : Ownership v) {id : Bytes32} (hnft : v.records[id]? = some nft)
    {a : AccountId} (hin : id ∈ v.lists a) : a = nft.owner := by
  obtain ⟨n, hn, hown⟩ := (h.listed a id).mp hin
  rw [hnft] at hn
  cases hn
  exact hown.symm

theorem getElem?_insert_record (m : Map Bytes32 NFTRecord) (id i : Bytes32) (nft : NFTRecord) :
    (m.insert id nft)[i]? = if id = i then some nft else m[i]? := slot_insert m id i nft

theorem getElem?_erase_record (m : Map Bytes32 NFTRecord) (id i : Bytes32) :
    (m.erase id)[i]? = if id = i then none else m[i]? := slot_erase m id i

theorem exists_insert_iff (m : Map Bytes32 NFTRecord) (id i : Bytes32) (nft : NFTRecord) (a : AccountId) :
    (∃ n, (m.insert id nft)[i]? = some n ∧ n.owner = a) ↔
      (i = id ∧ nft.owner = a) ∨ (i ≠ id ∧ ∃ n, m[i]? = some n ∧ n.owner = a) := by
  rw [getElem?_insert_record]
  by_cases hi : id = i
  · subst hi
    simp
  · have hi' : i ≠ id := fun heq => hi heq.symm
    simp [hi, hi']

theorem Ownership.mint (h : Ownership v) {id : Bytes32} {record : NFTRecord} (free : v.records[id]? = none)
    (owner : record.owner = sender) : Ownership ⟨givenTo sender id v.lists, v.records.insert id record⟩ := by
  have hnot := h.notMem_of_none free
  refine ⟨fun a i => ?_, fun a => nodup_givenTo (h.nodup a) (hnot a)⟩
  rw [exists_insert_iff, owner, mem_givenTo, ← h.listed]
  constructor
  · rintro (hin | ⟨rfl, rfl⟩)
    · refine .inr ⟨?_, hin⟩
      rintro rfl
      exact hnot a hin
    · exact .inl ⟨rfl, rfl⟩
  · rintro (⟨rfl, rfl⟩ | ⟨-, hin⟩)
    · exact .inr ⟨rfl, rfl⟩
    · exact .inl hin

theorem Ownership.move (h : Ownership v) {id : Bytes32} (recipient : AccountId)
    (known : v.records[id]? = some nft) :
    Ownership ⟨givenTo recipient id (takenFrom nft.owner id v.lists),
      v.records.insert id { nft with owner := recipient, approved := none }⟩ := by
  have hrest : ∀ a i, i ∈ takenFrom nft.owner id v.lists a ↔ i ≠ id ∧ i ∈ v.lists a := by
    intro a i
    rw [mem_takenFrom]
    constructor
    · rintro ⟨hin, hnot⟩
      refine ⟨?_, hin⟩
      rintro rfl
      exact hnot ⟨h.owner_of_mem known hin, rfl⟩
    · rintro ⟨hne, hin⟩
      exact ⟨hin, fun heq => hne heq.2⟩
  refine ⟨fun a i => ?_, fun a => nodup_givenTo (nodup_takenFrom (h.nodup a)) fun hin => ?_⟩
  · rw [exists_insert_iff, mem_givenTo, hrest, ← h.listed]
    constructor
    · rintro (hin | ⟨rfl, rfl⟩)
      · exact .inr hin
      · exact .inl ⟨rfl, rfl⟩
    · rintro (⟨rfl, rfl⟩ | hin)
      · exact .inr ⟨rfl, rfl⟩
      · exact .inl hin
  · exact ((hrest a id).mp hin).1 rfl

theorem Ownership.burn (h : Ownership v) {id : Bytes32} (mine : id ∈ v.lists sender) :
    Ownership ⟨takenFrom sender id v.lists, v.records.erase id⟩ := by
  obtain ⟨nft, hnft, hown⟩ := (h.listed sender id).mp mine
  refine ⟨fun a i => ?_, fun a => nodup_takenFrom (h.nodup a)⟩
  show _ ↔ ∃ n, (v.records.erase id)[i]? = some n ∧ n.owner = a
  rw [getElem?_erase_record, mem_takenFrom]
  by_cases hi : id = i
  · subst hi
    rw [if_pos rfl]
    constructor
    · rintro ⟨hin, hnot⟩
      exact absurd ⟨(h.owner_of_mem hnft hin).trans hown, rfl⟩ hnot
    · rintro ⟨n, hn, -⟩
      cases hn
  · rw [if_neg hi, ← h.listed]
    exact ⟨fun hin => hin.1, fun hin => ⟨hin, fun heq => hi heq.2.symm⟩⟩

theorem Ownership.approve (h : Ownership v) {id : Bytes32} (operator : Option AccountId)
    (known : v.records[id]? = some nft) :
    Ownership ⟨v.lists, v.records.insert id { nft with approved := operator }⟩ := by
  refine ⟨fun a i => ?_, h.nodup⟩
  rw [exists_insert_iff, h.listed]
  constructor
  · rintro ⟨n, hn, hown⟩
    by_cases hi : i = id
    · rw [hi, known] at hn
      cases hn
      exact .inl ⟨hi, hown⟩
    · exact .inr ⟨hi, n, hn, hown⟩
  · rintro (⟨rfl, hown⟩ | ⟨-, hin⟩)
    · exact ⟨nft, known, hown⟩
    · exact hin

/-- **The two places are changed together.** -/
theorem Ownership.change (h : Ownership v) (hc : Change sender v v') : Ownership v' := by
  cases hc with
  | none => exact h
  | mint id record free owner => exact h.mint free owner
  | move id nft recipient known allowed => exact h.move recipient known
  | burn id mine => exact h.burn mine
  | approve id nft operator known => exact h.approve operator known

/-- **Only the owner or the approved operator takes an NFT from its owner.** -/
theorem Ownership.authorised (h : Ownership v) (hc : Change sender v v') {id : Bytes32}
    (hnft : v.records[id]? = some nft) (hchanged : (v'.records[id]?).map NFTRecord.owner ≠ some nft.owner) :
    sender = nft.owner ∨ nft.approved = some sender := by
  cases hc with
  | none =>
    rw [hnft] at hchanged
    exact absurd rfl hchanged
  | mint i record free owner =>
    rw [getElem?_insert_record] at hchanged
    split_ifs at hchanged with hi
    · rw [hi, hnft] at free
      cases free
    · rw [hnft] at hchanged
      exact absurd rfl hchanged
  | move i n recipient known allowed =>
    rw [getElem?_insert_record] at hchanged
    split_ifs at hchanged with hi
    · rw [hi, hnft] at known
      cases known
      exact allowed
    · rw [hnft] at hchanged
      exact absurd rfl hchanged
  | burn i mine =>
    rw [getElem?_erase_record] at hchanged
    split_ifs at hchanged with hi
    · rw [hi] at mine
      obtain ⟨n, hn, hown⟩ := (h.listed sender id).mp mine
      rw [hnft] at hn
      cases hn
      exact .inl hown.symm
    · rw [hnft] at hchanged
      exact absurd rfl hchanged
  | approve i n operator known =>
    rw [getElem?_insert_record] at hchanged
    split_ifs at hchanged with hi
    · rw [hi, hnft] at known
      cases known
      exact absurd rfl hchanged
    · rw [hnft] at hchanged
      exact absurd rfl hchanged

end Change

/-! ## The records of a diff -/

/-- The NFTs of an account once the records are in. -/
def listIn (m : Accounts) (updates : Map AccountId AccountRecord) (a : AccountId) : List Bytes32 :=
  ((slot updates a).map AccountRecord.nfts).getD (nftsOf m a)

section Records
variable {env : Env} {w : World} {tx : Transaction} {account : AccountRecord} {m : Accounts}
  {updates : Map AccountId AccountRecord} {a b : AccountId} {r : AccountRecord} {d : StateDiff}

theorem listIn_copied (h : Copied True m updates) (a : AccountId) : listIn m updates a = nftsOf m a := by
  unfold listIn
  cases hr : slot updates a with
  | none => rfl
  | some r => exact (h a r hr).2 trivial

theorem listIn_insert : listIn m (updates.insert b r) a = if a = b then r.nfts else listIn m updates a := by
  unfold listIn
  rw [slot_insert]
  by_cases hab : b = a
  · rw [if_pos hab, if_pos hab.symm]
    rfl
  · have hba : ¬ a = b := fun heq => hab heq.symm
    rw [if_neg hab, if_neg hba]

theorem listIn_of_or (h : updates[a]?.or m[a]? = some r) : listIn m updates a = r.nfts := by
  unfold listIn
  cases hu : updates[a]? with
  | some u =>
    rw [hu, Option.some_or] at h
    cases h
    rw [slot, hu]
    rfl
  | none =>
    rw [hu, Option.none_or] at h
    rw [slot, hu]
    exact nftsOf_some h

theorem listIn_takeNft (id : Bytes32) (owner : AccountId) :
    Ensures (takeNft w.state id owner updates) fun u =>
      ∀ a, listIn w.state.accounts u a = takenFrom owner id (listIn w.state.accounts updates) a := by
  simp only [takeNft, ensures_bind, ensures_okOr, ensures_pure]
  intro record hrecord a
  rw [listIn_insert, takenFrom]
  split_ifs with ha
  · rw [ha, listIn_of_or hrecord]
  · rfl

theorem listIn_giveNft (id : Bytes32) (recipient : AccountId) (pubkey : Bytes) :
    Ensures (giveNft w.state id recipient pubkey updates) fun u =>
      ∀ a, listIn w.state.accounts u a = givenTo recipient id (listIn w.state.accounts updates) a := by
  have hadd : ∀ {r r' : AccountRecord}, listIn w.state.accounts updates recipient = r.nfts →
      r'.nfts = r.nfts ++ [id] → ∀ a, listIn w.state.accounts (updates.insert recipient r') a =
        givenTo recipient id (listIn w.state.accounts updates) a := by
    intro r r' hr hr' a
    rw [listIn_insert, givenTo]
    split_ifs with ha
    · rw [ha, hr, hr']
    · rfl
  rw [giveNft]
  split
  · rename_i record hrecord
    refine ensures_pure.mpr (hadd (r := record) (listIn_of_or ?_) rfl)
    rw [hrecord, Option.some_or]
  · rename_i hnone
    cases hex : w.state.accounts[recipient]? with
    | some existing =>
      simp only [ensures_bind, ensures_pure, ensures_failIf]
      refine fun _ => hadd (r := existing) (listIn_of_or ?_) rfl
      rw [hnone, hex, Option.none_or]
    | none =>
      simp only [ensures_bind, ensures_pure, ensures_failIf]
      refine fun _ _ => hadd (r := AccountRecord.fresh pubkey) ?_ rfl
      rw [listIn, slot, hnone, nftsOf, slot, hex]
      rfl

theorem local_nftUpdates : Local slot Prod.fst
    (fun (u : Bytes32 × Option NFTRecord) (m : Map Bytes32 NFTRecord) =>
      match u.2 with
      | some n => m.insert u.1 n
      | none => m.erase u.1)
    (fun u _ => u.2) := by
  refine ⟨fun u m => ?_, fun u m i h => ?_⟩
  · cases hu : u.2 with
    | none => rw [slot_erase, if_pos rfl]
    | some n => rw [slot_insert, if_pos rfl]
  · cases hu : u.2 with
    | none => rw [slot_erase, if_neg h]
    | some n => rw [slot_insert, if_neg h]

theorem slot_nftUpdates (updates : Map Bytes32 (Option NFTRecord)) (m : Map Bytes32 NFTRecord) (id : Bytes32) :
    slot (nftUpdates updates m) id = (slot updates id).getD (slot m id) := by
  have h := local_nftUpdates.run id updates.toList m
  rw [pick_toList] at h
  refine h.trans ?_
  cases slot updates id with
  | none => rfl
  | some x => rfl

theorem nftUpdates_insert (id : Bytes32) (nft : NFTRecord) (m : Map Bytes32 NFTRecord) :
    nftUpdates ((∅ : Map Bytes32 (Option NFTRecord)).insert id (some nft)) m = m.insert id nft := by
  refine slot_ext fun i => ?_
  rw [slot_nftUpdates, slot_insert, slot_insert]
  split_ifs
  · rfl
  · rfl

theorem nftUpdates_erase (id : Bytes32) (m : Map Bytes32 NFTRecord) :
    nftUpdates ((∅ : Map Bytes32 (Option NFTRecord)).insert id none) m = m.erase id := by
  refine slot_ext fun i => ?_
  rw [slot_nftUpdates, slot_insert, slot_erase]
  split_ifs
  · rfl
  · rfl

/-! ## A diff that is applied -/

theorem nfts_applied (env : Env) (d : StateDiff) (w : World) :
    (applied env d w).state.nfts = nftUpdates d.nftUpdates w.state.nfts := by
  have hnames : ∀ w, (applyNames env d w).state.nfts = w.state.nfts := by
    intro w
    simp only [applyNames, World.onState_state, freezeAccounts, countMinted, settleNames, recordClaims,
      transferNames, renewNames, tokenAuthorityVotes, proposeNames, addTokenAuthorityProposals, registerNames]
  have hbefore : (beforeNameFee env d w).state.nfts =
      nftUpdates d.nftUpdates (recordTransaction d w.state).nfts :=
    rfl
  rw [applied, runAll_frame (v := fun w : World => w.state.nfts) (nfts_oracleEffect env), hnames]
  simp only [World.onState_state, spent]
  have hfee := congrArg Prod.snd (@recordView_payNameFee env d.nameFee (beforeNameFee env d w).state)
  have hrecord := congrArg Prod.snd (recordView_recordTransaction d w.state)
  exact hfee.trans (hbefore.trans (congrArg (nftUpdates d.nftUpdates) hrecord))

theorem nftView_applied (env : Env) (d : StateDiff) (w : World) :
    nftView (applied env d w).state =
      ⟨listIn w.state.accounts d.accountUpdates, nftUpdates d.nftUpdates w.state.nfts⟩ := by
  rw [nftView, nfts_applied]
  have hlists : nftsOf (applied env d w).state.accounts = listIn w.state.accounts d.accountUpdates :=
    funext fun a => nftsOf_applied env d w a
  rw [hlists]

/-- The fees write the sender's record back with the NFTs that the handler left. -/
theorem listIn_withFees (hacc : w.state.accounts[tx.sender]? = some account) (f : Fees) (d : StateDiff) :
    listIn w.state.accounts (withFees tx.sender account f d).accountUpdates =
      listIn w.state.accounts d.accountUpdates := by
  have hentry : ((d.accountUpdates[tx.sender]?).getD account).nfts =
      listIn w.state.accounts d.accountUpdates tx.sender := by
    unfold listIn
    cases hu : d.accountUpdates[tx.sender]? with
    | some u =>
      rw [slot, hu]
      rfl
    | none =>
      rw [slot, hu]
      exact (nftsOf_some hacc).symm
  funext a
  rw [withFees_accountUpdates, listIn_insert]
  split_ifs with ha
  · rw [ha]
    exact hentry
  · rw [ha]
    exact hentry
  · rfl

/-! ## The four intents -/

/-- The intents that write NFTs. -/
def WritesNft : TransactionIntent → Prop
  | .mintNFT .. | .transferNFT .. | .burnNFT .. | .approveNFT .. => True
  | _ => False

/-- What the handler of an intent asks for. -/
def asksFor (w : World) (d : StateDiff) : Nfts :=
  ⟨listIn w.state.accounts d.accountUpdates, nftUpdates d.nftUpdates w.state.nfts⟩

theorem listIn_empty (m : Accounts) : listIn m ∅ = nftsOf m := by
  funext a
  exact listIn_copied (copied_empty True m) a

theorem change_mint (nftId : Bytes32) (name uri : String) (collection : Option Bytes32) (bps : ℕ)
    (recipient : Option AccountId) (timestamp : ℕ) :
    Ensures (computeMintNftDiff env w (start env tx) tx.sender nftId name uri collection bps recipient timestamp)
      fun d => Change tx.sender (nftView w.state) (asksFor w d) := by
  simp only [computeMintNftDiff, ensures_bind, ensures_failIf, ensures_okOr, ensures_pure]
  intro _ _ _ _ _ hfree account hacc
  have hlists : listIn w.state.accounts ((start env tx).accountUpdates.insert tx.sender
      { account with nfts := account.nfts ++ [nftId] }) = givenTo tx.sender nftId (nftsOf w.state.accounts) := by
    funext a
    rw [listIn_insert, givenTo]
    split_ifs with ha
    · rw [ha, nftsOf_some hacc]
    · exact congrFun (listIn_empty _) a
  simp only [asksFor, hlists]
  rw [show (start env tx).nftUpdates = ∅ from rfl, nftUpdates_insert]
  exact .mint (v := nftView w.state) nftId _ (Std.ExtTreeMap.getElem?_eq_none hfree) rfl

theorem change_transferNft (hacc : w.state.accounts[tx.sender]? = some account) (nftId : Bytes32)
    (recipient : AccountId) (pubkey : Bytes) (salePrice : Option ℕ) :
    Ensures (computeTransferNftDiff env w (start env tx) tx.sender nftId recipient pubkey salePrice account)
      fun d => Change tx.sender (nftView w.state) (asksFor w d) := by
  simp only [computeTransferNftDiff, ensures_bind, ensures_okOr, ensures_failIf]
  intro nft hnft hallowed
  refine (copied_payRoyalty (P := True) hacc nft salePrice).mono fun u1 h1 => ?_
  refine (listIn_takeNft nftId nft.owner).mono fun u2 h2 => ?_
  refine (listIn_giveNft nftId recipient pubkey).mono fun u3 h3 => ensures_pure.mpr ?_
  have hlists : listIn w.state.accounts u3 =
      givenTo recipient nftId (takenFrom nft.owner nftId (nftsOf w.state.accounts)) := by
    have hu1 : listIn w.state.accounts u1 = nftsOf w.state.accounts := funext fun a => listIn_copied h1 a
    have hu2 : listIn w.state.accounts u2 = takenFrom nft.owner nftId (nftsOf w.state.accounts) := by
      rw [← hu1]
      exact funext h2
    rw [← hu2]
    exact funext h3
  simp only [asksFor, hlists]
  rw [show (start env tx).nftUpdates = ∅ from rfl, nftUpdates_insert]
  refine .move (v := nftView w.state) nftId nft recipient hnft ?_
  by_contra hno
  push Not at hno
  exact hallowed ⟨fun heq => hno.1 heq.symm, hno.2⟩

theorem change_burn (hacc : w.state.accounts[tx.sender]? = some account) (nftId : Bytes32) :
    Ensures (computeBurnNftDiff env w (start env tx) tx.sender nftId account)
      fun d => Change tx.sender (nftView w.state) (asksFor w d) := by
  simp only [computeBurnNftDiff, ensures_bind, ensures_failIf, ensures_pure, not_not]
  intro hmine
  have hlists : listIn w.state.accounts (putRecord (start env tx) tx.sender
      { account with nfts := account.nfts.filter fun id => decide (id ≠ nftId) }) =
        takenFrom tx.sender nftId (nftsOf w.state.accounts) := by
    funext a
    rw [putRecord, listIn_insert, takenFrom]
    split_ifs with ha
    · rw [ha, nftsOf_some hacc]
    · exact congrFun (listIn_empty _) a
  simp only [asksFor, hlists]
  rw [show (start env tx).nftUpdates = ∅ from rfl, nftUpdates_erase]
  refine .burn (v := nftView w.state) nftId ?_
  show nftId ∈ nftsOf w.state.accounts tx.sender
  rwa [nftsOf_some hacc]

theorem change_approve (nftId : Bytes32) (operator : Option AccountId) :
    Ensures (computeApproveNftDiff env w (start env tx) nftId operator account)
      fun d => Change tx.sender (nftView w.state) (asksFor w d) := by
  simp only [computeApproveNftDiff, ensures_bind, ensures_failIf, ensures_okOr, ensures_pure]
  intro _ nft hnft
  simp only [asksFor]
  rw [show (start env tx).nftUpdates = ∅ from rfl, show (start env tx).accountUpdates = ∅ from rfl,
    nftUpdates_insert, listIn_empty]
  exact .approve (v := nftView w.state) nftId nft operator hnft

theorem change_computeIntent (hacc : w.state.accounts[tx.sender]? = some account) (timestamp : ℕ)
    {intent : TransactionIntent} (h : WritesNft intent) :
    Ensures (computeIntent env w (start env tx) tx.sender timestamp account intent)
      fun d => Change tx.sender (nftView w.state) (asksFor w d) := by
  cases intent with
  | mintNFT nftId name uri collection bps recipient => exact change_mint _ _ _ _ _ _ _
  | transferNFT nftId recipient pubkey salePrice => exact change_transferNft hacc _ _ _ _
  | burnNFT nftId => exact change_burn hacc _
  | approveNFT nftId operator => exact change_approve _ _
  | _ => exact h.elim

theorem nftUpdates_payValue (d : StateDiff) (value : ℕ) :
    (payValue d tx.sender value account).nftUpdates = d.nftUpdates := by
  unfold payValue
  split_ifs <;> rfl

theorem nftUpdates_callChain (calls : List CellCall) (gasLimit : ℕ) (allow : Bool) :
    Ensures (computeCallChainDiff env w (start env tx) tx.sender calls gasLimit account allow)
      fun d => d.nftUpdates = ∅ := by
  have hchain : ∀ (results : List ExecutionResult) (d : StateDiff),
      (results.foldl addChainResult d).nftUpdates = d.nftUpdates := by
    intro results
    induction results with
    | nil => exact fun _ => rfl
    | cons r results ih => exact fun d => ih _
  simp only [computeCallChainDiff, ensures_bind, ensures_failIf]
  intro _ _ _ _ _
  refine ensures_true.mono fun out _ => ?_
  rw [ensures_pure, nftUpdates_payValue]
  exact hchain out.2 _

theorem nftUpdates_computeIntent (timestamp : ℕ) {intent : TransactionIntent} (h : ¬ WritesNft intent) :
    Ensures (computeIntent env w (start env tx) tx.sender timestamp account intent)
      fun d => d.nftUpdates = ∅ := by
  cases intent with
  | mintNFT | transferNFT | burnNFT | approveNFT => exact absurd trivial h
  | stake | unstake | withdrawStake | unjail | proposeTokenAuthority | voteTokenAuthority | callSystem =>
    exact ensures_throw.mpr trivial
  | callCell cellId calldata value gasLimit =>
    simp only [computeIntent, computeCallCellDiff, callSystemCell, callVmCell, ensures_bind, ensures_failIf,
      ensures_okOr, ensures_ite, ensures_pure, nftUpdates_payValue]
    intro _ _ cell _ _ _
    exact ⟨fun _ _ => rfl, fun _ _ => ensures_true.mono fun _ _ => rfl⟩
  | callCellChain calls gasLimit => exact nftUpdates_callChain _ _ _
  | mcpToolCall agentId toolId calldata value gasLimit policyCellId logId time =>
    simp only [computeIntent, ensures_bind]
    exact ensures_true.mono fun _ _ => nftUpdates_callChain _ _ _
  | submitOracleReveal requestId body status =>
    simp only [computeIntent, computeOracleRevealDiff, ensures_bind, ensures_failIf, ensures_okOr,
      ensures_ite, ensures_pure]
    intro _ _ _ _ _ _ _ _ _ _
    exact ⟨fun _ => ensures_true.mono fun _ _ => rfl, fun _ => rfl⟩
  | _ =>
    simp only [computeIntent, computeTransferDiff, computeBatchTransferDiff, computeClaimDiff,
      computeRotateKeyDiff, computeDepositComputeDiff, computeWithdrawComputeDiff, computeWrapTrthDiff,
      computeUnwrapTrthDiff, computeDeployCellDiff, computeDeployTokenDiff, computeUpgradeCellDiff,
      computeTransferOwnershipDiff, computeMakeImmutableDiff, computeCloseCellDiff,
      computeProposeCellUpgradeDiff, computeProposeCellOwnershipTransferDiff,
      computeProposeCellMakeImmutableDiff, computeVoteCellProposalDiff, computeExecuteCellProposalDiff,
      computeTokenTransferDiff, computeTokenMintDiff, computeTokenBurnDiff, computeTokenFreezeDiff,
      computeProposeUrlDiff, computeVoteUrlDiff, computeReportMaliciousUrlDiff, computeSetCellVisibilityDiff,
      computeOracleCommitDiff, redeploy, takeCells, takePayments, ensures_bind, ensures_failIf, ensures_okOr,
      ensures_pure]
    repeat intro
    rfl

/-! ## A diff that is refused halfway -/

theorem stays_applyAccounts {d : StateDiff} {m : Accounts} (h : Copied True m d.accountUpdates) :
    Stays (fun m' => nftsOf m' = nftsOf m) (applyAccounts d) := by
  have hkeep : ∀ {α : Type} {x : ExceptT String (StateM Accounts) α}, Keeps marksOf x →
      Stays (fun m' => nftsOf m' = nftsOf m) x := by
    intro α x hx
    refine hx.stays fun s s' hs hsame => ?_
    rw [← hsame]
    exact funext fun a => congrArg Prod.snd (congrFun hs a)
  unfold applyAccounts nativeTransfers nativeDebits escrowCredits escrowDebits
  refine (hkeep (keeps_each (keeps_credit apart_balance _ _) _)).bind fun _ => ?_
  refine (hkeep (keeps_each (keeps_debit apart_balance _) _)).bind fun _ => ?_
  refine (hkeep (keeps_each (keeps_credit apart_escrow _ _) _)).bind fun _ => ?_
  refine (hkeep (keeps_each (keeps_debit apart_escrow _) _)).bind fun _ => ?_
  refine stays_modify fun m' hm' => funext fun a => ?_
  rw [nftsOf_raised, nftsOf_patched, hm']
  exact listIn_copied h a

theorem stays_onAccounts {s : State} {x : ExceptT String (StateM Accounts) Unit}
    (h : Stays (fun m => nftsOf m = nftsOf s.accounts) x) :
    Stays (fun w => nftView w.state = nftView s) (onAccounts x) := by
  intro w hw
  rw [onAccounts, outcome_zoom]
  exact congrArg₂ Nfts.mk (h _ (congrArg Nfts.lists hw)) (congrArg Nfts.records hw)

theorem nftUpdates_empty (m : Map Bytes32 NFTRecord) : nftUpdates ∅ m = m := by
  refine slot_ext fun i => ?_
  rw [slot_nftUpdates, show slot (∅ : Map Bytes32 (Option NFTRecord)) i = none from Std.ExtTreeMap.getElem?_empty]
  rfl

theorem nftView_applyDiff {d : StateDiff} {w : World} (hcopied : Copied True w.state.accounts d.accountUpdates)
    (hnfts : d.nftUpdates = ∅) : nftView (outcome (applyDiff env d) w).2.state = nftView w.state := by
  have hkeep : ∀ {α : Type} {x : StM α}, Keeps (fun w : World => recordView w.state) x →
      Stays (fun w' => nftView w'.state = nftView w.state) x := by
    intro α x hx
    refine hx.stays fun w₁ w₂ hsame hw => ?_
    rw [← hw]
    refine congrArg₂ Nfts.mk (funext fun a => ?_) (congrArg Prod.snd hsame)
    exact congrArg Prod.snd (congrFun (congrArg Prod.fst hsame) a)
  have hstays : Stays (fun w' => nftView w'.state = nftView w.state) (applyDiff env d) := by
    unfold applyDiff
    refine (hkeep (keeps_modifyState (recordView_recordTransaction d))).bind fun _ => ?_
    refine (stays_onAccounts (stays_applyAccounts hcopied)).bind fun _ => ?_
    refine (hkeep (keeps_each (keeps_stakingUpdate) _)).bind fun _ => ?_
    refine (hkeep (keeps_modify ?_)).bind fun _ => (hkeep (keeps_modifyState ?_)).bind fun _ => ?_
    · exact fun _ => rfl
    · intro s
      rw [hnfts, nftUpdates_empty]
    refine (hkeep (keeps_onCells _)).bind fun _ => (hkeep (keeps_applyBalances d)).bind fun _ => ?_
    refine (hkeep (keeps_modifyState (recordView_payNameFee _))).bind fun _ =>
      (hkeep (keeps_spendFees d)).bind fun _ => ?_
    refine (hkeep (keeps_modify (recordView_applyNames d))).bind fun _ => ?_
    exact hkeep (keeps_each keeps_applyOracleUpdate _)
  exact hstays w rfl

end Records

/-! ## Transactions and runs -/

section Runs
variable {env : Env} {w : World} {tx : Transaction}

theorem covers_of_writesNft (h : WritesNft tx.intent) : Covers env w tx := by
  unfold Covers
  cases hi : tx.intent with
  | mintNFT | transferNFT | burnNFT | approveNFT => trivial
  | _ =>
    rw [hi] at h
    exact h.elim

/-- **What one transaction does to the NFTs**, applied or not. -/
theorem change_transaction (env : Env) (tx : Transaction) (w : World) :
    Change tx.sender (nftView w.state) (nftView (runTransaction env tx w).2.state) := by
  cases hd : computeTransactionDiffSkipSig env w tx with
  | error e =>
    rw [runTransaction, hd]
    exact .none
  | ok d =>
    obtain ⟨account, d₁, f, hcheck, h1, hf, rfl⟩ := compute_eq_ok hd
    obtain ⟨-, hacc, -⟩ := checkTransaction_eq_ok hcheck
    by_cases hwrites : WritesNft tx.intent
    · rw [runTransaction_applied hd (covers_of_writesNft hwrites), nftView_applied, listIn_withFees hacc]
      exact change_computeIntent hacc tx.timestamp hwrites d₁ h1
    · have hmoves : ¬ MovesNft tx.intent := by
        intro hm
        cases hi : tx.intent with
        | mintNFT | transferNFT | burnNFT =>
          rw [hi] at hwrites
          exact hwrites trivial
        | _ =>
          rw [hi] at hm
          exact hm.elim
      rw [runTransaction_world hd, nftView_applyDiff (copied_compute hd fun _ => hmoves)
        (nftUpdates_computeIntent tx.timestamp hwrites d₁ h1)]
      exact .none

/-- Nobody else than the owner of an NFT or its approved operator takes it from its owner. -/
def OwnersKept (env : Env) (w : World) : Event → Prop
  | .settings _ => True
  | .transaction tx => ∀ (id : Bytes32) (nft : NFTRecord), w.state.nfts[id]? = some nft →
      (((runTransaction env tx w).2.state.nfts[id]?).map NFTRecord.owner ≠ some nft.owner) →
      tx.sender = nft.owner ∨ nft.approved = some tx.sender

/-- A state without NFTs, as genesis makes it. -/
def NoNfts (s : State) : Prop :=
  s.nfts = ∅ ∧ ∀ (a : AccountId) (r : AccountRecord), s.accounts[a]? = some r → r.nfts = []

theorem ownership_of_noNfts {s : State} (h : NoNfts s) : Ownership (nftView s) := by
  have hlists : ∀ a, nftsOf s.accounts a = [] := by
    intro a
    unfold nftsOf
    cases hr : slot s.accounts a with
    | none => rfl
    | some r => exact h.2 a r hr
  constructor
  · intro a id
    show id ∈ nftsOf s.accounts a ↔ ∃ nft : NFTRecord, s.nfts[id]? = some nft ∧ nft.owner = a
    rw [hlists, h.1]
    simp
  · intro a
    show (nftsOf s.accounts a).Nodup
    rw [hlists]
    exact List.nodup_nil

theorem ownership_step (h : Ownership (nftView w.state)) (e : Event) :
    Ownership (nftView (step env w e).state) := by
  cases e with
  | settings globals => exact h
  | transaction tx => exact h.change (change_transaction env tx w)

theorem ownersKept_step (h : Ownership (nftView w.state)) (e : Event) : OwnersKept env w e := by
  cases e with
  | settings globals => trivial
  | transaction tx => exact fun id nft hnft hchanged => h.authorised (change_transaction env tx w) hnft hchanged

theorem Ownership.count {v : Nfts} (h : Ownership v) {id : Bytes32}
    (hnft : v.records[id]? = some nft) (a : AccountId) :
    (v.lists a).count id = if a = nft.owner then 1 else 0 := by
  split_ifs with ha
  · exact List.count_eq_one_of_mem (h.nodup a) ((h.listed a id).mpr ⟨nft, hnft, ha.symm⟩)
  · exact List.count_eq_zero.mpr fun hin => ha (h.owner_of_mem hnft hin)

end Runs

/-- **Ownership of NFTs.** After every run of transactions from a genesis state, refused ones included, an
account lists just the NFTs whose record names it as the owner, each NFT is in the lists of all accounts
together exactly once, and along the run only the owner or the approved operator took an NFT from its
owner. -/
theorem nft_ownership (env : Env) (w : World) (es : List Event) (hgenesis : NoNfts w.state) :
    (∀ (a : AccountId) (id : Bytes32), id ∈ nftsOf (run (step env) w es).state.accounts a ↔
      ∃ nft : NFTRecord, (run (step env) w es).state.nfts[id]? = some nft ∧ nft.owner = a) ∧
    (∀ (id : Bytes32) (nft : NFTRecord), (run (step env) w es).state.nfts[id]? = some nft → ∀ a,
      (nftsOf (run (step env) w es).state.accounts a).count id = if a = nft.owner then 1 else 0) ∧
    Along (step env) (OwnersKept env) w es := by
  have hstart := ownership_of_noNfts hgenesis
  have hend : Ownership (nftView (run (step env) w es).state) :=
    (along_true w es).invariant (I := fun w => Ownership (nftView w.state))
    (fun _ e h _ => ownership_step h e) hstart
  refine ⟨hend.listed, fun id nft hnft a => hend.count hnft a, ?_⟩
  exact (along_true w es).imp_of_invariant (I := fun w => Ownership (nftView w.state))
    (fun _ e h _ => ownership_step h e) (fun _ e h _ => ownersKept_step h e) hstart

/-- The sample transfer, on a ledger without NFTs. -/
theorem nft_ownership_sample :
    NoNfts sampleState ∧ Along (step sampleEnv) (OwnersKept sampleEnv) sampleWorld
      [.transaction sampleTransfer] := by
  have hgenesis : NoNfts sampleState := by
    refine ⟨rfl, fun a r hr => ?_⟩
    have hall : (sampleState.accounts.toList.all fun e => e.2.nfts = []) = true := by decide +kernel
    have hin := Std.ExtTreeMap.mem_toList_iff_getElem?_eq_some.mpr hr
    exact of_decide_eq_true (List.all_eq_true.mp hall _ hin)
  exact ⟨hgenesis, (nft_ownership sampleEnv sampleWorld [.transaction sampleTransfer] hgenesis).2.2⟩

end TruthLinked.Ledger.NftOwnership
