import TruthLinked.Consensus.StateRoot
import TruthLinked.Core.Bytes
import TruthLinked.Lib.Codec

/-! # What the state root binds

The bytes under the state root can be read back section by section, so with an injective hash two states
have one root iff they agree in what the sections hold (`root_eq_iff_visible`). That is not the whole state:
the root leaves out the nonces, the minted total and other fields, and lists that it sorts first are bound
up to their order. -/

namespace TruthLinked.Consensus.RootBinding

open Core.Types Core.Bytes Runtime.Cells Runtime.Types Governance.Types Staking.State Oracle.Tally
open Ledger.Model Consensus.StateRoot Lib.Codec Lib.SortKey

/-- One more than `u32::MAX`: the counts of the encoding are of this type. -/
abbrev u32 : ℕ := 2 ^ 32

/-! ## Numbers and strings -/

theorem delimited_leBytes (k : ℕ) : Delimited (fun n => n < 256 ^ k) (leBytes k) id := by
  refine Delimited.of_length (n := k) ?_ ?_
  · intro a _
    exact length_leBytes k a
  · intro a b ha hb
    exact leBytes_inj ha hb

theorem delimited_u8 : Delimited (fun n => n < 2 ^ 8) hashU8 id := delimited_leBytes 1

theorem delimited_u16 : Delimited (fun n => n < 2 ^ 16) hashU16 id := delimited_leBytes 2

theorem delimited_u32 : Delimited (fun n => n < u32) (leBytes 4) id := delimited_leBytes 4

theorem delimited_u64 : Delimited (fun n => n < u64) hashU64 id := delimited_leBytes 8

theorem delimited_u128 : Delimited (fun n => n < u128) hashU128 id := delimited_leBytes 16

theorem delimited_bytes32 : Delimited (fun _ => True) ofBytes32 id := by
  refine Delimited.of_length (n := 32) ?_ ?_
  · intro a _
    exact length_ofBytes32 a
  · intro a b _ _
    have ha : a.toNat < 256 ^ 32 := a.isLt
    have hb : b.toNat < 256 ^ 32 := b.isLt
    rw [ofBytes32, ofBytes32, beBytes, beBytes, List.reverse_inj, leBytes_inj ha hb, BitVec.toNat_inj]
    rfl

theorem delimited_bool : Delimited (fun _ => True) hashBool id := by
  refine Delimited.of_length (n := 1) ?_ ?_
  · intro a _
    rfl
  · intro a b _ _
    revert a b
    decide

theorem delimited_items {α γ : Type} {P : α → Prop} {hash : α → Bytes} {view : α → γ}
    (h : Delimited P hash view) :
    Delimited (fun l : List α => l.length < u32 ∧ ∀ a ∈ l, P a) (hashItems hash) (List.map view) :=
  h.counted delimited_u32

theorem delimited_bytes : Delimited (fun bytes : Bytes => bytes.length < u32) hashBytes id := by
  have hbyte : Delimited (fun _ : UInt8 => True) (fun b => [b]) id := by
    refine Delimited.of_length (n := 1) ?_ ?_
    · intro a _
      rfl
    · intro a b _ _
      simp
  have hitems := delimited_items hbyte
  have hflat : ∀ bytes : Bytes, hashItems (fun b => [b]) bytes = hashBytes bytes := by
    intro bytes
    simp [hashItems, hashBytes]
  rw [funext hflat] at hitems
  refine hitems.to ?_ ?_
  · intro a ha
    exact ⟨ha, fun _ _ => trivial⟩
  · intro a b
    simp

theorem delimited_string :
    Delimited (fun value : String => value.toUTF8.toList.length < u32) hashString id := by
  refine (delimited_bytes.on fun value : String => value.toUTF8.toList).to ?_ ?_
  · intro a ha
    exact ha
  · intro a b
    exact toUTF8_toList_inj

theorem delimited_option {α γ : Type} {P : α → Prop} {hash : α → Bytes} {view : α → γ}
    (h : Delimited P hash view) :
    Delimited (fun o : Option α => ∀ a ∈ o, P a) (hashOption hash) (Option.map view) := by
  have hopt := h.option (show (1 : UInt8) ≠ 0 by decide)
  refine fun o o' ho ho' r s => ?_
  have := hopt ho ho' r s
  cases o <;> cases o' <;> exact this

/-! ## Maps and sets -/

section Walk
variable (it : Iteration)

theorem sortByKey_entries {K V : Type} [Ord K] [Std.TransOrd K] [Std.LawfulEqOrd K] (m : Map K V) :
    sortByKey Prod.fst (it.entries m) = m.toList := by
  have hkeys : KeysTellApart Prod.fst (it.entries m) := by
    intro a ha b hb hab
    rw [(it.entries_perm m).mem_iff] at ha hb
    have hk : a.1 = b.1 := Std.LawfulEqOrd.eq_of_compare hab
    have ha' := Std.ExtTreeMap.mem_toList_iff_getElem?_eq_some.mp ha
    have hb' := Std.ExtTreeMap.mem_toList_iff_getElem?_eq_some.mp hb
    rw [hk, hb'] at ha'
    exact Prod.ext hk (Option.some.inj ha'.symm)
  rw [sortByKey_eq_of_perm (it.entries_perm m) hkeys, sortByKey_eq_self_iff]
  refine Std.ExtTreeMap.ordered_keys_toList.imp ?_
  intro a b hab
  rw [keyLe, hab]
  rfl

theorem sorted_elements {K : Type} [Ord K] [Std.TransOrd K] [Std.LawfulEqOrd K] (s : FSet K) :
    sorted (it.elements s) = s.toList := by
  have hkeys : KeysTellApart id (it.elements s) := by
    intro a _ b _ hab
    exact Std.LawfulEqOrd.eq_of_compare hab
  rw [sorted, sortByKey_eq_of_perm (it.elements_perm s) hkeys, sortByKey_eq_self_iff]
  refine Std.ExtTreeSet.ordered_toList.imp ?_
  intro a b hab
  rw [keyLe, id, id, hab]
  rfl

/-- Fewer than `2 ^ 32` entries, each of which fits. -/
structure EntriesFit {K V : Type} [Ord K] [Std.TransOrd K] (P : K × V → Prop) (m : Map K V) : Prop where
  size : m.size < u32
  entry : ∀ e ∈ m.toList, P e

/-- Fewer than `2 ^ 32` elements, each of which fits. -/
structure ElementsFit {K : Type} [Ord K] [Std.TransOrd K] (P : K → Prop) (s : FSet K) : Prop where
  size : s.size < u32
  element : ∀ k ∈ s.toList, P k

theorem delimited_map {K V : Type} [Ord K] [Std.TransOrd K] [Std.LawfulEqOrd K] {P : K × V → Prop}
    {hash : K × V → Bytes} {view : V → V} (h : Delimited P hash fun e => (e.1, view e.2)) :
    Delimited (EntriesFit P) (hashMap it hash) fun m : Map K V => m.map fun _ v => view v := by
  have hlist := (delimited_items h).on fun m : Map K V => m.toList
  have hwalk : ∀ m : Map K V, hashItems hash m.toList = hashMap it hash m := by
    intro m
    rw [hashMap, sortByKey_entries]
  rw [funext hwalk] at hlist
  refine hlist.to ?_ ?_
  · intro m hm
    exact ⟨by rw [Std.ExtTreeMap.length_toList]; exact hm.size, hm.entry⟩
  · intro m m'
    rw [← Std.ExtTreeMap.toList_inj, Std.ExtTreeMap.toList_map, Std.ExtTreeMap.toList_map]

theorem delimited_set {K : Type} [Ord K] [Std.TransOrd K] [Std.LawfulEqOrd K] {P : K → Prop}
    {hash : K → Bytes} (h : Delimited P hash id) :
    Delimited (ElementsFit P) (hashSet it hash) id := by
  have hlist := (delimited_items h).on fun s : FSet K => s.toList
  have hwalk : ∀ s : FSet K, hashItems hash s.toList = hashSet it hash s := by
    intro s
    rw [hashSet, sorted_elements]
  rw [funext hwalk] at hlist
  refine hlist.to ?_ ?_
  · intro s hs
    exact ⟨by rw [Std.ExtTreeSet.length_toList]; exact hs.size, hs.element⟩
  · intro s s'
    rw [List.map_id, List.map_id, Std.ExtTreeSet.toList_inj]
    rfl

theorem delimited_keyed {K V : Type} [Ord K] [Std.TransOrd K] [Std.LawfulEqOrd K] {P : K → Prop}
    {Q : V → Prop} {hashKey : K → Bytes} {hashValue : V → Bytes} {view : V → V}
    (hkey : Delimited P hashKey id) (hvalue : Delimited Q hashValue view) :
    Delimited (EntriesFit fun e => P e.1 ∧ Q e.2) (hashMap it fun e => hashKey e.1 ++ hashValue e.2)
      fun m : Map K V => m.map fun _ v => view v :=
  delimited_map it ((hkey.on Prod.fst).append (hvalue.on Prod.snd))

theorem delimited_map_self {K V : Type} [Ord K] [Std.TransOrd K] [Std.LawfulEqOrd K] {P : K × V → Prop}
    {hash : K × V → Bytes} (h : Delimited P hash id) :
    Delimited (EntriesFit P) (hashMap it hash) (id : Map K V → Map K V) := by
  have hmap : Delimited (EntriesFit P) (hashMap it hash) fun m : Map K V => m.map fun _ v => id v :=
    delimited_map it h
  refine hmap.to (fun _ hm => hm) ?_
  intro m m'
  have hself : ∀ m : Map K V, (m.map fun _ v => id v) = m := by
    intro m
    rw [← Std.ExtTreeMap.toList_inj, Std.ExtTreeMap.toList_map]
    simp
  rw [hself, hself]
  rfl

theorem delimited_keyed_self {K V : Type} [Ord K] [Std.TransOrd K] [Std.LawfulEqOrd K] {P : K → Prop}
    {Q : V → Prop} {hashKey : K → Bytes} {hashValue : V → Bytes}
    (hkey : Delimited P hashKey id) (hvalue : Delimited Q hashValue id) :
    Delimited (EntriesFit fun e => P e.1 ∧ Q e.2) (hashMap it fun e => hashKey e.1 ++ hashValue e.2)
      (id : Map K V → Map K V) :=
  delimited_map_self it ((hkey.on Prod.fst).append (hvalue.on Prod.snd))

end Walk

/-! ## Records

For each record: what fits the machine types and the `u32` counts, and the part that the root reads, with
the rest put to a fixed value. -/

section Records
variable (it : Iteration)

/-- An account fits. -/
structure AccountFits (a : AccountRecord) : Prop where
  pubkeyBytes : a.pubkeyBytes.length < u32
  balance : a.balance < u128
  computeEscrowTlkd : a.computeEscrowTlkd < u128
  nfts : a.nfts.length < u32

/-- The root does not read the nonce. -/
def visibleAccount (a : AccountRecord) : AccountRecord := { a with nonce := 0 }

theorem delimited_account : Delimited AccountFits hashAccountRecord visibleAccount := by
  have h := delimited_bytes.on AccountRecord.pubkeyBytes
    |>.append (delimited_u128.on AccountRecord.balance)
    |>.append (delimited_u128.on AccountRecord.computeEscrowTlkd)
    |>.append ((delimited_items delimited_bytes32).on AccountRecord.nfts)
  refine h.to ?_ ?_
  · rintro a ⟨⟩
    simp_all
  · intro a b
    simp [visibleAccount, and_assoc]

/-- An NFT fits. -/
structure NftFits (r : NFTRecord) : Prop where
  metadataUri : r.metadataUri.toUTF8.toList.length < u32
  mintedAt : r.mintedAt < u64
  royaltyBps : r.royaltyBps < 2 ^ 16

/-- The root does not read the name. -/
def visibleNft (r : NFTRecord) : NFTRecord := { r with name := "" }

theorem delimited_nft : Delimited NftFits hashNftRecord visibleNft := by
  have hid := delimited_option delimited_bytes32
  have h := delimited_bytes32.on NFTRecord.nftId
    |>.append (delimited_bytes32.on NFTRecord.owner)
    |>.append (delimited_string.on NFTRecord.metadataUri)
    |>.append (delimited_u64.on NFTRecord.mintedAt)
    |>.append (hid.on NFTRecord.collection)
    |>.append (delimited_u16.on NFTRecord.royaltyBps)
    |>.append (hid.on NFTRecord.royaltyRecipient)
    |>.append (hid.on NFTRecord.approved)
  refine h.to ?_ ?_
  · rintro a ⟨⟩
    simp_all
  · intro a b
    simp [visibleNft, and_assoc]

/-- A name fits. -/
structure NameFits (x : NameRegistration) : Prop where
  registeredAt : x.registeredAt < u64
  expiresAt : x.expiresAt < u64

/-- The root reads the name as the key only. -/
def visibleName (x : NameRegistration) : NameRegistration :=
  { x with name := "" }

theorem delimited_name : Delimited NameFits hashNameRegistration visibleName := by
  have h := delimited_bytes32.on NameRegistration.owner
    |>.append (delimited_bytes32.on NameRegistration.target)
    |>.append (delimited_u64.on NameRegistration.registeredAt)
    |>.append (delimited_u64.on NameRegistration.expiresAt)
    |>.append (delimited_bool.on NameRegistration.isCell)
  refine h.to ?_ ?_
  · rintro a ⟨⟩
    simp_all
  · intro a b
    simp [visibleName, and_assoc]

/-- A pending name fits. -/
structure PendingNameFits (x : PendingNameRegistration) : Prop where
  proposer : x.proposer.length < u32
  votes : ElementsFit (fun pk : Bytes => pk.length < u32) x.votes
  totalStakeVoted : x.totalStakeVoted < u64
  proposedAt : x.proposedAt < u64

/-- Here too the name is the key only. -/
def visiblePendingName (x : PendingNameRegistration) : PendingNameRegistration :=
  { x with name := "" }

theorem delimited_pendingName : Delimited PendingNameFits (hashPendingName it) visiblePendingName := by
  have h := delimited_bytes32.on PendingNameRegistration.cellId
    |>.append (delimited_bytes32.on PendingNameRegistration.owner)
    |>.append (delimited_bool.on PendingNameRegistration.isCell)
    |>.append (delimited_bytes.on PendingNameRegistration.proposer)
    |>.append ((delimited_set it delimited_bytes).on PendingNameRegistration.votes)
    |>.append (delimited_u64.on PendingNameRegistration.totalStakeVoted)
    |>.append (delimited_u64.on PendingNameRegistration.proposedAt)
  refine h.to ?_ ?_
  · rintro a ⟨⟩
    simp_all
  · intro a b
    simp [visiblePendingName, and_assoc]

theorem delimited_format : Delimited (fun _ => True) (fun f => hashU8 (formatTag f)) id := by
  refine (delimited_u8.on formatTag).to ?_ ?_
  · intro f _
    cases f <;> decide
  · intro f f'
    cases f <;> cases f' <;> decide

/-- A request fits. -/
structure RequestFits (x : OracleRequest) : Prop where
  url : x.url.toUTF8.toList.length < u32
  method : x.method.toUTF8.toList.length < u32
  body : x.body.length < u32
  requestedAt : x.requestedAt < u64
  expiresAt : x.expiresAt < u64

/-- The id is the key only, and no schema is the same as the schema zero. -/
def visibleRequest (x : OracleRequest) : OracleRequest :=
  { x with requestId := 0, schemaId := some (x.schemaId.getD 0) }

theorem delimited_request : Delimited RequestFits hashOracleRequest visibleRequest := by
  have h := delimited_string.on OracleRequest.url
    |>.append (delimited_string.on OracleRequest.method)
    |>.append (delimited_bytes.on OracleRequest.body)
    |>.append (delimited_format.on OracleRequest.responseFormat)
    |>.append (delimited_bytes32.on fun x : OracleRequest => x.schemaId.getD 0)
    |>.append (delimited_u64.on OracleRequest.requestedAt)
    |>.append (delimited_u64.on OracleRequest.expiresAt)
    |>.append (delimited_bytes32.on OracleRequest.requestingCell)
  refine h.to ?_ ?_
  · rintro a ⟨⟩
    simp_all
  · intro a b
    simp [visibleRequest, and_assoc]

theorem delimited_reveal :
    Delimited (fun e : Bytes × Bytes × ℕ => e.1.length < u32 ∧ e.2.1.length < u32 ∧ e.2.2 < 2 ^ 16)
      (fun e => hashBytes e.1 ++ hashBytes e.2.1 ++ hashU16 e.2.2) id := by
  have h := delimited_bytes.on (Prod.fst : Bytes × Bytes × ℕ → Bytes)
    |>.append (delimited_bytes.on fun e => e.2.1)
    |>.append (delimited_u16.on fun e => e.2.2)
  refine h.to ?_ ?_
  · rintro a ⟨h1, h2, h3⟩
    exact ⟨⟨h1, h2⟩, h3⟩
  · intro a b
    simp [Prod.ext_iff, and_assoc]

/-- A tally fits. -/
structure TallyFits (x : OracleTally) : Prop where
  commits : EntriesFit (fun e : Bytes × Bytes32 => e.1.length < u32) x.commits
  reveals : EntriesFit (fun e : Bytes × Bytes × ℕ => e.1.length < u32 ∧ e.2.1.length < u32 ∧ e.2.2 < 2 ^ 16)
    x.reveals
  committedStake : x.committedStake < u64
  totalStake : x.totalStake < u64

/-- The id is the key only. -/
def visibleTally (x : OracleTally) : OracleTally :=
  { x with requestId := 0 }

theorem delimited_tally : Delimited TallyFits (hashOracleTally it) visibleTally := by
  have hcommits := delimited_keyed_self it delimited_bytes delimited_bytes32
  have hreveals := delimited_map_self it delimited_reveal
  have h := hcommits.on OracleTally.commits
    |>.append (hreveals.on OracleTally.reveals)
    |>.append (delimited_u64.on OracleTally.committedStake)
    |>.append (delimited_u64.on OracleTally.totalStake)
    |>.append (delimited_bool.on OracleTally.commitPhaseClosed)
  refine h.to ?_ ?_
  · rintro a ⟨⟩
    simp_all
  · intro a b
    simp [visibleTally, and_assoc]

/-- A result fits. -/
structure ResultFits (x : OracleResult) : Prop where
  url : x.url.toUTF8.toList.length < u32
  method : x.method.toUTF8.toList.length < u32
  responseBody : x.responseBody.length < u32
  responseStatus : x.responseStatus < 2 ^ 16
  finalizedAt : x.finalizedAt < u64
  expiresAt : x.expiresAt < u64
  quorumStakeNum : x.quorumStakeNum < u64
  quorumStakeDen : x.quorumStakeDen < u64

/-- The id is the key only, and the cell that asked is not read. -/
def visibleResult (x : OracleResult) : OracleResult :=
  { x with requestId := 0, requestingCell := 0 }

theorem delimited_result : Delimited ResultFits hashOracleResult visibleResult := by
  have h := delimited_string.on OracleResult.url
    |>.append (delimited_string.on OracleResult.method)
    |>.append (delimited_bytes.on OracleResult.responseBody)
    |>.append (delimited_u16.on OracleResult.responseStatus)
    |>.append (delimited_bytes32.on OracleResult.bodyHash)
    |>.append (delimited_u64.on OracleResult.finalizedAt)
    |>.append (delimited_u64.on OracleResult.expiresAt)
    |>.append (delimited_u64.on OracleResult.quorumStakeNum)
    |>.append (delimited_u64.on OracleResult.quorumStakeDen)
  refine h.to ?_ ?_
  · rintro a ⟨⟩
    simp_all
  · intro a b
    simp [visibleResult, and_assoc]

/-- A proposal for a URL fits. -/
structure UrlFits (x : UrlProposal) : Prop where
  urlPattern : x.urlPattern.toUTF8.toList.length < u32
  bondAmount : x.bondAmount < u128
  voters : ElementsFit (fun pk : Bytes => pk.length < u32) x.voters
  votesForStake : x.votesForStake < u64
  votesAgainstStake : x.votesAgainstStake < u64
  createdAt : x.createdAt < u64
  votingEndsAt : x.votingEndsAt < u64

/-- No schema is the same as the schema zero. -/
def visibleUrl (x : UrlProposal) : UrlProposal :=
  { x with schemaId := some (x.schemaId.getD 0) }

theorem delimited_url : Delimited UrlFits (hashUrlProposal it) visibleUrl := by
  have h := delimited_string.on UrlProposal.urlPattern
    |>.append (delimited_bytes32.on UrlProposal.proposer)
    |>.append (delimited_u128.on UrlProposal.bondAmount)
    |>.append ((delimited_set it delimited_bytes).on UrlProposal.voters)
    |>.append (delimited_u64.on UrlProposal.votesForStake)
    |>.append (delimited_u64.on UrlProposal.votesAgainstStake)
    |>.append (delimited_u64.on UrlProposal.createdAt)
    |>.append (delimited_u64.on UrlProposal.votingEndsAt)
    |>.append (delimited_bool.on UrlProposal.approved)
    |>.append (delimited_bool.on UrlProposal.rejected)
    |>.append (delimited_bool.on UrlProposal.slashed)
    |>.append (delimited_format.on UrlProposal.responseFormat)
    |>.append (delimited_bytes32.on fun x : UrlProposal => x.schemaId.getD 0)
  refine h.to ?_ ?_
  · rintro a ⟨⟩
    simp_all
  · intro a b
    simp [visibleUrl, and_assoc]

theorem delimited_keys :
    Delimited (fun keys : List String => keys.length < u32 ∧ ∀ key ∈ keys, key.toUTF8.toList.length < u32)
      (fun keys => hashItems hashString (sorted keys)) sorted := by
  refine ((delimited_items delimited_string).on sorted).to ?_ ?_
  · rintro keys ⟨hlen, hkey⟩
    simpa [sorted] using ⟨hlen, hkey⟩
  · intro a b
    simp

/-- A proposal for a schema fits. -/
structure SchemaProposalFits (x : SchemaProposal) : Prop where
  keys : x.keys.length < u32
  key : ∀ key ∈ x.keys, key.toUTF8.toList.length < u32
  voters : ElementsFit (fun pk : Bytes => pk.length < u32) x.voters
  votesForStake : x.votesForStake < u64
  votesAgainstStake : x.votesAgainstStake < u64
  createdAt : x.createdAt < u64
  votingEndsAt : x.votingEndsAt < u64

/-- The id is the key only; the keys are bound up to their order. -/
def visibleSchemaProposal (x : SchemaProposal) : SchemaProposal :=
  { x with schemaId := 0, keys := sorted x.keys }

theorem delimited_schemaProposal :
    Delimited SchemaProposalFits (hashSchemaProposal it) visibleSchemaProposal := by
  have h := delimited_keys.on SchemaProposal.keys
    |>.append (delimited_bytes32.on SchemaProposal.proposer)
    |>.append ((delimited_set it delimited_bytes).on SchemaProposal.voters)
    |>.append (delimited_u64.on SchemaProposal.votesForStake)
    |>.append (delimited_u64.on SchemaProposal.votesAgainstStake)
    |>.append (delimited_u64.on SchemaProposal.createdAt)
    |>.append (delimited_u64.on SchemaProposal.votingEndsAt)
    |>.append (delimited_bool.on SchemaProposal.approved)
    |>.append (delimited_bool.on SchemaProposal.rejected)
  refine h.to ?_ ?_
  · rintro a ⟨⟩
    simp_all
  · intro a b
    simp [visibleSchemaProposal, and_assoc]

/-- A schema fits. -/
structure SchemaFits (x : SchemaEntry) : Prop where
  keys : x.keys.length < u32
  key : ∀ key ∈ x.keys, key.toUTF8.toList.length < u32
  createdAt : x.createdAt < u64

/-- As for proposals. -/
def visibleSchema (x : SchemaEntry) : SchemaEntry :=
  { x with schemaId := 0, keys := sorted x.keys }

theorem delimited_schema : Delimited SchemaFits hashSchemaEntry visibleSchema := by
  have h := delimited_keys.on SchemaEntry.keys
    |>.append (delimited_u64.on SchemaEntry.createdAt)
    |>.append (delimited_bool.on SchemaEntry.approved)
  refine h.to ?_ ?_
  · rintro a ⟨⟩
    simp_all
  · intro a b
    simp [visibleSchema, and_assoc]

theorem delimited_visibility : Delimited (fun _ => True) hashVisibility id := by
  refine Delimited.of_length (n := 1) ?_ ?_
  · intro tier _
    cases tier <;> rfl
  · intro tier tier' _ _
    cases tier <;> cases tier' <;> decide

theorem delimited_sizedBytes32 : Delimited (fun _ => True) (fun id => hashBytes (ofBytes32 id)) id := by
  refine (delimited_bytes.on ofBytes32).to ?_ ?_
  · intro id _
    rw [length_ofBytes32]
    decide
  · intro id id'
    exact delimited_bytes32.eq_iff trivial trivial

/-- A proposal for a token authority fits. -/
structure TokenAuthorityFits (x : AccountId × TokenAuthorityProposal) : Prop where
  proposer : x.2.proposer.length < u32
  votesForStake : x.2.votesForStake < u64
  createdAt : x.2.createdAt < u64
  votingEndsAt : x.2.votingEndsAt < u64

/-- The cell is the key only, and the voters are not read. -/
def visibleTokenAuthority (x : TokenAuthorityProposal) : TokenAuthorityProposal :=
  { x with tokenCell := 0, voters := ∅ }

theorem delimited_tokenAuthority :
    Delimited TokenAuthorityFits (fun e => hashTokenAuthorityProposal e.1 e.2)
      fun e => (e.1, visibleTokenAuthority e.2) := by
  have hid := delimited_option delimited_sizedBytes32
  have h := delimited_sizedBytes32.on (Prod.fst : AccountId × TokenAuthorityProposal → AccountId)
    |>.append (delimited_bytes.on fun e => e.2.proposer)
    |>.append (delimited_u64.on fun e => e.2.votesForStake)
    |>.append (delimited_u64.on fun e => e.2.createdAt)
    |>.append (delimited_u64.on fun e => e.2.votingEndsAt)
    |>.append (delimited_bool.on fun e => e.2.setMintAuthority)
    |>.append (hid.on fun e => e.2.newMintAuthority)
    |>.append (delimited_bool.on fun e => e.2.setFreezeAuthority)
    |>.append (hid.on fun e => e.2.newFreezeAuthority)
  refine h.to ?_ ?_
  · rintro a ⟨⟩
    simp_all
  · intro a b
    simp [visibleTokenAuthority, and_assoc]

/-- A token configuration fits. -/
structure TokenFits (x : TokenConfig) : Prop where
  name : x.name.toUTF8.toList.length < u32
  symbol : x.symbol.toUTF8.toList.length < u32
  decimals : x.decimals < 2 ^ 8
  totalSupply : x.totalSupply < u128
  transferFeeBps : x.transferFeeBps < 2 ^ 16
  metadataUri : ∀ uri ∈ x.metadataUri, uri.toUTF8.toList.length < u32

/-- The gas of the hook and the largest supply are not read. -/
def visibleToken (x : TokenConfig) : TokenConfig :=
  { x with transferHookGas := 0, maxSupply := none }

theorem delimited_token : Delimited TokenFits hashTokenConfig visibleToken := by
  have hid := delimited_option delimited_bytes32
  have h := delimited_string.on TokenConfig.name
    |>.append (delimited_string.on TokenConfig.symbol)
    |>.append (delimited_u8.on TokenConfig.decimals)
    |>.append (delimited_u128.on TokenConfig.totalSupply)
    |>.append (hid.on TokenConfig.mintAuthority)
    |>.append (hid.on TokenConfig.freezeAuthority)
    |>.append (delimited_u16.on TokenConfig.transferFeeBps)
    |>.append (hid.on TokenConfig.transferFeeRecipient)
    |>.append (hid.on TokenConfig.transferHook)
    |>.append (delimited_bool.on TokenConfig.nonTransferable)
    |>.append ((delimited_option delimited_string).on TokenConfig.metadataUri)
    |>.append (hid.on TokenConfig.permanentDelegate)
  refine h.to ?_ ?_
  · rintro a ⟨⟩
    simp_all
  · intro a b
    simp [visibleToken, and_assoc]

theorem delimited_hashes :
    Delimited (fun l : List Bytes32 => l.length < u32) (fun l => hashVecFixed32 (sorted l)) sorted := by
  refine ((delimited_items delimited_bytes32).on sorted).to ?_ ?_
  · intro l hlen
    simpa [sorted] using hlen
  · intro a b
    simp

/-- Offset and length fit. -/
structure SpecFits (x : StorageKeySpec) : Prop where
  offset : x.offset < u64
  len : x.len < u64

theorem delimited_spec : Delimited SpecFits hashSpec id := by
  refine ((delimited_u64.on StorageKeySpec.offset).append (delimited_u64.on StorageKeySpec.len)).to ?_ ?_
  · rintro a ⟨hoffset, hlen⟩
    exact ⟨hoffset, hlen⟩
  · rintro ⟨⟩ ⟨⟩
    simp

theorem delimited_specs {bound : ℕ} {count : ℕ → Bytes}
    (hcount : Delimited (fun n => n < bound) count id) :
    Delimited (fun l : List StorageKeySpec => l.length < bound ∧ ∀ spec ∈ l, SpecFits spec)
      (fun l => count (sortedSpecs l).length ++ (sortedSpecs l).flatMap hashSpec) sortedSpecs := by
  refine ((delimited_spec.counted hcount).on sortedSpecs).to ?_ ?_
  · rintro l ⟨hlen, hspec⟩
    simpa [sortedSpecs] using ⟨hlen, hspec⟩
  · intro a b
    simp

/-- The kind of a proposal fits. -/
def ProposalTypeFits : ProposalType → Prop
  | .ownershipTransfer _ => True
  | .upgrade newBytecode declaredReads declaredWrites commutativeKeys storageKeySpecs oracleSchemaIds =>
    newBytecode.length < u32 ∧ declaredReads.length < u32 ∧ declaredWrites.length < u32 ∧
      commutativeKeys.length < u32 ∧
      (storageKeySpecs.length < u64 ∧ ∀ spec ∈ storageKeySpecs, SpecFits spec) ∧
      oracleSchemaIds.length < u32
  | .makeImmutable => True

/-- Lists are bound up to their order. -/
def visibleProposalType : ProposalType → ProposalType
  | .upgrade newBytecode declaredReads declaredWrites commutativeKeys storageKeySpecs oracleSchemaIds =>
    .upgrade newBytecode (sorted declaredReads) (sorted declaredWrites) (sorted commutativeKeys)
      (sortedSpecs storageKeySpecs) (sorted oracleSchemaIds)
  | proposalType => proposalType

theorem delimited_proposalType :
    Delimited ProposalTypeFits hashProposalType visibleProposalType := by
  intro p q hp hq r s
  cases p with
  | ownershipTransfer newOwner =>
    cases q with
    | ownershipTransfer newOwner' =>
      have := delimited_bytes32 (a := newOwner) (b := newOwner') trivial trivial r s
      simpa [hashProposalType, hashU8, leBytes, visibleProposalType] using this
    | upgrade => simp [hashProposalType, hashU8, leBytes, visibleProposalType]
    | makeImmutable => simp [hashProposalType, hashU8, leBytes, visibleProposalType]
  | upgrade code reads writes keys specs schemas =>
    cases q with
    | ownershipTransfer => simp [hashProposalType, hashU8, leBytes, visibleProposalType]
    | upgrade code' reads' writes' keys' specs' schemas' =>
      obtain ⟨hcode, hreads, hwrites, hkeys, hspecs, hschemas⟩ := hp
      obtain ⟨hcode', hreads', hwrites', hkeys', hspecs', hschemas'⟩ := hq
      simp only [hashProposalType, List.append_assoc, List.append_cancel_left_eq, visibleProposalType,
        ProposalType.upgrade.injEq]
      rw [delimited_bytes hcode hcode', delimited_hashes hreads hreads', delimited_hashes hwrites hwrites',
        delimited_hashes hkeys hkeys']
      have hs := delimited_specs delimited_u64 hspecs hspecs'
      simp only [List.append_assoc] at hs
      rw [hs, delimited_hashes hschemas hschemas']
      simp [and_assoc]
    | makeImmutable => simp [hashProposalType, hashU8, leBytes, visibleProposalType]
  | makeImmutable =>
    cases q with
    | ownershipTransfer => simp [hashProposalType, hashU8, leBytes, visibleProposalType]
    | upgrade => simp [hashProposalType, hashU8, leBytes, visibleProposalType]
    | makeImmutable => simp [visibleProposalType]

/-- A proposal for a cell fits. -/
structure ProposalFits (x : GovernanceProposal) : Prop where
  proposalType : ProposalTypeFits x.proposalType
  createdAtHeight : x.createdAtHeight < u64
  timelockBlocks : x.timelockBlocks < u64
  votesFor : x.votesFor < u64
  votesAgainst : x.votesAgainst < u64
  voters : x.voters.size < u32

/-- What the root reads of it. -/
def visibleProposal (x : GovernanceProposal) : GovernanceProposal :=
  { x with proposalType := visibleProposalType x.proposalType }

theorem delimited_proposal : Delimited ProposalFits (hashGovernanceProposal it) visibleProposal := by
  have h := delimited_proposalType.on GovernanceProposal.proposalType
    |>.append (delimited_bytes32.on GovernanceProposal.proposer)
    |>.append (delimited_u64.on GovernanceProposal.createdAtHeight)
    |>.append (delimited_u64.on GovernanceProposal.timelockBlocks)
    |>.append (delimited_bool.on GovernanceProposal.requireVote)
    |>.append (delimited_u64.on GovernanceProposal.votesFor)
    |>.append (delimited_u64.on GovernanceProposal.votesAgainst)
    |>.append ((delimited_set it delimited_bytes32).on GovernanceProposal.voters)
    |>.append (delimited_bool.on GovernanceProposal.executed)
  refine h.to ?_ ?_
  · rintro a ⟨⟩
    have hvoters : ElementsFit (fun _ => True) a.voters := ⟨by assumption, fun _ _ => trivial⟩
    simp_all
  · intro a b
    simp [visibleProposal, and_assoc]

/-- A cell fits. -/
structure CellFits (x : CellAccount) : Prop where
  bytecode : x.bytecode.length < u32
  storage : x.storage.size < u32
  balance : x.balance < u128
  tokenConfig : ∀ cfg ∈ x.tokenConfig, TokenFits cfg
  createdAt : x.createdAt < u64
  upgradedAt : ∀ ts ∈ x.upgradedAt, ts < u64
  lastRentPaidHeight : x.lastRentPaidHeight < u64
  rentGraceBlocks : x.rentGraceBlocks < u64
  declaredReads : x.declaredReads.length < u32
  declaredWrites : x.declaredWrites.length < u32
  commutativeKeys : x.commutativeKeys.length < u32
  storageKeySpecs : x.storageKeySpecs.length < u32 ∧ ∀ spec ∈ x.storageKeySpecs, SpecFits spec
  oracleSchemaIds : x.oracleSchemaIds.length < u32
  governanceProposal : ∀ p ∈ x.governanceProposal, ProposalFits p
  manifestVersion : x.manifestVersion < u64

/-- The deposit for the rent is not read; the lists of the manifest are bound up to their order. -/
def visibleCell (x : CellAccount) : CellAccount :=
  { x with
    rentDeposit := 0
    tokenConfig := x.tokenConfig.map visibleToken
    declaredReads := sorted x.declaredReads
    declaredWrites := sorted x.declaredWrites
    commutativeKeys := sorted x.commutativeKeys
    storageKeySpecs := sortedSpecs x.storageKeySpecs
    oracleSchemaIds := sorted x.oracleSchemaIds
    governanceProposal := x.governanceProposal.map visibleProposal }

theorem delimited_cell : Delimited CellFits (hashCellAccount it) visibleCell := by
  have hstorage := delimited_keyed_self it delimited_bytes32 delimited_bytes32
  have h := delimited_bytes32.on CellAccount.cellId
    |>.append (delimited_bytes32.on CellAccount.owner)
    |>.append (delimited_bytes.on CellAccount.bytecode)
    |>.append (hstorage.on CellAccount.storage)
    |>.append (delimited_u128.on CellAccount.balance)
    |>.append (delimited_bool.on CellAccount.isToken)
    |>.append ((delimited_option delimited_token).on CellAccount.tokenConfig)
    |>.append (delimited_u64.on CellAccount.createdAt)
    |>.append ((delimited_option delimited_u64).on CellAccount.upgradedAt)
    |>.append (delimited_u64.on CellAccount.lastRentPaidHeight)
    |>.append (delimited_u64.on CellAccount.rentGraceBlocks)
    |>.append ((delimited_option delimited_bytes32).on CellAccount.pendingOwner)
    |>.append (delimited_bool.on CellAccount.isImmutable)
    |>.append (delimited_hashes.on CellAccount.declaredReads)
    |>.append (delimited_hashes.on CellAccount.declaredWrites)
    |>.append (delimited_hashes.on CellAccount.commutativeKeys)
    |>.append ((delimited_specs delimited_u32).on CellAccount.storageKeySpecs)
    |>.append (delimited_hashes.on CellAccount.oracleSchemaIds)
    |>.append ((delimited_option (delimited_proposal it)).on CellAccount.governanceProposal)
    |>.append (delimited_u64.on CellAccount.manifestVersion)
    |>.append (delimited_bytes32.on CellAccount.manifestHash)
  refine h.to ?_ ?_
  · rintro a ⟨⟩
    have hentries : EntriesFit (fun _ => True ∧ True) a.storage :=
      ⟨by assumption, fun _ _ => ⟨trivial, trivial⟩⟩
    simp_all
  · intro a b
    simp [visibleCell, and_assoc]

/-- The table of cells fits. -/
structure CellsFits (x : CellState) : Prop where
  cells : EntriesFit (fun e => CellFits e.2) x.cells
  tokenBalances : EntriesFit (fun e => e.2 < u128) x.tokenBalances
  frozenAccounts : x.frozenAccounts.size < u32

/-- What the root reads of the cells. -/
def visibleCells (x : CellState) : CellState :=
  { x with cells := x.cells.map fun _ cell => visibleCell cell }

theorem delimited_pair :
    Delimited (fun _ => True ∧ True) (fun key : AccountId × AccountId => ofBytes32 key.1 ++ ofBytes32 key.2)
      id := by
  refine ((delimited_bytes32.on Prod.fst).append (delimited_bytes32.on Prod.snd)).to (fun _ h => h) ?_
  intro a b
  simp [Prod.ext_iff]

theorem delimited_cells : Delimited CellsFits (hashCellState it) visibleCells := by
  have h := (delimited_keyed it delimited_bytes32 (delimited_cell it)).on CellState.cells
    |>.append ((delimited_keyed_self it delimited_pair delimited_u128).on CellState.tokenBalances)
    |>.append ((delimited_keyed_self it delimited_pair delimited_bool).on CellState.frozenAccounts)
  refine h.to ?_ ?_
  · rintro a ⟨hcells, hbalances, hfrozen⟩
    have hflags : EntriesFit (fun _ => (True ∧ True) ∧ True) a.frozenAccounts :=
      ⟨hfrozen, fun _ _ => ⟨⟨trivial, trivial⟩, trivial⟩⟩
    simp_all
  · intro a b
    simp [visibleCells, and_assoc]

/-- An unbonding entry fits. -/
structure UnbondingFits (x : UnbondingEntry) : Prop where
  amount : x.amount < u64
  completionTick : x.completionTick < u64

theorem delimited_unbonding : Delimited UnbondingFits hashUnbondingEntry id := by
  refine ((delimited_u64.on UnbondingEntry.amount).append
    (delimited_u64.on UnbondingEntry.completionTick)).to ?_ ?_
  · rintro a ⟨hamount, htick⟩
    exact ⟨hamount, htick⟩
  · rintro ⟨⟩ ⟨⟩
    simp

/-- A stake fits. -/
structure StakeFits (x : ValidatorStake) : Prop where
  activeStake : x.activeStake < u64
  unbonding : x.unbonding.length < u32 ∧ ∀ entry ∈ x.unbonding, UnbondingFits entry
  jailedUntil : ∀ height ∈ x.jailedUntil, height < u64

theorem delimited_stake : Delimited StakeFits hashValidatorStake id := by
  have h := delimited_u64.on ValidatorStake.activeStake
    |>.append ((delimited_items delimited_unbonding).on ValidatorStake.unbonding)
    |>.append ((delimited_option delimited_u64).on ValidatorStake.jailedUntil)
  refine h.to ?_ ?_
  · rintro a ⟨⟩
    simp_all
  · intro a b
    cases a
    cases b
    simp [and_assoc]

/-- The table of stakes fits. -/
structure StakingFits (x : StakingState) : Prop where
  validators : EntriesFit (fun e : Bytes × ValidatorStake => e.1.length < u32 ∧ StakeFits e.2) x.validators
  currentHeight : x.currentHeight < u64

/-- The account of the treasury is not read. -/
def visibleStaking (x : StakingState) : StakingState :=
  { x with treasuryAccountId := none }

theorem delimited_staking : Delimited StakingFits (hashStakingState it) visibleStaking := by
  have h := (delimited_keyed_self it delimited_bytes delimited_stake).on StakingState.validators
    |>.append (delimited_u64.on StakingState.currentHeight)
  refine h.to ?_ ?_
  · rintro a ⟨⟩
    simp_all
  · intro a b
    simp [visibleStaking]

/-! ## The state -/

/-- Every number of the state fits its machine type, and every list, map and string has fewer than `2 ^ 32`
entries. -/
structure StateFits (s : State) : Prop where
  accounts : EntriesFit (fun e => AccountFits e.2) s.accounts
  staking : StakingFits s.staking
  nfts : EntriesFit (fun e => NftFits e.2) s.nfts
  cells : CellsFits s.cells
  accumulatedGasFees : s.accumulatedGasFees < u128
  accumulatedNameFees : s.accumulatedNameFees < u128
  accumulatedComputeFeesTlkd : s.accumulatedComputeFeesTlkd < u128
  accumulatedTreasuryFees : s.accumulatedTreasuryFees < u128
  accumulatedEpochFees : s.accumulatedEpochFees < u128
  lastEmissionEpoch : s.lastEmissionEpoch < u64
  chainAgeYears : s.chainAgeYears < u64
  executedTxHashes : ElementsFit (fun _ => True) s.executedTxHashes
  params : EntriesFit (fun _ => True) s.params
  nameRegistry : EntriesFit (fun e : String × NameRegistration =>
    e.1.toUTF8.toList.length < u32 ∧ NameFits e.2) s.nameRegistry
  pendingNames : EntriesFit (fun e : String × PendingNameRegistration =>
    e.1.toUTF8.toList.length < u32 ∧ PendingNameFits e.2) s.pendingNames
  tokenAuthorityProposals : ∀ e ∈ s.tokenAuthorityProposals.toList, TokenAuthorityFits e
  airdropClaims : EntriesFit (fun e => e.2 < u64) s.airdropClaims
  pendingOracleRequests : EntriesFit (fun e => RequestFits e.2) s.pendingOracleRequests
  oraclePending : EntriesFit (fun e => TallyFits e.2) s.oraclePending
  oracleResults : EntriesFit (fun e => ResultFits e.2) s.oracleResults
  urlProposals : EntriesFit (fun e : String × UrlProposal =>
    e.1.toUTF8.toList.length < u32 ∧ UrlFits e.2) s.urlProposals
  schemaProposals : EntriesFit (fun e => SchemaProposalFits e.2) s.schemaProposals
  schemaRegistry : EntriesFit (fun e => SchemaFits e.2) s.schemaRegistry
  cellVisibility : EntriesFit (fun _ => True) s.cellVisibility

/-- **What the root reads of a state.** The minted total is not read, and no mint authority is the same as
the account zero. -/
def visibleState (s : State) : State :=
  { s with
    accounts := s.accounts.map fun _ account => visibleAccount account
    staking := visibleStaking s.staking
    nfts := s.nfts.map fun _ record => visibleNft record
    cells := visibleCells s.cells
    nameRegistry := s.nameRegistry.map fun _ reg => visibleName reg
    pendingNames := s.pendingNames.map fun _ reg => visiblePendingName reg
    tokenAuthorityProposals := s.tokenAuthorityProposals.map fun _ p => visibleTokenAuthority p
    totalMinted := 0
    foundationMintAuthority := some (s.foundationMintAuthority.getD 0)
    pendingOracleRequests := s.pendingOracleRequests.map fun _ req => visibleRequest req
    oraclePending := s.oraclePending.map fun _ tally => visibleTally tally
    oracleResults := s.oracleResults.map fun _ res => visibleResult res
    urlProposals := s.urlProposals.map fun _ p => visibleUrl p
    schemaProposals := s.schemaProposals.map fun _ p => visibleSchemaProposal p
    schemaRegistry := s.schemaRegistry.map fun _ entry => visibleSchema entry }

/-- The section without a count ends where the tag of the next one starts: its entries start with the
length 32, the tag with a letter. -/
theorem delimited_tokenAuthorities :
    Delimited (fun m : Map AccountId TokenAuthorityProposal => ∀ e ∈ m.toList, TokenAuthorityFits e)
      (fun m => hashTokenAuthorityProposals it m ++ hashTag "airdrop_claims")
      fun m => m.map fun _ p => visibleTokenAuthority p := by
  have hstart : ∀ e : AccountId × TokenAuthorityProposal,
      (hashTokenAuthorityProposal e.1 e.2).head? = some 32 := by
    intro e
    have hlen : (ofBytes32 e.1).length = 32 := length_ofBytes32 _
    simp [hashTokenAuthorityProposal, hashBytes, hlen, leBytes]
  have hstop : ∀ r : Bytes, (hashTag "airdrop_claims" ++ r).head? ≠ some 32 := by
    intro r
    have htag : hashTag "airdrop_claims" = 97 :: (hashTag "airdrop_claims").tail := by decide +kernel
    rw [htag]
    simp
  have hlist := (delimited_tokenAuthority.closed hstart hstop).on
    fun m : Map AccountId TokenAuthorityProposal => m.toList
  have hwalk : ∀ m : Map AccountId TokenAuthorityProposal,
      m.toList.flatMap (fun e => hashTokenAuthorityProposal e.1 e.2) = hashTokenAuthorityProposals it m := by
    intro m
    rw [hashTokenAuthorityProposals, sortByKey_entries]
  simp only [hwalk] at hlist
  refine hlist.to (fun _ h => h) ?_
  intro m m'
  rw [← Std.ExtTreeMap.toList_inj, Std.ExtTreeMap.toList_map, Std.ExtTreeMap.toList_map]

/-- **The bytes under the root** decide what the root reads of the state. -/
theorem delimited_state : Delimited StateFits (stateRootPreimage it) visibleState := by
  have tag : ∀ name, Delimited (fun _ : State => True) (fun _ => hashTag name) fun _ => () :=
    fun name => Delimited.const (hashTag name)
  have h := tag "accounts"
    |>.append ((delimited_keyed it delimited_bytes32 delimited_account).on State.accounts)
    |>.append (tag "staking")
    |>.append ((delimited_staking it).on State.staking)
    |>.append (tag "nfts")
    |>.append ((delimited_keyed it delimited_bytes32 delimited_nft).on State.nfts)
    |>.append (tag "cells")
    |>.append ((delimited_cells it).on State.cells)
    |>.append (tag "accumulated_gas_fees")
    |>.append (delimited_u128.on State.accumulatedGasFees)
    |>.append (tag "accumulated_name_fees")
    |>.append (delimited_u128.on State.accumulatedNameFees)
    |>.append (tag "accumulated_compute_fees_tlkd")
    |>.append (delimited_u128.on State.accumulatedComputeFeesTlkd)
    |>.append (tag "accumulated_treasury_fees")
    |>.append (delimited_u128.on State.accumulatedTreasuryFees)
    |>.append (tag "accumulated_epoch_fees")
    |>.append (delimited_u128.on State.accumulatedEpochFees)
    |>.append (tag "last_emission_epoch")
    |>.append (delimited_u64.on State.lastEmissionEpoch)
    |>.append (tag "chain_age_years")
    |>.append (delimited_u64.on State.chainAgeYears)
    |>.append (tag "executed_tx_hashes")
    |>.append ((delimited_set it delimited_bytes32).on State.executedTxHashes)
    |>.append (tag "params")
    |>.append ((delimited_keyed_self it delimited_bytes32 delimited_bytes32).on State.params)
    |>.append (tag "name_registry")
    |>.append ((delimited_keyed it delimited_string delimited_name).on State.nameRegistry)
    |>.append (tag "pending_names")
    |>.append ((delimited_keyed it delimited_string (delimited_pendingName it)).on State.pendingNames)
    |>.append (tag "token_authority_proposals")
    |>.append_append ((delimited_tokenAuthorities it).on State.tokenAuthorityProposals)
    |>.append ((delimited_keyed_self it delimited_bytes32 delimited_u64).on State.airdropClaims)
    |>.append (tag "foundation_mint_authority")
    |>.append (delimited_sizedBytes32.on fun s : State => s.foundationMintAuthority.getD 0)
    |>.append (tag "pending_oracle_requests")
    |>.append ((delimited_keyed it delimited_bytes32 delimited_request).on State.pendingOracleRequests)
    |>.append (tag "oracle_pending")
    |>.append ((delimited_keyed it delimited_bytes32 (delimited_tally it)).on State.oraclePending)
    |>.append (tag "oracle_results")
    |>.append ((delimited_keyed it delimited_bytes32 delimited_result).on State.oracleResults)
    |>.append (tag "url_proposals")
    |>.append ((delimited_keyed it delimited_string (delimited_url it)).on State.urlProposals)
    |>.append (tag "schema_proposals")
    |>.append ((delimited_keyed it delimited_bytes32 (delimited_schemaProposal it)).on
      State.schemaProposals)
    |>.append (tag "schema_registry")
    |>.append ((delimited_keyed it delimited_bytes32 delimited_schema).on State.schemaRegistry)
    |>.append (tag "cell_visibility")
    |>.append ((delimited_keyed_self it delimited_bytes32 delimited_visibility).on State.cellVisibility)
  refine h.to ?_ ?_
  · rintro s ⟨⟩
    simp_all
  · intro s t
    simp only [visibleState, State.mk.injEq, Prod.mk.injEq, id, true_and, and_assoc]
    simp only [Option.some.injEq]
    tauto

end Records

/-! ## The order of the walks -/

section Walks
variable (it it' : Iteration)

theorem hashMap_walk {K V : Type} [Ord K] [Std.TransOrd K] [Std.LawfulEqOrd K] (hash : K × V → Bytes)
    (m : Map K V) : hashMap it hash m = hashMap it' hash m := by
  rw [hashMap, hashMap, sortByKey_entries, sortByKey_entries]

theorem hashSet_walk {K : Type} [Ord K] [Std.TransOrd K] [Std.LawfulEqOrd K] (hash : K → Bytes)
    (s : FSet K) : hashSet it hash s = hashSet it' hash s := by
  rw [hashSet, hashSet, sorted_elements, sorted_elements]

theorem hashCellAccount_walk (account : CellAccount) :
    hashCellAccount it account = hashCellAccount it' account := by
  have hproposal : ∀ p, hashGovernanceProposal it p = hashGovernanceProposal it' p := by
    intro p
    unfold hashGovernanceProposal
    rw [hashSet_walk it it']
  unfold hashCellAccount
  rw [funext hproposal, hashMap_walk it it']

/-- **The bytes do not depend on how the hash maps are walked.** -/
theorem stateRootPreimage_walk (s : State) : stateRootPreimage it s = stateRootPreimage it' s := by
  have hcells : hashCellState it s.cells = hashCellState it' s.cells := by
    unfold hashCellState
    simp only [hashCellAccount_walk it it']
    rw [hashMap_walk it it', hashMap_walk it it', hashMap_walk it it']
  have hpending : ∀ p, hashPendingName it p = hashPendingName it' p := by
    intro p
    unfold hashPendingName
    rw [hashSet_walk it it']
  have htally : ∀ t, hashOracleTally it t = hashOracleTally it' t := by
    intro t
    unfold hashOracleTally
    rw [hashMap_walk it it', hashMap_walk it it']
  have hurl : ∀ p, hashUrlProposal it p = hashUrlProposal it' p := by
    intro p
    unfold hashUrlProposal
    rw [hashSet_walk it it']
  have hschema : ∀ p, hashSchemaProposal it p = hashSchemaProposal it' p := by
    intro p
    unfold hashSchemaProposal
    rw [hashSet_walk it it']
  unfold stateRootPreimage hashAccounts hashStakingState hashTokenAuthorityProposals
  simp only [hcells, hpending, htally, hurl, hschema, sortByKey_entries, sorted_elements,
    hashMap_walk it it']

end Walks

/-! ## Equal roots -/

section Roots
variable {D : Type} {sha256 : Bytes → D} (hsha : Function.Injective sha256) (it₁ it₂ : Iteration)
include hsha

/-- **Two states have one root** iff they agree in what the root reads. -/
theorem root_eq_iff_visible {s₁ s₂ : State} (h₁ : StateFits s₁) (h₂ : StateFits s₂) :
    computeStateRootFromState it₁ sha256 s₁ = computeStateRootFromState it₂ sha256 s₂ ↔
      visibleState s₁ = visibleState s₂ := by
  rw [computeStateRootFromState, computeStateRootFromState, hsha.eq_iff, stateRootPreimage_walk it₂ it₁,
    (delimited_state it₁).eq_iff h₁ h₂]

/-- **When the root binds the whole state**: exactly on the pairs of states that do not differ only in what
the root leaves out. -/
theorem state_root_binds_iff {s₁ s₂ : State} (h₁ : StateFits s₁) (h₂ : StateFits s₂) :
    (computeStateRootFromState it₁ sha256 s₁ = computeStateRootFromState it₂ sha256 s₂ ↔ s₁ = s₂) ↔
      (visibleState s₁ = visibleState s₂ → s₁ = s₂) := by
  rw [root_eq_iff_visible hsha it₁ it₂ h₁ h₂]
  constructor
  · intro h
    exact h.mp
  · intro h
    refine ⟨h, ?_⟩
    rintro rfl
    rfl

end Roots

/-! ## A nonce -/

def keyOrder : Iteration where
  entries m := m.toList
  entries_perm _ := .refl _
  elements s := s.toList
  elements_perm _ := .refl _

def oneAccount (balance nonce : ℕ) : State where
  accounts := (∅ : Map AccountId AccountRecord).insert 1 ⟨[7], balance, 0, nonce, []⟩
  staking := ⟨∅, 0, none⟩
  nfts := ∅
  cells := ⟨∅, ∅, ∅⟩
  accumulatedGasFees := 0
  accumulatedNameFees := 0
  accumulatedComputeFeesTlkd := 0
  accumulatedTreasuryFees := 0
  executedTxHashes := ∅
  params := ∅
  nameRegistry := ∅
  pendingNames := ∅
  tokenAuthorityProposals := ∅
  airdropClaims := ∅
  totalMinted := 0
  foundationMintAuthority := none
  pendingOracleRequests := ∅
  oraclePending := ∅
  oracleResults := ∅
  urlProposals := ∅
  schemaProposals := ∅
  schemaRegistry := ∅
  cellVisibility := ∅
  accumulatedEpochFees := 0
  lastEmissionEpoch := 0
  chainAgeYears := 0

@[simp] theorem u32_pos : 0 < u32 := by decide

@[simp] theorem u64_pos : 0 < u64 := by decide

@[simp] theorem u128_pos : 0 < u128 := by decide

theorem entriesFit_empty {K V : Type} [Ord K] [Std.TransOrd K] {P : K × V → Prop} :
    EntriesFit P (∅ : Map K V) := ⟨by simp, by simp⟩

theorem oneAccount_fits {balance : ℕ} (h : balance < u128) (nonce : ℕ) :
    StateFits (oneAccount balance nonce) where
  accounts := by
    constructor
    · simp [oneAccount, Std.ExtTreeMap.size_insert]
    · intro e he
      have hget := Std.ExtTreeMap.mem_toList_iff_getElem?_eq_some.mp he
      simp only [oneAccount, Std.ExtTreeMap.getElem?_insert] at hget
      split at hget
      · rw [← Option.some.inj hget]
        exact ⟨by simp, h, by simp, by simp⟩
      · simp at hget
  staking := ⟨entriesFit_empty, by simp [oneAccount]⟩
  nfts := entriesFit_empty
  cells := ⟨entriesFit_empty, entriesFit_empty, by simp [oneAccount]⟩
  accumulatedGasFees := by simp [oneAccount]
  accumulatedNameFees := by simp [oneAccount]
  accumulatedComputeFeesTlkd := by simp [oneAccount]
  accumulatedTreasuryFees := by simp [oneAccount]
  accumulatedEpochFees := by simp [oneAccount]
  lastEmissionEpoch := by simp [oneAccount]
  chainAgeYears := by simp [oneAccount]
  executedTxHashes := ⟨by simp [oneAccount], by simp⟩
  params := entriesFit_empty
  nameRegistry := entriesFit_empty
  pendingNames := entriesFit_empty
  tokenAuthorityProposals := by simp [oneAccount]
  airdropClaims := entriesFit_empty
  pendingOracleRequests := entriesFit_empty
  oraclePending := entriesFit_empty
  oracleResults := entriesFit_empty
  urlProposals := entriesFit_empty
  schemaProposals := entriesFit_empty
  schemaRegistry := entriesFit_empty
  cellVisibility := entriesFit_empty

theorem oneAccount_get (balance nonce : ℕ) :
    (oneAccount balance nonce).accounts[(1 : AccountId)]? = some ⟨[7], balance, 0, nonce, []⟩ := by
  simp [oneAccount]

/-- Two states that differ in a nonce, under one root. -/
theorem nonce_not_bound :
    StateFits (oneAccount 5 0) ∧ StateFits (oneAccount 5 1) ∧ oneAccount 5 0 ≠ oneAccount 5 1 ∧
      Function.Injective (id : Bytes → Bytes) ∧
      ∀ it₁ it₂ : Iteration, computeStateRootFromState it₁ (id : Bytes → Bytes) (oneAccount 5 0) =
        computeStateRootFromState it₂ id (oneAccount 5 1) := by
  have h₁ : StateFits (oneAccount 5 0) := oneAccount_fits (by decide) _
  have h₂ : StateFits (oneAccount 5 1) := oneAccount_fits (by decide) _
  refine ⟨h₁, h₂, ?_, Function.injective_id, ?_⟩
  · intro he
    have hget := oneAccount_get 5 0
    rw [he, oneAccount_get] at hget
    simp at hget
  · intro it₁ it₂
    refine (root_eq_iff_visible Function.injective_id it₁ it₂ h₁ h₂).mpr ?_
    have haccounts : (oneAccount 5 0).accounts.map (fun _ a => visibleAccount a) =
        (oneAccount 5 1).accounts.map fun _ a => visibleAccount a := by
      ext k v
      simp only [Std.ExtTreeMap.getElem?_map', oneAccount, Std.ExtTreeMap.getElem?_insert]
      split <;> simp [visibleAccount]
    simp only [visibleState, haccounts]
    rfl

/-- Two states that differ in a balance have different roots. -/
theorem balance_bound :
    computeStateRootFromState keyOrder (id : Bytes → Bytes) (oneAccount 5 0) ≠
      computeStateRootFromState keyOrder id (oneAccount 6 0) := by
  have hne : oneAccount 5 0 ≠ oneAccount 6 0 := by
    intro he
    have hget := oneAccount_get 5 0
    rw [he, oneAccount_get] at hget
    simp at hget
  have hvisible : visibleState (oneAccount 5 0) = visibleState (oneAccount 6 0) →
      oneAccount 5 0 = oneAccount 6 0 := by
    intro he
    have haccounts := congrArg (fun s => s.accounts[(1 : AccountId)]?) he
    simp [visibleState, oneAccount, visibleAccount] at haccounts
  have hroot := (state_root_binds_iff (Function.injective_id (α := Bytes)) keyOrder keyOrder
    (oneAccount_fits (by decide) 0) (oneAccount_fits (by decide) 0)).mpr hvisible
  exact fun he => hne (hroot.mp he)

end TruthLinked.Consensus.RootBinding
