import TruthLinked.Ledger.ParamVotes

/-! # Spends of the treasury

The treasury cell keeps one proposal for each id in hashed slots, and the votes in slots of the same kind: the
key of a vote is the digest of the id and the account, that of a field the digest of the field's namespace and
the id. So a vote on an id that is itself such a namespace is written over a field of another proposal
(`slot_reserved`). For all other ids the storage shows the proposals an observer would note (`Shows`), each a
ballot of the same form as those on parameters. -/

namespace TruthLinked.Ledger.Treasury

open Core.Types Core.Bytes Runtime.Types Governance.Types Staking.State Ledger.Model
open Ledger.Execution Ledger.SystemCells Ledger.Slots Ledger.NativeCalls Lib.Except
open Ledger.ParamVotes (Vote Ballot Call Lawful)

/-! ## Slots -/

/-- A field of a proposal. -/
inductive Field where
  | present
  | recipient
  | amount
  | created
  | timelock
  | votesFor
  | votesAgainst
  | executed
  deriving DecidableEq

/-- The last part of the namespace of a field. -/
def Field.sub : Field → String
  | .present => "proposal.exists"
  | .recipient => "proposal.recipient"
  | .amount => "proposal.amount"
  | .created => "proposal.created"
  | .timelock => "proposal.timelock"
  | .votesFor => "proposal.votes_for"
  | .votesAgainst => "proposal.votes_against"
  | .executed => "proposal.executed"

/-- What is hashed for the namespace of a field. -/
def Field.name (f : Field) : Bytes := ("truthlinked.treasury." ++ f.sub).toUTF8.toList

/-- A slot of the treasury cell. -/
inductive Label where
  | field (f : Field) (id : Bytes32)
  | vote (id : Bytes32) (voter : AccountId)
  deriving DecidableEq

/-- The proposal a slot is about. -/
def Label.proposal : Label → Bytes32
  | .field _ id | .vote id _ => id

/-- What is hashed for a slot. -/
def Label.input (env : Env) : Label → Bytes
  | .field f id => ofBytes32 (env.sha256 f.name) ++ ofBytes32 id
  | .vote id voter => ofBytes32 id ++ ofBytes32 voter

/-- The key of a slot. -/
def Label.slot (env : Env) (l : Label) : Bytes32 := env.sha256 (l.input env)

/-- The id is the namespace of a field. -/
def Reserved (env : Env) (id : Bytes32) : Prop := ∃ f : Field, id = env.sha256 f.name

/-- The fields. -/
def fields : List Field :=
  [.present, .recipient, .amount, .created, .timelock, .votesFor, .votesAgainst, .executed]

theorem mem_fields (f : Field) : f ∈ fields := by cases f <;> decide

theorem mem_reserved {env : Env} {id : Bytes32} :
    id ∈ fields.map (fun f => env.sha256 f.name) ↔ Reserved env id := by
  rw [List.mem_map]
  exact ⟨fun ⟨f, _, hf⟩ => ⟨f, hf.symm⟩, fun ⟨f, hf⟩ => ⟨f, mem_fields f, hf.symm⟩⟩

/-- The slots of some ids, with the votes of some accounts on those that are no namespaces. -/
def labels (env : Env) (ids : List Bytes32) (voters : List AccountId) : Set Label
  | .field _ id => id ∈ ids
  | .vote id voter => id ∈ ids ∧ ¬ Reserved env id ∧ voter ∈ voters

/-- SHA-256 has no collision among what is hashed for these slots. -/
def NoCollision (env : Env) (ids : List Bytes32) (voters : List AccountId) : Prop :=
  Set.InjOn env.sha256 (Set.range Field.name ∪ Set.image (Label.input env) (labels env ids voters))

section Keys
variable {env : Env} {ids : List Bytes32} {voters : List AccountId}

/-- **A vote on a namespace** is written over a field of the proposal that has the voter's account as its
id. -/
theorem slot_reserved (f : Field) (voter : AccountId) :
    (Label.vote (env.sha256 f.name) voter).slot env = (Label.field f voter).slot env := rfl

theorem texts_distinct : (fields.map Field.name).Nodup ∧
    (sel "vote_spend" ≠ sel "propose_spend" ∧ sel "execute_spend" ≠ sel "propose_spend" ∧
      sel "execute_spend" ≠ sel "vote_spend") := by decide +kernel

theorem name_injective : Function.Injective Field.name := by
  have hnodup := texts_distinct.1
  intro f g h
  exact List.inj_on_of_nodup_map hnodup (mem_fields f) (mem_fields g) h

theorem slot_injOn (h : NoCollision env ids voters) : Set.InjOn (Label.slot env) (labels env ids voters) := by
  intro l hl l' hl' heq
  have hinput := h (.inr (Set.mem_image_of_mem _ hl)) (.inr (Set.mem_image_of_mem _ hl')) heq
  cases l with
  | field f id =>
    cases l' with
    | field g id' =>
      obtain ⟨hname, rfl⟩ := ParamVotes.field_inj hinput
      rw [name_injective (h (.inl ⟨f, rfl⟩) (.inl ⟨g, rfl⟩) hname)]
    | vote id' voter => exact absurd ⟨f, (ParamVotes.field_inj hinput).1.symm⟩ hl'.2.1
  | vote id voter =>
    cases l' with
    | field g id' => exact absurd ⟨g, (ParamVotes.field_inj hinput).1⟩ hl.2.1
    | vote id' voter' =>
      obtain ⟨rfl, rfl⟩ := ParamVotes.field_inj hinput
      rfl

end Keys

/-! ## What the handler does -/

/-- A proposal to spend: the ballot, whose value is the recipient and which is executed when it is paid, and
the amount. -/
structure Spend where
  ballot : Ballot
  amount : ℕ

/-- The spend that a `propose_spend` asks for. -/
def spendOf (c : Call) : Spend :=
  ⟨⟨(read32 c.calldata 36).getD 0, c.height, votingPeriod, (readU64 c.calldata 84).getD 0, [], false⟩,
    (readU128 c.calldata 68).getD 0⟩

/-- The vote of a `vote_spend`. -/
def voteOf (env : Env) (c : Call) : Vote :=
  ⟨ofBytes32 c.caller, stakeOfCaller env c.ledger.staking c.caller, decide (c.calldata.getD 36 0 ≠ 0)⟩

/-- The flag in a field. -/
def flagIn (env : Env) (storage : Storage) (f : Field) (id : Bytes32) : UInt8 :=
  flagAt storage (treasKey env f.sub id)

/-- The number in a field. -/
def numberIn (env : Env) (storage : Storage) (f : Field) (id : Bytes32) : ℕ :=
  readSlotU64 storage (treasKey env f.sub id)

/-- The field in which a side is counted. -/
def sideField (approve : Bool) : Field := if approve then .votesFor else .votesAgainst

/-- The writes of a proposal. -/
def proposeWrites (id : Bytes32) (b : Spend) : List (Label × Option Bytes32) :=
  [(.field .present id, some (flagWord 1)),
    (.field .recipient id, some b.ballot.value),
    (.field .amount id, some (packU128 b.amount)),
    (.field .created id, some (packU64 b.ballot.created)),
    (.field .timelock id, some (packU64 b.ballot.timelock)),
    (.field .votesFor id, some 0),
    (.field .votesAgainst id, some 0),
    (.field .executed id, some 0)]

/-- The writes of a vote. -/
def voteWrites (env : Env) (storage : Storage) (id : Bytes32) (voter : AccountId) (v : Vote) :
    List (Label × Option Bytes32) :=
  [(.vote id voter, some (flagWord 1)),
    (.field (sideField v.approve) id,
      some (packU64 (satAdd64 (numberIn env storage (sideField v.approve) id) v.stake)))]

/-- What an execution takes as recipient and amount. -/
def payOf (env : Env) (storage : Storage) (id : Bytes32) : AccountId × ℕ :=
  ((storage[treasKey env Field.recipient.sub id]?).getD 0,
    readSlotU128 storage (treasKey env Field.amount.sub id))

/-- The checks of an execution. -/
structure Passes (env : Env) (storage : Storage) (c : Call) (id : Bytes32) : Prop where
  present : flagIn env storage .present id = 1
  unpaid : flagIn env storage .executed id ≠ 1
  ended : satAdd64 (numberIn env storage .created id) votingPeriod < c.height
  matured : satAdd64 (numberIn env storage .created id) (numberIn env storage .timelock id) ≤ c.height
  checked : checkVotes (numberIn env storage .votesFor id) (numberIn env storage .votesAgainst id)
    c.ledger.staking.activeTotal = .ok ()

/-- What an accepted call is, what it writes, and what it pays. -/
inductive Effect (env : Env) (storage : Storage) (c : Call) :
    List (Label × Option Bytes32) → List (AccountId × ℕ) → Prop
  | propose (hsel : readSel c.calldata = sel "propose_spend") (hid : read32 c.calldata 4 = some c.key)
      (hfresh : flagIn env storage .present c.key ≠ 1) :
    Effect env storage c (proposeWrites c.key (spendOf c)) []
  | vote (hsel : readSel c.calldata = sel "vote_spend") (hid : read32 c.calldata 4 = some c.key)
      (hpresent : flagIn env storage .present c.key = 1)
      (hfresh : flagAt storage ((Label.vote c.key c.caller).slot env) ≠ 1) :
    Effect env storage c (voteWrites env storage c.key c.caller (voteOf env c)) []
  | execute (hsel : readSel c.calldata = sel "execute_spend") (hid : read32 c.calldata 4 = some c.key)
      (hpasses : Passes env storage c c.key) :
    Effect env storage c [(.field .executed c.key, some (flagWord 1))] [payOf env storage c.key]

theorem sel_distinct : sel "vote_spend" ≠ sel "propose_spend" ∧ sel "execute_spend" ≠ sel "propose_spend" ∧
    sel "execute_spend" ≠ sel "vote_spend" := texts_distinct.2

section Handler
variable {env : Env} {storage : Storage} {c : Call} {r : ExecutionResult}

/-- The result of a call that writes and pays. -/
def spendResult (env : Env) (gas : ℕ) (writes : List (Label × Option Bytes32)) (pays : List (AccountId × ℕ)) :
    ExecutionResult :=
  plainResult gas (writes.map fun w => (w.1.slot env, w.2)) pays
    (pays.map fun p => (treasurySystemCellId env, p.2)) []

theorem proposeSpend_effect (hsel : readSel c.calldata = sel "propose_spend")
    (h : proposeSpend env c.calldata storage c.height = .ok r) :
    ∃ writes pays, Effect env storage c writes pays ∧ writes ≠ [] ∧
      ∃ gas, r = spendResult env gas writes pays := by
  simp only [proposeSpend, okOr_bind_ok, failIf_bind_ok, pure_eq_ok] at h
  obtain ⟨-, id, hid, recipient, hrecipient, amount, hamount, timelock, htimelock, -, hfresh, rfl⟩ := h
  obtain rfl := ParamVotes.call_key hid
  refine ⟨_, _, .propose hsel hid hfresh, List.cons_ne_nil _ _, 500, ?_⟩
  simp only [proposeWrites, spendOf, hrecipient, hamount, htimelock, Option.getD_some]
  rfl

theorem voteSpend_effect (hsel : readSel c.calldata = sel "vote_spend")
    (h : voteSpend env c.calldata c.caller storage c.height c.ledger.staking = .ok r) :
    ∃ writes pays, Effect env storage c writes pays ∧ writes ≠ [] ∧
      ∃ gas, r = spendResult env gas writes pays := by
  simp only [voteSpend, okOr_bind_ok, failIf_bind_ok, pure_eq_ok] at h
  obtain ⟨-, id, hid, hpresent, -, hfresh, -, rfl⟩ := h
  obtain rfl := ParamVotes.call_key hid
  refine ⟨_, _, .vote hsel hid (not_not.mp hpresent) hfresh, List.cons_ne_nil _ _, 200, ?_⟩
  by_cases hside : c.calldata.getD 36 0 ≠ 0
  · simp only [voteWrites, voteOf, sideField, hside, ne_eq, not_false_eq_true, decide_true, if_true]
    rfl
  · simp only [voteWrites, voteOf, sideField, hside, decide_false, Bool.false_eq_true, if_false]
    rfl

theorem executeSpend_effect (hsel : readSel c.calldata = sel "execute_spend")
    (h : executeSpend env c.calldata storage c.height c.ledger.staking = .ok r) :
    ∃ writes pays, Effect env storage c writes pays ∧ writes ≠ [] ∧
      ∃ gas, r = spendResult env gas writes pays := by
  simp only [executeSpend, okOr_bind_ok, failIf_bind_ok] at h
  obtain ⟨-, id, hid, hpresent, hunpaid, hended, hmatured, -, h⟩ := h
  obtain ⟨⟨⟩, hchecked, h⟩ := bind_eq_ok.mp h
  rw [failIf_bind_ok, pure_eq_ok] at h
  obtain ⟨-, rfl⟩ := h
  obtain rfl := ParamVotes.call_key hid
  exact ⟨_, _, .execute hsel hid ⟨not_not.mp hpresent, hunpaid, not_le.mp hended, not_lt.mp hmatured, hchecked⟩,
    List.cons_ne_nil _ _, 1000, rfl⟩

/-- **What the handler does**. -/
theorem treasury_effect (h : treasury env c.calldata c.caller storage c.height c.ledger = .ok r) :
    ∃ writes pays, Effect env storage c writes pays ∧ writes ≠ [] ∧
      ∃ gas, r = spendResult env gas writes pays := by
  unfold treasury at h
  split_ifs at h with hpropose hvote hexecute
  · exact proposeSpend_effect hpropose h
  · exact voteSpend_effect hvote h
  · exact executeSpend_effect hexecute h

end Handler

/-! ## The storage shows the proposals -/

/-- The storage shows a proposal. -/
structure Shows (env : Env) (ids : List Bytes32) (voters : List AccountId) (storage : Storage) (id : Bytes32)
    (b : Spend) : Prop where
  present : flagIn env storage .present id = 1
  recipient : storage[treasKey env Field.recipient.sub id]? = some b.ballot.value
  amount : readSlotU128 storage (treasKey env Field.amount.sub id) = b.amount
  created : numberIn env storage .created id = b.ballot.created
  timelock : numberIn env storage .timelock id = b.ballot.timelock
  counted : ∀ side, numberIn env storage (sideField side) id = min (b.ballot.stakeOn side) (u64 - 1)
  executed : flagIn env storage .executed id = if b.ballot.executed then 1 else 0
  flagged : ∀ v ∈ b.ballot.votes, ∃ voter, v.pubkey = ofBytes32 voter ∧
    Label.vote id voter ∈ labels env ids voters ∧
    flagAt storage ((Label.vote id voter).slot env) = 1
  once : (b.ballot.votes.map Vote.pubkey).Nodup
  period : b.ballot.period = votingPeriod

/-- What the slots of an id show. -/
structure Shown (env : Env) (ids : List Bytes32) (voters : List AccountId) (storage : Storage) (id : Bytes32)
    (o : Option Spend) : Prop where
  empty : o = none → flagIn env storage .present id ≠ 1
  spend : ∀ b, o = some b → Shows env ids voters storage id b

/-- What is noted of a proposal after an accepted call for it. -/
def note (env : Env) (c : Call) (o : Option Spend) : Option Spend :=
  if readSel c.calldata = sel "propose_spend" then some (spendOf c)
  else if readSel c.calldata = sel "vote_spend" then
    o.map fun b => { b with ballot := { b.ballot with votes := b.ballot.votes ++ [voteOf env c] } }
  else o.map fun b => { b with ballot := { b.ballot with executed := true } }

section Storage
variable {env : Env} {ids : List Bytes32} {voters : List AccountId} {storage storage' : Storage} {id : Bytes32}
  {b : Spend} {o : Option Spend} {c : Call} {writes : List (Label × Option Bytes32)} {pays : List (AccountId × ℕ)}

theorem Shows.frame (h : Shows env ids voters storage id b) (hid : id ∈ ids)
    (hagree : ∀ l ∈ labels env ids voters, l.proposal = id → storage'[l.slot env]? = storage[l.slot env]?) :
    Shows env ids voters storage' id b := by
  have hfield : ∀ f : Field, storage'[treasKey env f.sub id]? = storage[treasKey env f.sub id]? := fun f =>
    hagree (.field f id) hid rfl
  have hnumber : ∀ f, numberIn env storage' f id = numberIn env storage f id := fun f =>
    readSlotU64_congr (hfield f)
  have hflag : ∀ f, flagIn env storage' f id = flagIn env storage f id := fun f => flagAt_congr (hfield f)
  refine ⟨?_, ?_, ?_, ?_, ?_, fun side => ?_, ?_, fun v hv => ?_, h.once, h.period⟩
  · rw [hflag, h.present]
  · rw [hfield, h.recipient]
  · rw [readSlotU128_congr (hfield _), h.amount]
  · rw [hnumber, h.created]
  · rw [hnumber, h.timelock]
  · rw [hnumber, h.counted]
  · rw [hflag, h.executed]
  · obtain ⟨voter, hvoter, hl, hset⟩ := h.flagged v hv
    exact ⟨voter, hvoter, hl, by rw [flagAt_congr (hagree _ hl rfl), hset]⟩

theorem Shown.frame (h : Shown env ids voters storage id o) (hid : id ∈ ids)
    (hagree : ∀ l ∈ labels env ids voters, l.proposal = id → storage'[l.slot env]? = storage[l.slot env]?) :
    Shown env ids voters storage' id o := by
  refine ⟨fun hnone => ?_, fun b hb => (h.spend b hb).frame hid hagree⟩
  have hflag : flagIn env storage' .present id = flagIn env storage .present id :=
    flagAt_congr (hagree (.field .present id) hid rfl)
  rw [hflag]
  exact h.empty hnone

theorem Shown.open (h : Shown env ids voters storage id o) (hpresent : flagIn env storage .present id = 1) :
    ∃ b, o = some b ∧ Shows env ids voters storage id b := by
  cases o with
  | none => exact absurd hpresent (h.empty rfl)
  | some b => exact ⟨b, rfl, h.spend b rfl⟩

theorem Effect.proposal (h : Effect env storage c writes pays) : ∀ w ∈ writes, w.1.proposal = c.key := by
  cases h with
  | propose hsel hid hfresh => simp [proposeWrites, Label.proposal]
  | vote hsel hid hpresent hfresh => simp [voteWrites, Label.proposal]
  | execute hsel hid hpasses => simp [Label.proposal]

theorem Effect.payee (h : Effect env storage c writes pays) : pays = [] ∨ ∃ p, pays = [p] := by
  cases h with
  | propose hsel hid hfresh => exact .inl rfl
  | vote hsel hid hpresent hfresh => exact .inl rfl
  | execute hsel hid hpasses => exact .inr ⟨_, rfl⟩

theorem Effect.paying (h : Effect env storage c writes pays) (hne : pays ≠ []) :
    readSel c.calldata = sel "execute_spend" := by
  cases h with
  | propose hsel hid hfresh => exact absurd rfl hne
  | vote hsel hid hpresent hfresh => exact absurd rfl hne
  | execute hsel hid hpasses => exact hsel

theorem Effect.voting (h : Effect env storage c writes pays) (hsel : readSel c.calldata = sel "vote_spend") :
    flagIn env storage .present c.key = 1 := by
  obtain ⟨hvp, -, hev⟩ := sel_distinct
  cases h with
  | propose hsel' hid hfresh => exact absurd (hsel.symm.trans hsel') hvp
  | vote hsel' hid hpresent hfresh => exact hpresent
  | execute hsel' hid hpasses => exact absurd (hsel'.symm.trans hsel) hev

theorem Effect.read (h : Effect env storage c writes pays) : read32 c.calldata 4 = some c.key := by
  cases h <;> assumption

theorem Effect.others (h : Effect env storage c writes pays)
    (hw : Written (Label.slot env) (labels env ids voters) writes storage storage') (hne : id ≠ c.key) :
    ∀ l ∈ labels env ids voters, l.proposal = id → storage'[l.slot env]? = storage[l.slot env]? := by
  intro l hl hproposal
  refine hw.same hl fun w hmem heq => hne ?_
  rw [← hproposal, ← heq, h.proposal w hmem]

theorem Effect.labels (h : Effect env storage c writes pays) (hid : c.key ∈ ids)
    (hvote : readSel c.calldata = sel "vote_spend" → ¬ Reserved env c.key ∧ c.caller ∈ voters) :
    ∀ w ∈ writes, w.1 ∈ labels env ids voters := by
  have hfield : ∀ f, Label.field f c.key ∈ Treasury.labels env ids voters := fun _ => hid
  cases h with
  | propose hsel hid hfresh => simp [proposeWrites, hfield]
  | vote hsel _ hpresent hfresh =>
    have hlabel : Label.vote c.key c.caller ∈ Treasury.labels env ids voters := ⟨hid, hvote hsel⟩
    simp [voteWrites, hfield, hlabel]
  | execute hsel hid hpasses => simp [hfield]

/-! ### One call -/

theorem readU128_getD_lt (cd : Bytes) (off : ℕ) : (readU128 cd off).getD 0 < u128 := by
  unfold readU128 readLe
  split
  · have hlt := leNat_lt (slice cd off (off + 16))
    have hle : (slice cd off (off + 16)).length ≤ 16 := by
      rw [slice, List.length_take]
      omega
    exact hlt.trans_le (Nat.pow_le_pow_right (by decide) hle)
  · decide

theorem shows_propose
    (hw : Written (Label.slot env) (labels env ids voters) (proposeWrites id (spendOf c)) storage storage')
    (hid : id ∈ ids) : Shows env ids voters storage' id (spendOf c) := by
  have hfield : ∀ f, Label.field f id ∈ labels env ids voters := fun _ => hid
  have hzero : decodeU64 0 = 0 := ParamVotes.texts_distinct.2.2.2
  have hflag : (ofBytes32 0).headD 0 = 0 := rfl
  have hside : ∀ side, storage'[(Label.field (sideField side) id).slot env]? = some 0 := by
    intro side
    refine (hw _ (hfield _)).trans ?_
    cases side <;> simp [proposeWrites, overlaid, sideField]
  have hpresent := hw.flag (hfield .present) (v := flagWord 1) fun old => by simp [proposeWrites, overlaid]
  rw [headD_flagWord] at hpresent
  have hexecuted := hw.flag (hfield .executed) (v := 0) fun old => by simp [proposeWrites, overlaid]
  rw [hflag] at hexecuted
  refine ⟨hpresent, ?_, ?_, ?_, ?_, fun side => ?_, hexecuted, fun v hv => absurd hv List.not_mem_nil,
    List.nodup_nil, rfl⟩
  · refine (hw _ (hfield .recipient)).trans ?_
    simp [proposeWrites, overlaid]
  · exact hw.amount (hfield .amount) (readU128_getD_lt _ _) fun old => by simp [proposeWrites, overlaid, spendOf]
  · exact hw.number (hfield .created) c.height_lt fun old => by simp [proposeWrites, overlaid, spendOf]
  · exact hw.number (hfield .timelock) (ParamVotes.readU64_getD_lt _ _) fun old => by
      simp [proposeWrites, overlaid, spendOf]
  · exact (readSlotU64_of_some (hside side)).trans hzero

theorem shows_vote {voter : AccountId} {v : Vote} (h : Shows env ids voters storage id b) (hid : id ∈ ids)
    (hl : Label.vote id voter ∈ labels env ids voters) (hv : v.pubkey = ofBytes32 voter)
    (hw : Written (Label.slot env) (labels env ids voters) (voteWrites env storage id voter v) storage storage')
    (hfresh : flagAt storage ((Label.vote id voter).slot env) ≠ 1) :
    Shows env ids voters storage' id { b with ballot := { b.ballot with votes := b.ballot.votes ++ [v] } } := by
  have hfield : ∀ f, Label.field f id ∈ labels env ids voters := fun _ => hid
  have hsame : ∀ f, f ≠ sideField v.approve →
      storage'[(Label.field f id).slot env]? = storage[(Label.field f id).slot env]? := by
    intro f hf
    refine hw.same (hfield f) ?_
    simp [voteWrites, Ne.symm hf]
  have hnumber : ∀ f, f ≠ sideField v.approve → numberIn env storage' f id = numberIn env storage f id :=
    fun f hf => readSlotU64_congr (hsame f hf)
  have hapart : ∀ f, f ∉ [Field.votesFor, Field.votesAgainst] → f ≠ sideField v.approve := by
    intro f hf
    unfold sideField
    split <;> simp_all
  have hnew : v.pubkey ∉ b.ballot.votes.map Vote.pubkey := by
    intro hmem
    obtain ⟨u, hu, heq⟩ := List.mem_map.mp hmem
    obtain ⟨voter', hvoter', -, hset⟩ := h.flagged u hu
    have hsame : voter' = voter := by
      rw [← toBytes32_ofBytes32 voter', ← hvoter', heq, hv, toBytes32_ofBytes32]
    exact hfresh (hsame ▸ hset)
  have hcast : flagAt storage' ((Label.vote id voter).slot env) = 1 :=
    (hw.flag hl (v := flagWord 1) fun old => by simp [voteWrites, overlaid]).trans (headD_flagWord 1)
  refine ⟨?_, ?_, ?_, ?_, ?_, fun side => ?_, ?_, fun u hu => ?_, ?_, h.period⟩
  · exact (flagAt_congr (hsame .present (hapart _ (by decide)))).trans h.present
  · exact (hsame .recipient (hapart _ (by decide))).trans h.recipient
  · exact (readSlotU128_congr (hsame .amount (hapart _ (by decide)))).trans h.amount
  · exact (hnumber .created (hapart _ (by decide))).trans h.created
  · exact (hnumber .timelock (hapart _ (by decide))).trans h.timelock
  · rw [ParamVotes.stakeOn_append]
    by_cases hside : v.approve = side
    · subst hside
      have hcount := hw.number (hfield (sideField v.approve))
        (ParamVotes.satAdd64_lt (numberIn env storage (sideField v.approve) id) v.stake) fun old => by
          simp [voteWrites, overlaid]
      have hold := h.counted v.approve
      rw [hold] at hcount
      refine hcount.trans ?_
      rw [if_pos rfl, satAdd64]
      omega
    · have hne : sideField side ≠ sideField v.approve := by
        cases side <;> cases hv : v.approve <;> simp_all [sideField]
      rw [hnumber _ hne, h.counted, if_neg hside, Nat.add_zero]
  · exact (flagAt_congr (hsame .executed (hapart _ (by decide)))).trans h.executed
  · rcases List.mem_append.mp hu with hold | hlast
    · obtain ⟨voter', hvoter', hl', hset⟩ := h.flagged u hold
      refine ⟨voter', hvoter', hl', ?_⟩
      by_cases heq : voter' = voter
      · rw [heq]
        exact hcast
      · -- the slot of another voter is not written
        have hother := hw.same hl' (by simp [voteWrites, Ne.symm heq])
        rw [flagAt_congr hother, hset]
    · obtain rfl := List.mem_singleton.mp hlast
      exact ⟨voter, hv, hl, hcast⟩
  · rw [List.map_append]
    exact h.once.append (List.nodup_singleton _) (List.disjoint_singleton.mpr hnew)

theorem shows_execute (h : Shows env ids voters storage id b) (hid : id ∈ ids)
    (hw : Written (Label.slot env) (labels env ids voters) [(.field .executed id, some (flagWord 1))]
      storage storage') :
    Shows env ids voters storage' id { b with ballot := { b.ballot with executed := true } } := by
  have hfield : ∀ f, Label.field f id ∈ labels env ids voters := fun _ => hid
  have hsame : ∀ f : Field, f ≠ .executed →
      storage'[(Label.field f id).slot env]? = storage[(Label.field f id).slot env]? := by
    intro f hf
    refine hw.same (hfield f) ?_
    simp [Ne.symm hf]
  refine ⟨?_, ?_, ?_, ?_, ?_, fun side => ?_, ?_, fun v hv => ?_, h.once, h.period⟩
  · exact (flagAt_congr (hsame .present (by decide))).trans h.present
  · exact (hsame .recipient (by decide)).trans h.recipient
  · exact (readSlotU128_congr (hsame .amount (by decide))).trans h.amount
  · exact (readSlotU64_congr (hsame .created (by decide))).trans h.created
  · exact (readSlotU64_congr (hsame .timelock (by decide))).trans h.timelock
  · exact (readSlotU64_congr (hsame (sideField side) (by cases side <;> decide))).trans (h.counted side)
  · exact (hw.flag (hfield .executed) (v := flagWord 1) fun old => by simp [overlaid]).trans (headD_flagWord 1)
  · obtain ⟨voter, hvoter, hl, hset⟩ := h.flagged v hv
    exact ⟨voter, hvoter, hl, (flagAt_congr (hw.same hl (by simp))).trans hset⟩

/-- **The proposal of an accepted call** after it. -/
theorem shown_note (he : Effect env storage c writes pays)
    (hw : Written (Label.slot env) (labels env ids voters) writes storage storage') (hid : c.key ∈ ids)
    (hvote : readSel c.calldata = sel "vote_spend" → ¬ Reserved env c.key ∧ c.caller ∈ voters)
    (h : Shown env ids voters storage c.key o) : Shown env ids voters storage' c.key (note env c o) := by
  obtain ⟨hvp, hep, hev⟩ := sel_distinct
  cases he with
  | propose hsel _ _ =>
    have hnote : note env c o = some (spendOf c) := by rw [note, if_pos hsel]
    rw [hnote]
    refine ⟨nofun, fun b hb => ?_⟩
    rw [← Option.some.inj hb]
    exact shows_propose hw hid
  | vote hsel _ hpresent hfresh =>
    obtain ⟨b, rfl, hshows⟩ := h.open hpresent
    rw [note, if_neg (hsel ▸ hvp), if_pos hsel]
    refine ⟨nofun, fun b' hb => ?_⟩
    rw [← Option.some.inj hb]
    exact shows_vote hshows hid ⟨hid, hvote hsel⟩ rfl hw hfresh
  | execute hsel _ hpasses =>
    obtain ⟨b, rfl, hshows⟩ := h.open hpasses.present
    rw [note, if_neg (hsel ▸ hep), if_neg (hsel ▸ hev)]
    refine ⟨nofun, fun b' hb => ?_⟩
    rw [← Option.some.inj hb]
    exact shows_execute hshows hid hw

/-- **An accepted execution** is of an unpaid proposal, with its recipient and its amount. -/
theorem Effect.executing (he : Effect env storage c writes pays) (hsel : readSel c.calldata = sel "execute_spend")
    (h : Shown env ids voters storage c.key o) :
    ∃ b, o = some b ∧ b.ballot.executed = false ∧ Shows env ids voters storage c.key b ∧
      Passes env storage c c.key ∧ pays = [(b.ballot.value, b.amount)] := by
  obtain ⟨-, hep, hev⟩ := sel_distinct
  cases he with
  | propose hsel' _ _ => exact absurd (hsel.symm.trans hsel') hep
  | vote hsel' _ _ _ => exact absurd (hsel.symm.trans hsel') hev
  | execute _ _ hpasses =>
    obtain ⟨b, rfl, hshows⟩ := h.open hpasses.present
    refine ⟨b, rfl, ?_, hshows, hpasses, ?_⟩
    · have hflag := hpasses.unpaid
      rw [hshows.executed] at hflag
      cases hb : b.ballot.executed with
      | false => rfl
      | true => rw [hb] at hflag; exact absurd rfl hflag
    · rw [payOf, hshows.recipient, hshows.amount]
      rfl

/-- **An execution that passes** is lawful where its comparisons are exact. -/
theorem lawful_of_passes (h : Shows env ids voters storage c.key b) (hp : Passes env storage c c.key)
    (hunpaid : b.ballot.executed = false) (hvotes : 2 * b.ballot.stake < u64)
    (hactive : ParamVotes.activeStake c.ledger.staking < u64) (hheight : c.height + 1 < u64) :
    Lawful c b.ballot := by
  have hfor : numberIn env storage .votesFor c.key = min (b.ballot.stakeOn true) (u64 - 1) := h.counted true
  have hagainst : numberIn env storage .votesAgainst c.key = min (b.ballot.stakeOn false) (u64 - 1) :=
    h.counted false
  rw [ParamVotes.stake_eq] at hvotes
  have hchecked := hp.checked
  rw [ParamVotes.activeTotal_eq hactive, hfor, hagainst, Nat.min_eq_left (by omega), Nat.min_eq_left (by omega)]
    at hchecked
  obtain ⟨hquorum, happroval⟩ := ParamVotes.checkVotes_exact hchecked hvotes hactive
  rw [← ParamVotes.stake_eq] at hquorum happroval
  have hended := hp.ended
  have hmatured := hp.matured
  rw [h.created, satAdd64] at hended
  rw [h.created, h.timelock, satAdd64] at hmatured
  -- a saturated end of the voting is never over
  have hunsaturated : ∀ {a n : ℕ}, min (a + n) (u64 - 1) < c.height → a + n < c.height := by
    intro a n hlt
    omega
  refine ⟨?_, by omega, happroval, hquorum, h.once, hunpaid⟩
  rw [h.period]
  exact hunsaturated hended

end Storage

end TruthLinked.Ledger.Treasury
