import TruthLinked.Ledger.NativeCalls
import Mathlib.Data.Set.Function

/-! # Votes on parameters

The governance cell keeps one proposal for each parameter in hashed slots that the next round overwrites.
`Ballot` is a round as an observer would note it: when it was proposed, who voted with which stake, whether it
was executed. The storage shows the last round of every parameter (`Shows`); what a call checks in the storage
is then a fact about the votes. The comparisons are made with saturating products, so for votes of more than
half the range of a `u64` the approval of two thirds is not what is checked. -/

namespace TruthLinked.Ledger.ParamVotes

open Core.Types Core.Bytes Runtime.Cells Runtime.Types Governance.Types Staking.State Ledger.Model
open Ledger.Phases Ledger.Execution Ledger.SystemCells Ledger.Slots Ledger.Mcp Ledger.NativeCalls
open Staking.Specs Lib.Except Lib.Run Ledger.MergeAgreement Ledger.ComputeCells Ledger.ComputeSpec
open Ledger.Coverage Ledger.Executor Lib.Table

/-! ## Slots -/

/-- A field of a proposal, or the parameter. -/
inductive Field where
  | present
  | nonce
  | value
  | proposer
  | created
  | votingEnds
  | timelock
  | votesFor
  | votesAgainst
  | executed
  | params
  deriving DecidableEq

/-- The last part of the namespace of a field. -/
def Field.sub : Field → String
  | .present => "proposal.exists"
  | .nonce => "proposal.nonce"
  | .value => "proposal.value"
  | .proposer => "proposal.proposer"
  | .created => "proposal.created"
  | .votingEnds => "proposal.voting_ends"
  | .timelock => "proposal.timelock"
  | .votesFor => "proposal.votes_for"
  | .votesAgainst => "proposal.votes_against"
  | .executed => "proposal.executed"
  | .params => "params"

/-- What is hashed for the namespace of a field. -/
def Field.name (f : Field) : Bytes := ("truthlinked.gov." ++ f.sub).toUTF8.toList

/-- A slot of the governance cell. -/
inductive Label where
  | field (f : Field) (key : Bytes32)
  | vote (key : Bytes32) (nonce : ℕ) (pubkey : Bytes)
  deriving DecidableEq

/-- The parameter a slot is about. -/
def Label.param : Label → Bytes32
  | .field _ key | .vote key _ _ => key

/-- What is hashed for a slot. -/
def Label.input (env : Env) : Label → Bytes
  | .field f key => ofBytes32 (env.sha256 f.name) ++ ofBytes32 key
  | .vote key nonce pubkey =>
    "truthlinked.gov.vote.v1".toUTF8.toList ++ ofBytes32 key ++ leBytes 8 nonce ++ pubkey

/-- The key of a slot. -/
def Label.slot (env : Env) (l : Label) : Bytes32 := env.sha256 (l.input env)

/-- A call of the cell, with the ledger whose stakes it reads. -/
structure Call where
  caller : AccountId
  calldata : Bytes
  height : ℕ
  ledger : State
  height_lt : height < u64

/-- `propose_param`, `vote_param` or `execute_param`. -/
def Call.OfParam (c : Call) : Prop :=
  readSel c.calldata ∈ [sel "propose_param", sel "vote_param", sel "execute_param"]

instance (c : Call) : Decidable c.OfParam :=
  inferInstanceAs (Decidable (readSel c.calldata ∈ [sel "propose_param", sel "vote_param", sel "execute_param"]))

/-- The parameters that some calls are about. -/
def keysOf (calls : List Call) : List Bytes32 := calls.filterMap fun c => read32 c.calldata 4

/-- The keys that vote in some calls. -/
def votersOf (calls : List Call) : List Bytes :=
  calls.filterMap fun c => if readSel c.calldata = sel "vote_param" then readPubkey c.calldata 44 else none

/-- The slots that some calls can touch. -/
def labels (calls : List Call) : Set Label
  | .field _ key => key ∈ keysOf calls
  | .vote key nonce pubkey => key ∈ keysOf calls ∧ nonce ≤ calls.length ∧ nonce < u64 ∧ pubkey ∈ votersOf calls

/-- SHA-256 has no collision among what is hashed for these slots. -/
def NoCollision (env : Env) (calls : List Call) : Prop :=
  Set.InjOn env.sha256 (Set.range Field.name ∪ Set.image (Label.input env) (labels calls))

section Keys
variable {env : Env} {calls : List Call}

theorem length_readPubkey {cd pubkey : Bytes} {off : ℕ} (h : readPubkey cd off = some pubkey) :
    pubkey.length = pubkeyLen := by
  unfold readPubkey at h
  split at h
  · cases h
  · obtain rfl := Option.some.inj h
    rw [slice, List.length_take, List.length_drop]
    omega

theorem length_of_mem_votersOf {pubkey : Bytes} (h : pubkey ∈ votersOf calls) : pubkey.length = pubkeyLen := by
  obtain ⟨c, -, hc⟩ := List.mem_filterMap.mp h
  split at hc
  · exact length_readPubkey hc
  · cases hc

theorem mem_votersOf {c : Call} {pubkey : Bytes} (hc : c ∈ calls) (hsel : readSel c.calldata = sel "vote_param")
    (h : readPubkey c.calldata 44 = some pubkey) : pubkey ∈ votersOf calls :=
  List.mem_filterMap.mpr ⟨c, hc, by rw [if_pos hsel, h]⟩

/-- The names, the selectors and the tag of a vote, and an empty slot. -/
theorem texts_distinct :
    ([Field.present, .nonce, .value, .proposer, .created, .votingEnds, .timelock, .votesFor, .votesAgainst,
      .executed, .params].map Field.name).Nodup ∧
    (sel "propose_param" ≠ sel "get_param" ∧ sel "vote_param" ≠ sel "get_param" ∧
      sel "execute_param" ≠ sel "get_param" ∧ sel "vote_param" ≠ sel "propose_param" ∧
      sel "execute_param" ≠ sel "propose_param" ∧ sel "execute_param" ≠ sel "vote_param") ∧
    "truthlinked.gov.vote.v1".toUTF8.toList.length = 23 ∧ decodeU64 0 = 0 := by decide +kernel

theorem name_injective : Function.Injective Field.name := by
  have hnodup := texts_distinct.1
  intro f g h
  exact List.inj_on_of_nodup_map hnodup (by cases f <;> simp) (by cases g <;> simp) h

/-- Two inputs of fields are told apart by the namespace and the parameter. -/
theorem field_inj {a b k l : Bytes32} (h : ofBytes32 a ++ ofBytes32 k = ofBytes32 b ++ ofBytes32 l) :
    a = b ∧ k = l := by
  obtain ⟨h1, h2⟩ := List.append_inj h (by simp)
  exact ⟨by rw [← toBytes32_ofBytes32 a, h1, toBytes32_ofBytes32], by
    rw [← toBytes32_ofBytes32 k, h2, toBytes32_ofBytes32]⟩

theorem vote_inj {k l : Bytes32} {m n : ℕ} {p q : Bytes} (hm : m < u64) (hn : n < u64)
    (h : (Label.vote k m p).input env = (Label.vote l n q).input env) : k = l ∧ m = n ∧ p = q := by
  simp only [Label.input, List.append_assoc, List.append_cancel_left_eq] at h
  obtain ⟨h1, h2⟩ := List.append_inj h (by simp)
  obtain ⟨h3, h4⟩ := List.append_inj h2 (by simp)
  exact ⟨by rw [← toBytes32_ofBytes32 k, h1, toBytes32_ofBytes32], (leBytes_inj hm hn).mp h3, h4⟩

theorem length_vote (key : Bytes32) (nonce : ℕ) {pubkey : Bytes} (h : pubkey.length = pubkeyLen) :
    ((Label.vote key nonce pubkey).input env).length = 2015 := by
  have htag := texts_distinct.2.2.1
  simp only [Label.input, List.length_append, htag, length_ofBytes32, length_leBytes, h, pubkeyLen, Nat.reduceAdd]

theorem slot_injOn (h : NoCollision env calls) : Set.InjOn (Label.slot env) (labels calls) := by
  intro l hl l' hl' heq
  have hinput := h (.inr (Set.mem_image_of_mem _ hl)) (.inr (Set.mem_image_of_mem _ hl')) heq
  have hlen := congrArg List.length hinput
  have hfield : ∀ f key, ((Label.field f key).input env).length = 64 := by simp [Label.input]
  cases l with
  | field f k =>
    cases l' with
    | field g k' =>
      obtain ⟨hname, rfl⟩ := field_inj hinput
      have hfg := h (.inl ⟨f, rfl⟩) (.inl ⟨g, rfl⟩) hname
      rw [name_injective hfg]
    | vote k' n p =>
      rw [hfield, length_vote _ _ (length_of_mem_votersOf hl'.2.2.2)] at hlen
      cases hlen
  | vote k n p =>
    cases l' with
    | field g k' =>
      rw [hfield, length_vote _ _ (length_of_mem_votersOf hl.2.2.2)] at hlen
      cases hlen
    | vote k' n' p' =>
      obtain ⟨rfl, rfl, rfl⟩ := vote_inj hl.2.2.1 hl'.2.2.1 hinput
      rfl

end Keys

/-! ## Rounds -/

/-- A vote, with the stake it counted for. -/
structure Vote where
  pubkey : Bytes
  stake : ℕ
  approve : Bool

/-- A round of voting on a parameter. -/
structure Ballot where
  value : Bytes32
  created : ℕ
  period : ℕ
  timelock : ℕ
  votes : List Vote
  executed : Bool

/-- The stake that voted for (`true`) or against (`false`). -/
def Ballot.stakeOn (b : Ballot) (side : Bool) : ℕ :=
  ((b.votes.filter fun v => v.approve = side).map Vote.stake).sum

/-- The stake that voted. -/
def Ballot.stake (b : Ballot) : ℕ := (b.votes.map Vote.stake).sum

/-- The cell, the parameters, and what an observer has noted: the rounds of each parameter, the last one
first, and which of them were executed, by number. -/
structure Chamber where
  storage : Storage
  params : Map Bytes32 Bytes32
  rounds : Bytes32 → List Ballot
  executions : List (Bytes32 × ℕ)

/-- The parameter a call is about. -/
def Call.key (c : Call) : Bytes32 := (read32 c.calldata 4).getD 0

/-- The round that a `propose_param` starts. -/
def Call.ballot (c : Call) : Ballot :=
  ⟨(read32 c.calldata 36).getD 0, c.height, (readU64 c.calldata 68).getD 0,
    (readU64 c.calldata 76).getD 0, [], false⟩

/-- The vote of a `vote_param`. -/
def Call.vote (c : Call) : Vote :=
  let pubkey := (readPubkey c.calldata 44).getD []
  ⟨pubkey, stakeOfKey c.ledger.staking pubkey, decide ((readU64 c.calldata 36).getD 0 ≠ 0)⟩

/-- The rounds after an accepted call. -/
def Call.note (c : Call) (rounds : List Ballot) : List Ballot :=
  if readSel c.calldata = sel "propose_param" then c.ballot :: rounds
  else if readSel c.calldata = sel "vote_param" then
    rounds.modifyHead fun b => { b with votes := b.votes ++ [c.vote] }
  else rounds.modifyHead fun b => { b with executed := true }

/-- One call. A refused one changes nothing. -/
def step (env : Env) (g : Chamber) (c : Call) : Chamber :=
  match governance env c.calldata c.caller g.storage c.height c.ledger with
  | .error _ => g
  | .ok r =>
    { storage := changeStorage g.storage (fromList r.storageDiff)
      params := r.paramUpdates.foldl (fun m (k, v) => m.insert k v) g.params
      rounds := Function.update g.rounds c.key (c.note (g.rounds c.key))
      executions := if readSel c.calldata = sel "execute_param" then
          g.executions ++ [(c.key, (g.rounds c.key).length)]
        else g.executions }

/-- The cell of the genesis, with some parameters. -/
def Chamber.genesis (params : Map Bytes32 Bytes32) : Chamber := ⟨∅, params, fun _ => [], []⟩

/-! ## What the handler does -/

/-- The flag in a field. -/
def flagIn (env : Env) (storage : Storage) (f : Field) (key : Bytes32) : UInt8 :=
  flagAt storage (govKey env f.sub key)

/-- The number in a field. -/
def numberIn (env : Env) (storage : Storage) (f : Field) (key : Bytes32) : ℕ :=
  readSlotU64 storage (govKey env f.sub key)

/-- The writes of a proposal. -/
def proposeWrites (env : Env) (storage : Storage) (c : Call) (key : Bytes32) (b : Ballot) :
    List (Label × Option Bytes32) :=
  [(.field .present key, some (flagWord 1)),
    (.field .nonce key, some (packU64 (satAdd64 (numberIn env storage .nonce key) 1))),
    (.field .value key, some b.value),
    (.field .proposer key, some c.caller),
    (.field .created key, some (packU64 b.created)),
    (.field .votingEnds key, some (packU64 (satAdd64 b.created b.period))),
    (.field .timelock key, some (packU64 b.timelock)),
    (.field .votesFor key, some 0),
    (.field .votesAgainst key, some 0),
    (.field .executed key, some 0)]

/-- The field in which a side is counted. -/
def sideField (approve : Bool) : Field := if approve then .votesFor else .votesAgainst

/-- The writes of a vote. -/
def voteWrites (env : Env) (storage : Storage) (key : Bytes32) (v : Vote) : List (Label × Option Bytes32) :=
  [(.vote key (numberIn env storage .nonce key) v.pubkey, some (flagWord 1)),
    (.field (sideField v.approve) key,
      some (packU64 (satAdd64 (numberIn env storage (sideField v.approve) key) v.stake)))]

/-- The checks of an execution. -/
structure Passes (env : Env) (storage : Storage) (c : Call) (key : Bytes32) : Prop where
  present : flagIn env storage .present key = 1
  pending : flagIn env storage .executed key ≠ 1
  ended : numberIn env storage .votingEnds key < c.height
  matured : satAdd64 (numberIn env storage .created key) (numberIn env storage .timelock key) ≤ c.height
  checked : checkVotes (numberIn env storage .votesFor key) (numberIn env storage .votesAgainst key)
    c.ledger.staking.activeTotal = .ok ()

/-- What an accepted call is, what it writes, and the parameters it sets. -/
inductive Effect (env : Env) (storage : Storage) (c : Call) :
    List (Label × Option Bytes32) → List (Bytes32 × Bytes32) → Prop
  | propose (hsel : readSel c.calldata = sel "propose_param") (hkey : read32 c.calldata 4 = some c.key) :
    Effect env storage c (proposeWrites env storage c c.key c.ballot) []
  | vote (hsel : readSel c.calldata = sel "vote_param") (hkey : read32 c.calldata 4 = some c.key)
      (hpubkey : readPubkey c.calldata 44 = some c.vote.pubkey) (hpresent : flagIn env storage .present c.key = 1)
      (hpending : flagIn env storage .executed c.key ≠ 1)
      (hfresh : flagAt storage
        ((Label.vote c.key (numberIn env storage .nonce c.key) c.vote.pubkey).slot env) ≠ 1) :
    Effect env storage c (voteWrites env storage c.key c.vote) []
  | execute (hsel : readSel c.calldata = sel "execute_param") (hkey : read32 c.calldata 4 = some c.key)
      (hpasses : Passes env storage c c.key) :
    Effect env storage c
      [(.field .executed c.key, some (flagWord 1)),
        (.field .params c.key, some ((storage[govKey env Field.value.sub c.key]?).getD 0))]
      [(c.key, (storage[govKey env Field.value.sub c.key]?).getD 0)]

theorem sel_distinct : sel "propose_param" ≠ sel "get_param" ∧ sel "vote_param" ≠ sel "get_param" ∧
    sel "execute_param" ≠ sel "get_param" ∧ sel "vote_param" ≠ sel "propose_param" ∧
    sel "execute_param" ≠ sel "propose_param" ∧ sel "execute_param" ≠ sel "vote_param" := texts_distinct.2.1

section Handler
variable {env : Env} {storage : Storage} {c : Call} {r : ExecutionResult}

theorem call_key {key : Bytes32} (h : read32 c.calldata 4 = some key) : c.key = key := by
  rw [Call.key, h]
  rfl

theorem proposeParam_effect (hsel : readSel c.calldata = sel "propose_param")
    (h : proposeParam env c.calldata c.caller storage c.height c.ledger.staking = .ok r) :
    ∃ writes params, Effect env storage c writes params ∧ writes ≠ [] ∧
      ∃ gas, r = plainResult gas (writes.map fun w => (w.1.slot env, w.2)) [] [] params := by
  simp only [proposeParam, okOr_bind_ok, failIf_bind_ok, pure_eq_ok] at h
  obtain ⟨key, hkey, -, value, hvalue, period, hperiod, timelock, htimelock, -, pubkey, -, -, -, -, rfl⟩ := h
  obtain rfl := call_key hkey
  refine ⟨_, _, .propose hsel hkey, List.cons_ne_nil _ _, 500, ?_⟩
  simp only [proposeWrites, Call.ballot, hvalue, hperiod, htimelock, Option.getD_some]
  rfl

theorem voteParam_effect (hsel : readSel c.calldata = sel "vote_param")
    (h : voteParam env c.calldata c.caller storage c.height c.ledger.staking = .ok r) :
    ∃ writes params, Effect env storage c writes params ∧ writes ≠ [] ∧
      ∃ gas, r = plainResult gas (writes.map fun w => (w.1.slot env, w.2)) [] [] params := by
  simp only [voteParam, okOr_bind_ok, failIf_bind_ok, pure_eq_ok] at h
  obtain ⟨key, hkey, approve, happrove, pubkey, hpubkey, -, -, hpresent, hpending, -, hfresh, rfl⟩ := h
  obtain rfl := call_key hkey
  have hvote : c.vote = ⟨pubkey, stakeOfKey c.ledger.staking pubkey, decide (approve ≠ 0)⟩ := by
    rw [Call.vote, hpubkey, happrove]
    rfl
  refine ⟨_, _, .vote hsel hkey ?_ (not_not.mp hpresent) hpending ?_, List.cons_ne_nil _ _, 200, ?_⟩
  · rw [hvote, hpubkey]
  · rw [hvote]
    exact hfresh
  · rw [hvote]
    by_cases hzero : approve = 0
    · subst hzero
      rfl
    · simp only [voteWrites, sideField, hzero, ne_eq, not_false_eq_true, decide_true, if_true]
      rfl

theorem executeParam_effect (hsel : readSel c.calldata = sel "execute_param")
    (h : executeParam env c.calldata storage c.height c.ledger.staking = .ok r) :
    ∃ writes params, Effect env storage c writes params ∧ writes ≠ [] ∧
      ∃ gas, r = plainResult gas (writes.map fun w => (w.1.slot env, w.2)) [] [] params := by
  simp only [executeParam, okOr_bind_ok, failIf_bind_ok] at h
  obtain ⟨key, hkey, -, hpresent, hpending, hended, hmatured, -, h⟩ := h
  obtain ⟨⟨⟩, hchecked, h⟩ := bind_eq_ok.mp h
  rw [failIf_bind_ok, pure_eq_ok] at h
  obtain ⟨-, rfl⟩ := h
  obtain rfl := call_key hkey
  exact ⟨_, _, .execute hsel hkey ⟨not_not.mp hpresent, hpending, not_le.mp hended, not_lt.mp hmatured, hchecked⟩,
    List.cons_ne_nil _ _, 1000, rfl⟩

/-- **What the handler does**. -/
theorem governance_effect (hc : c.OfParam)
    (h : governance env c.calldata c.caller storage c.height c.ledger = .ok r) :
    ∃ writes params, Effect env storage c writes params ∧ writes ≠ [] ∧
      ∃ gas, r = plainResult gas (writes.map fun w => (w.1.slot env, w.2)) [] [] params := by
  obtain ⟨h1, h2, h3, h4, h5, h6⟩ := sel_distinct
  simp only [Call.OfParam, List.mem_cons, List.not_mem_nil, or_false] at hc
  unfold governance at h
  rcases hc with hsel | hsel | hsel
  · rw [hsel, if_neg h1, if_pos rfl] at h
    exact proposeParam_effect hsel h
  · rw [hsel, if_neg h2, if_neg h4, if_pos rfl] at h
    exact voteParam_effect hsel h
  · rw [hsel, if_neg h3, if_neg h5, if_neg h6, if_pos rfl] at h
    exact executeParam_effect hsel h

end Handler

/-! ## The storage shows the rounds -/

/-- The storage shows a round as the last one of a parameter, `n` being how many there were. -/
structure Shows (env : Env) (calls : List Call) (storage : Storage) (key : Bytes32)
    (b : Ballot) (n : ℕ) : Prop where
  present : flagIn env storage .present key = 1
  value : storage[govKey env Field.value.sub key]? = some b.value
  created : numberIn env storage .created key = b.created
  votingEnds : numberIn env storage .votingEnds key = satAdd64 b.created b.period
  timelock : numberIn env storage .timelock key = b.timelock
  counted : ∀ side, numberIn env storage (sideField side) key = min (b.stakeOn side) (u64 - 1)
  executed : flagIn env storage .executed key = if b.executed then 1 else 0
  flagged : ∀ v ∈ b.votes, flagAt storage ((Label.vote key (min n (u64 - 1)) v.pubkey).slot env) = 1
  once : (b.votes.map Vote.pubkey).Nodup
  known : ∀ v ∈ b.votes, v.pubkey ∈ votersOf calls

/-- What a parameter's slots show, with what they show when there was no round. -/
structure Shown (env : Env) (calls : List Call) (storage : Storage) (key : Bytes32)
    (rounds : List Ballot) : Prop where
  nonce : numberIn env storage .nonce key = min rounds.length (u64 - 1)
  empty : rounds = [] → flagIn env storage .present key ≠ 1
  last : ∀ b rest, rounds = b :: rest → Shows env calls storage key b (rest.length + 1)

/-- The storage shows the rounds, and the executions that were noted are of executed rounds, each noted
once. -/
structure Reflects (env : Env) (calls : List Call) (g : Chamber) : Prop where
  shown : ∀ key ∈ keysOf calls, Shown env calls g.storage key (g.rounds key)
  numbered : ∀ e ∈ g.executions, e.2 ≤ (g.rounds e.1).length ∧
    ∀ b rest, g.rounds e.1 = b :: rest → e.2 = rest.length + 1 → b.executed = true
  once : g.executions.Nodup

section Slots
variable {env : Env} {calls : List Call} {storage storage' : Storage} {key : Bytes32} {b : Ballot} {n : ℕ}
  {writes : List (Label × Option Bytes32)}

/-- Two storages that differ by some writes, as far as the slots of the calls go. -/
def Written (env : Env) (calls : List Call) (writes : List (Label × Option Bytes32))
    (storage storage' : Storage) :
    Prop :=
  ∀ l ∈ labels calls, storage'[l.slot env]? = overlaid writes l storage[l.slot env]?

theorem Written.field (hw : Written env calls writes storage storage') (hkey : key ∈ keysOf calls) (f : Field) :
    storage'[govKey env f.sub key]? = overlaid writes (.field f key) storage[govKey env f.sub key]? :=
  hw (.field f key) hkey

theorem Written.numberIn (hw : Written env calls writes storage storage') (hkey : key ∈ keysOf calls) {f : Field}
    {v : ℕ} (hv : v < u64) (hover : ∀ old, overlaid writes (.field f key) old = some (packU64 v)) :
    numberIn env storage' f key = v := by
  rw [ParamVotes.numberIn, readSlotU64_of_some ((hw.field hkey f).trans (hover _)), decodeU64_packU64 hv]

theorem Written.flagIn (hw : Written env calls writes storage storage') (hkey : key ∈ keysOf calls) {f : Field}
    {v : Bytes32} (hover : ∀ old, overlaid writes (.field f key) old = some v) :
    flagIn env storage' f key = (ofBytes32 v).headD 0 := by
  rw [ParamVotes.flagIn, flagAt_of_some ((hw.field hkey f).trans (hover _))]

theorem Written.same (hw : Written env calls writes storage storage') (hkey : key ∈ keysOf calls) {f : Field}
    (hne : ∀ w ∈ writes, w.1 ≠ Label.field f key) :
    storage'[govKey env f.sub key]? = storage[govKey env f.sub key]? :=
  (hw.field hkey f).trans (overlaid_of_ne hne _)

theorem Shows.frame (h : Shows env calls storage key b n) (hkey : key ∈ keysOf calls) (hn : n ≤ calls.length)
    (hagree : ∀ l ∈ labels calls, l.param = key → storage'[l.slot env]? = storage[l.slot env]?) :
    Shows env calls storage' key b n := by
  have hfield : ∀ f : Field, storage'[govKey env f.sub key]? = storage[govKey env f.sub key]? := fun f =>
    hagree (.field f key) hkey rfl
  have hnumber : ∀ f, numberIn env storage' f key = numberIn env storage f key := fun f =>
    readSlotU64_congr (hfield f)
  have hflag : ∀ f, flagIn env storage' f key = flagIn env storage f key := fun f => flagAt_congr (hfield f)
  refine ⟨?_, ?_, ?_, ?_, ?_, fun side => ?_, ?_, fun v hv => ?_, h.once, h.known⟩
  · rw [hflag, h.present]
  · rw [hfield, h.value]
  · rw [hnumber, h.created]
  · rw [hnumber, h.votingEnds]
  · rw [hnumber, h.timelock]
  · rw [hnumber, h.counted]
  · rw [hflag, h.executed]
  · have hpos : 0 < u64 := by decide
    have hl : Label.vote key (min n (u64 - 1)) v.pubkey ∈ labels calls :=
      ⟨hkey, by omega, by omega, h.known v hv⟩
    rw [flagAt_congr (hagree _ hl rfl), h.flagged v hv]

theorem Effect.param {c : Call} {params : List (Bytes32 × Bytes32)} (h : Effect env storage c writes params) :
    ∀ w ∈ writes, w.1.param = c.key := by
  cases h with
  | propose hsel hkey => simp [proposeWrites, Label.param]
  | vote hsel hkey hpubkey hpresent hpending hfresh => simp [voteWrites, Label.param]
  | execute hsel hkey hpasses => simp [Label.param]

theorem Effect.others {c : Call} {params : List (Bytes32 × Bytes32)} (h : Effect env storage c writes params)
    (hw : Written env calls writes storage storage') (hne : key ≠ c.key) :
    ∀ l ∈ labels calls, l.param = key → storage'[l.slot env]? = storage[l.slot env]? := by
  intro l hl hparam
  refine (hw l hl).trans (overlaid_of_ne (fun w hmem heq => hne ?_) _)
  rw [← hparam, ← heq, h.param w hmem]

theorem Effect.labels {c : Call} {params : List (Bytes32 × Bytes32)} (h : Effect env storage c writes params)
    (hc : c ∈ calls) (hnonce : ParamVotes.numberIn env storage .nonce c.key ≤ calls.length) :
    ∀ w ∈ writes, w.1 ∈ labels calls := by
  have hmem : ∀ {key}, read32 c.calldata 4 = some key → key ∈ keysOf calls := fun hkey =>
    List.mem_filterMap.mpr ⟨c, hc, hkey⟩
  cases h with
  | propose hsel hkey =>
    have hk : ∀ f, Label.field f c.key ∈ ParamVotes.labels calls := fun _ => hmem hkey
    simp [proposeWrites, hk]
  | vote hsel hkey hpubkey hpresent hpending hfresh =>
    have hk : ∀ f, Label.field f c.key ∈ ParamVotes.labels calls := fun _ => hmem hkey
    have hv : Label.vote c.key (ParamVotes.numberIn env storage .nonce c.key) c.vote.pubkey ∈
        ParamVotes.labels calls :=
      ⟨hmem hkey, hnonce, readSlotU64_lt _ _, mem_votersOf hc hsel hpubkey⟩
    simp [voteWrites, hk, hv]
  | execute hsel hkey hpasses =>
    have hk : ∀ f, Label.field f c.key ∈ ParamVotes.labels calls := fun _ => hmem hkey
    simp [hk]

/-! ### One call -/

variable {c : Call}

theorem readU64_getD_lt (cd : Bytes) (off : ℕ) : (readU64 cd off).getD 0 < u64 := by
  unfold readU64 readLe
  split
  · have hlt := leNat_lt (slice cd off (off + 8))
    have hle : (slice cd off (off + 8)).length ≤ 8 := by
      rw [slice, List.length_take]
      omega
    exact hlt.trans_le (Nat.pow_le_pow_right (by decide) hle)
  · decide

theorem satAdd64_lt (a b : ℕ) : satAdd64 a b < u64 := by
  have hpos : 0 < u64 := by decide
  unfold satAdd64
  omega

theorem shows_propose (hw : Written env calls (proposeWrites env storage c key c.ballot) storage storage')
    (hkey : key ∈ keysOf calls) : Shows env calls storage' key c.ballot n := by
  have hzero := texts_distinct.2.2.2
  have hflag : (ofBytes32 0).headD 0 = 0 := rfl
  have hside : ∀ side, storage'[govKey env (sideField side).sub key]? = some 0 := by
    intro side
    refine (hw.field hkey _).trans ?_
    cases side <;> simp [proposeWrites, overlaid, sideField]
  refine ⟨?_, ?_, ?_, ?_, ?_, fun side => ?_, ?_, fun v hv => absurd hv List.not_mem_nil, List.nodup_nil,
    fun v hv => absurd hv List.not_mem_nil⟩
  · rw [hw.flagIn hkey (v := flagWord 1) (fun old => by simp [proposeWrites, overlaid]), headD_flagWord]
  · refine (hw.field hkey .value).trans ?_
    simp [proposeWrites, overlaid]
  · exact hw.numberIn hkey c.height_lt fun old => by simp [proposeWrites, overlaid, Call.ballot]
  · exact hw.numberIn hkey (satAdd64_lt _ _) fun old => by simp [proposeWrites, overlaid]
  · exact hw.numberIn hkey (readU64_getD_lt _ _) fun old => by simp [proposeWrites, overlaid, Call.ballot]
  · rw [numberIn, readSlotU64_of_some (hside side), hzero]
    rfl
  · rw [hw.flagIn hkey (v := 0) (fun old => by simp [proposeWrites, overlaid]), hflag]
    rfl

theorem nonce_propose (hw : Written env calls (proposeWrites env storage c key b) storage storage')
    (hkey : key ∈ keysOf calls) (hold : numberIn env storage .nonce key = min n (u64 - 1)) :
    numberIn env storage' .nonce key = min (n + 1) (u64 - 1) := by
  have hnew := hw.numberIn hkey (f := .nonce) (satAdd64_lt (numberIn env storage .nonce key) 1) fun old => by
    simp [proposeWrites, overlaid]
  rw [hnew, hold, satAdd64]
  omega

theorem stakeOn_append (b : Ballot) (v : Vote) (side : Bool) :
    ({ b with votes := b.votes ++ [v] } : Ballot).stakeOn side =
      b.stakeOn side + if v.approve = side then v.stake else 0 := by
  unfold Ballot.stakeOn
  rw [List.filter_append, List.map_append, List.sum_append]
  by_cases h : v.approve = side <;> simp [h]

theorem shows_vote {v : Vote} (h : Shows env calls storage key b n) (hkey : key ∈ keysOf calls)
    (hn : n ≤ calls.length) (hnonce : numberIn env storage .nonce key = min n (u64 - 1))
    (hw : Written env calls (voteWrites env storage key v) storage storage') (hvoter : v.pubkey ∈ votersOf calls)
    (hfresh : flagAt storage ((Label.vote key (numberIn env storage .nonce key) v.pubkey).slot env) ≠ 1) :
    Shows env calls storage' key { b with votes := b.votes ++ [v] } n := by
  have hsame : ∀ f, f ≠ sideField v.approve →
      storage'[govKey env f.sub key]? = storage[govKey env f.sub key]? := by
    intro f hf
    refine hw.same hkey ?_
    simp [voteWrites, Ne.symm hf]
  have hflag : ∀ f, f ≠ sideField v.approve → flagIn env storage' f key = flagIn env storage f key := fun f hf =>
    flagAt_congr (hsame f hf)
  have hnumber : ∀ f, f ≠ sideField v.approve → numberIn env storage' f key = numberIn env storage f key :=
    fun f hf => readSlotU64_congr (hsame f hf)
  have hnew : v.pubkey ∉ b.votes.map Vote.pubkey := by
    intro hmem
    obtain ⟨u, hu, heq⟩ := List.mem_map.mp hmem
    have hset := h.flagged u hu
    rw [heq, ← hnonce] at hset
    exact hfresh hset
  have hslot : ∀ u : Vote, u.pubkey ∈ votersOf calls →
      Label.vote key (min n (u64 - 1)) u.pubkey ∈ labels calls := by
    intro u hu
    have hpos : 0 < u64 := by decide
    exact ⟨hkey, by omega, by omega, hu⟩
  refine ⟨?_, ?_, ?_, ?_, ?_, fun side => ?_, ?_, fun u hu => ?_, ?_, fun u hu => ?_⟩
  · rw [hflag _ (by unfold sideField; split <;> decide), h.present]
  · rw [hsame _ (by unfold sideField; split <;> decide), h.value]
  · rw [hnumber _ (by unfold sideField; split <;> decide), h.created]
  · rw [hnumber _ (by unfold sideField; split <;> decide), h.votingEnds]
  · rw [hnumber _ (by unfold sideField; split <;> decide), h.timelock]
  · rw [stakeOn_append]
    by_cases hside : v.approve = side
    · subst hside
      have hcount := hw.numberIn hkey (f := sideField v.approve)
        (satAdd64_lt (numberIn env storage (sideField v.approve) key) v.stake)
          fun old => by simp [voteWrites, overlaid]
      rw [hcount, h.counted, if_pos rfl, satAdd64]
      omega
    · have hne : sideField side ≠ sideField v.approve := by
        cases side <;> cases hv : v.approve <;> simp_all [sideField]
      rw [hnumber _ hne, h.counted, if_neg hside, Nat.add_zero]
  · rw [hflag _ (by unfold sideField; split <;> decide), h.executed]
  · -- the flag of the new vote is set, and no other flag is cleared
    have hover : ∀ old, overlaid (voteWrites env storage key v) (.vote key (min n (u64 - 1)) u.pubkey) old =
        if v.pubkey = u.pubkey then some (flagWord 1) else old := by
      intro old
      rw [voteWrites, hnonce]
      by_cases heq : v.pubkey = u.pubkey <;> simp [overlaid, heq]
    have hone : ∀ {storage : Storage} {k : Bytes32}, storage[k]? = some (flagWord 1) → flagAt storage k = 1 :=
      fun hs => by rw [flagAt_of_some hs, headD_flagWord]
    rcases List.mem_append.mp hu with hold | hlast
    · have hread := (hw _ (hslot u (h.known u hold))).trans (hover _)
      by_cases heq : v.pubkey = u.pubkey
      · rw [if_pos heq] at hread
        exact hone hread
      · rw [if_neg heq] at hread
        rw [flagAt_congr hread, h.flagged u hold]
    · obtain rfl := List.mem_singleton.mp hlast
      have hread := (hw _ (hslot u hvoter)).trans (hover _)
      rw [if_pos rfl] at hread
      exact hone hread
  · rw [List.map_append]
    exact h.once.append (List.nodup_singleton _) (List.disjoint_singleton.mpr hnew)
  · rcases List.mem_append.mp hu with hold | hlast
    · exact h.known u hold
    · obtain rfl := List.mem_singleton.mp hlast
      exact hvoter

theorem shows_execute {value : Bytes32} (h : Shows env calls storage key b n) (hkey : key ∈ keysOf calls)
    (hn : n ≤ calls.length)
    (hw : Written env calls [(.field .executed key, some (flagWord 1)), (.field .params key, some value)]
      storage storage') :
    Shows env calls storage' key { b with executed := true } n := by
  have hsame : ∀ f : Field, f ≠ .executed → f ≠ .params →
      storage'[govKey env f.sub key]? = storage[govKey env f.sub key]? := by
    intro f hf hf'
    refine hw.same hkey ?_
    simp [Ne.symm hf, Ne.symm hf']
  refine ⟨?_, ?_, ?_, ?_, ?_, fun side => ?_, ?_, fun v hv => ?_, h.once, h.known⟩
  · rw [flagIn, flagAt_congr (hsame _ (by decide) (by decide))]
    exact h.present
  · rw [hsame _ (by decide) (by decide), h.value]
  · rw [numberIn, readSlotU64_congr (hsame _ (by decide) (by decide))]
    exact h.created
  · rw [numberIn, readSlotU64_congr (hsame _ (by decide) (by decide))]
    exact h.votingEnds
  · rw [numberIn, readSlotU64_congr (hsame _ (by decide) (by decide))]
    exact h.timelock
  · rw [numberIn, readSlotU64_congr (hsame _ (by cases side <;> decide) (by cases side <;> decide))]
    exact h.counted side
  · rw [hw.flagIn hkey (v := flagWord 1) (fun old => by simp [overlaid]), headD_flagWord]
    rfl
  · have hpos : 0 < u64 := by decide
    have hl : Label.vote key (min n (u64 - 1)) v.pubkey ∈ labels calls :=
      ⟨hkey, by omega, by omega, h.known v hv⟩
    rw [flagAt_congr ((hw _ hl).trans (overlaid_of_ne (by simp) _))]
    exact h.flagged v hv

end Slots

section Steps
variable {env : Env} {calls : List Call} {g : Chamber} {c : Call} {storage' : Storage}
  {writes : List (Label × Option Bytes32)} {params : List (Bytes32 × Bytes32)}

theorem length_note (c : Call) (rounds : List Ballot) :
    (c.note rounds).length = rounds.length + if readSel c.calldata = sel "propose_param" then 1 else 0 := by
  unfold Call.note
  split_ifs
  · rfl
  · rw [List.length_modifyHead, Nat.add_zero]
  · rw [List.length_modifyHead, Nat.add_zero]

theorem Shown.open {storage : Storage} {key : Bytes32} {rounds : List Ballot}
    (h : Shown env calls storage key rounds) (hpresent : flagIn env storage .present key = 1) :
    ∃ b rest, rounds = b :: rest ∧ Shows env calls storage key b (rest.length + 1) := by
  cases rounds with
  | nil => exact absurd hpresent (h.empty rfl)
  | cons b rest => exact ⟨b, rest, rfl, h.last b rest rfl⟩

theorem shown_note {storage : Storage} {rounds : List Ballot} (he : Effect env storage c writes params)
    (hw : Written env calls writes storage storage') (hc : c ∈ calls) (hn : rounds.length ≤ calls.length)
    (h : Shown env calls storage c.key rounds) : Shown env calls storage' c.key (c.note rounds) := by
  obtain ⟨-, -, -, hvp, hep, hev⟩ := sel_distinct
  have hmem : read32 c.calldata 4 = some c.key → c.key ∈ keysOf calls := fun hkey =>
    List.mem_filterMap.mpr ⟨c, hc, hkey⟩
  cases he with
  | propose hsel hkey =>
    have hnote : c.note rounds = c.ballot :: rounds := by rw [Call.note, if_pos hsel]
    rw [hnote]
    refine ⟨nonce_propose hw (hmem hkey) h.nonce, nofun, fun b rest heq => ?_⟩
    obtain ⟨rfl, rfl⟩ := List.cons.inj heq
    exact shows_propose hw (hmem hkey)
  | vote hsel hkey hpubkey hpresent hpending hfresh =>
    obtain ⟨b, rest, rfl, hshows⟩ := h.open hpresent
    have hnote : c.note (b :: rest) = { b with votes := b.votes ++ [c.vote] } :: rest := by
      rw [Call.note, if_neg (hsel ▸ hvp), if_pos hsel]
      rfl
    have hvoter : c.vote.pubkey ∈ votersOf calls := mem_votersOf hc hsel hpubkey
    rw [hnote]
    refine ⟨?_, nofun, fun b' rest' heq => ?_⟩
    · rw [numberIn, readSlotU64_congr (hw.same (hmem hkey) ?_)]
      · exact h.nonce
      · cases hv : c.vote.approve <;> simp [voteWrites, sideField, hv]
    · obtain ⟨rfl, rfl⟩ := List.cons.inj heq
      exact shows_vote hshows (hmem hkey) hn h.nonce hw hvoter hfresh
  | execute hsel hkey hpasses =>
    obtain ⟨b, rest, rfl, hshows⟩ := h.open hpasses.present
    have hnote : c.note (b :: rest) = { b with executed := true } :: rest := by
      rw [Call.note, if_neg (hsel ▸ hep), if_neg (hsel ▸ hev)]
      rfl
    rw [hnote]
    refine ⟨?_, nofun, fun b' rest' heq => ?_⟩
    · rw [numberIn, readSlotU64_congr (hw.same (hmem hkey) (by simp))]
      exact h.nonce
    · obtain ⟨rfl, rfl⟩ := List.cons.inj heq
      exact shows_execute hshows (hmem hkey) hn hw

theorem Shown.frame {storage : Storage} {key : Bytes32} {rounds : List Ballot}
    (h : Shown env calls storage key rounds) (hkey : key ∈ keysOf calls) (hn : rounds.length ≤ calls.length)
    (hagree : ∀ l ∈ labels calls, l.param = key → storage'[l.slot env]? = storage[l.slot env]?) :
    Shown env calls storage' key rounds := by
  refine ⟨?_, fun hnil => ?_, fun b rest heq => ?_⟩
  · exact (readSlotU64_congr (hagree (.field .nonce key) hkey rfl)).trans h.nonce
  · have hflag : flagIn env storage' .present key = flagIn env storage .present key :=
      flagAt_congr (hagree (.field .present key) hkey rfl)
    rw [hflag]
    exact h.empty hnil
  · refine (h.last b rest heq).frame hkey ?_ hagree
    rw [heq] at hn
    exact hn

theorem executed_note {rounds : List Ballot} {k : ℕ}
    (h : k ≤ rounds.length ∧ ∀ b rest, rounds = b :: rest → k = rest.length + 1 → b.executed = true) :
    k ≤ (c.note rounds).length ∧
      ∀ b rest, c.note rounds = b :: rest → k = rest.length + 1 → b.executed = true := by
  refine ⟨h.1.trans ?_, fun b rest heq hk => ?_⟩
  · rw [length_note]
    exact Nat.le_add_right _ _
  · unfold Call.note at heq
    split_ifs at heq
    · obtain ⟨rfl, rfl⟩ := List.cons.inj heq
      exact absurd h.1 (by omega)
    · cases rounds with
      | nil => cases heq
      | cons b₀ rest₀ =>
        obtain ⟨rfl, rfl⟩ := List.cons.inj heq
        exact h.2 b₀ rest₀ rfl hk
    · cases rounds with
      | nil => cases heq
      | cons b₀ rest₀ =>
        obtain ⟨rfl, rfl⟩ := List.cons.inj heq
        rfl

theorem step_ok (hc : c.OfParam) {r : ExecutionResult}
    (hr : governance env c.calldata c.caller g.storage c.height c.ledger = .ok r) :
    ∃ writes params, Effect env g.storage c writes params ∧
      step env g c =
        { storage := write (Label.slot env) g.storage writes
          params := params.foldl (fun m (k, v) => m.insert k v) g.params
          rounds := Function.update g.rounds c.key (c.note (g.rounds c.key))
          executions := if readSel c.calldata = sel "execute_param" then
              g.executions ++ [(c.key, (g.rounds c.key).length)]
            else g.executions } := by
  obtain ⟨writes, params, he, -, gas, rfl⟩ := governance_effect hc hr
  refine ⟨writes, params, he, ?_⟩
  rw [step, hr]
  rfl

theorem Effect.executing {storage : Storage} {rounds : List Ballot} (he : Effect env storage c writes params)
    (hsel : readSel c.calldata = sel "execute_param") (h : Shown env calls storage c.key rounds) :
    ∃ b rest, rounds = b :: rest ∧ b.executed = false ∧ c.note rounds = { b with executed := true } :: rest ∧
      Shows env calls storage c.key b (rest.length + 1) ∧ Passes env storage c c.key ∧
        params = [(c.key, b.value)] := by
  obtain ⟨-, -, -, -, hep, hev⟩ := sel_distinct
  cases he with
  | propose hsel' hkey => exact absurd (hsel.symm.trans hsel') hep
  | vote hsel' hkey hpubkey hpresent hpending hfresh => exact absurd (hsel.symm.trans hsel') hev
  | execute hsel' hkey hpasses =>
    obtain ⟨b, rest, rfl, hshows⟩ := h.open hpasses.present
    refine ⟨b, rest, rfl, ?_, ?_, hshows, hpasses, ?_⟩
    · have hflag := hpasses.pending
      rw [hshows.executed] at hflag
      cases hb : b.executed with
      | false => rfl
      | true => rw [hb] at hflag; exact absurd rfl hflag
    · rw [Call.note, if_neg (hsel ▸ hep), if_neg (hsel ▸ hev)]
      rfl
    · rw [hshows.value]
      rfl

/-- **One call**: the storage goes on showing the rounds. -/
theorem reflects_step (hcol : NoCollision env calls) (hc : c ∈ calls) (hparam : c.OfParam)
    (hn : ∀ key, (g.rounds key).length ≤ calls.length) (h : Reflects env calls g) :
    Reflects env calls (step env g c) := by
  cases hr : governance env c.calldata c.caller g.storage c.height c.ledger with
  | error e =>
    have hsame : step env g c = g := by rw [step, hr]
    rw [hsame]
    exact h
  | ok r =>
    obtain ⟨writes, params, he, hstep⟩ := step_ok hparam hr
    have hkey : c.key ∈ keysOf calls := by
      cases he <;> exact List.mem_filterMap.mpr ⟨c, hc, ‹_›⟩
    have hnonce : numberIn env g.storage .nonce c.key ≤ calls.length := by
      have hlen := hn c.key
      have hread := (h.shown c.key hkey).nonce
      omega
    have hw : Written env calls writes g.storage (write (Label.slot env) g.storage writes) := fun l hl =>
      getElem?_write (slot_injOn hcol) hl (he.labels hc hnonce) g.storage
    rw [hstep]
    have hold : ∀ e ∈ g.executions,
        e.2 ≤ (Function.update g.rounds c.key (c.note (g.rounds c.key)) e.1).length ∧
        ∀ b rest, Function.update g.rounds c.key (c.note (g.rounds c.key)) e.1 = b :: rest →
          e.2 = rest.length + 1 → b.executed = true := by
      rintro ⟨key, k⟩ hmem
      by_cases hne : key = c.key
      · subst hne
        simp only [Function.update_self]
        exact executed_note (h.numbered _ hmem)
      · simp only [Function.update_of_ne hne]
        exact h.numbered _ hmem
    refine ⟨fun key hmem => ?_, ?_, ?_⟩
    · by_cases hne : key = c.key
      · subst hne
        simp only [Function.update_self]
        exact shown_note he hw hc (hn c.key) (h.shown c.key hkey)
      · simp only [Function.update_of_ne hne]
        exact (h.shown key hmem).frame hmem (hn key) (he.others hw hne)
    · by_cases hsel : readSel c.calldata = sel "execute_param"
      · obtain ⟨b, rest, hrounds, -, hnote, -⟩ := he.executing hsel (h.shown c.key hkey)
        simp only [if_pos hsel]
        intro e hmem
        rcases List.mem_append.mp hmem with hmem | hmem
        · exact hold e hmem
        · obtain rfl := List.mem_singleton.mp hmem
          rw [hrounds] at hnote
          simp only [Function.update_self, hrounds, hnote]
          refine ⟨le_rfl, fun b' rest' heq _ => ?_⟩
          obtain ⟨rfl, rfl⟩ := List.cons.inj heq
          rfl
      · simp only [if_neg hsel]
        exact hold
    · by_cases hsel : readSel c.calldata = sel "execute_param"
      · obtain ⟨b, rest, hrounds, hpending, -⟩ := he.executing hsel (h.shown c.key hkey)
        simp only [if_pos hsel]
        refine h.once.append (List.nodup_singleton _) (List.disjoint_singleton.mpr fun hmem => ?_)
        have hdone := (h.numbered _ hmem).2 b rest hrounds (by rw [hrounds]; rfl)
        rw [hpending] at hdone
        cases hdone
      · simp only [if_neg hsel]
        exact h.once

/-! ## Runs -/

theorem length_step (hparam : c.OfParam) (key : Bytes32) :
    ((step env g c).rounds key).length ≤ (g.rounds key).length + 1 := by
  cases hr : governance env c.calldata c.caller g.storage c.height c.ledger with
  | error e =>
    have hsame : step env g c = g := by rw [step, hr]
    rw [hsame]
    exact Nat.le_succ _
  | ok r =>
    obtain ⟨writes, params, -, hstep⟩ := step_ok hparam hr
    rw [hstep]
    by_cases hne : key = c.key
    · subst hne
      simp only [Function.update_self, length_note]
      split <;> omega
    · simp only [Function.update_of_ne hne]
      exact Nat.le_succ _

/-- **A run of calls.** -/
theorem reflects_run (hcol : NoCollision env calls) {cs : List Call} (hmem : ∀ c ∈ cs, c ∈ calls)
    (hparam : ∀ c ∈ cs, c.OfParam) (hn : ∀ key, (g.rounds key).length + cs.length ≤ calls.length)
    (h : Reflects env calls g) : Reflects env calls (run (step env) g cs) := by
  induction cs generalizing g with
  | nil => exact h
  | cons c cs ih =>
    have hp := hparam c List.mem_cons_self
    refine ih (fun d hd => hmem d (List.mem_cons_of_mem _ hd)) (fun d hd => hparam d (List.mem_cons_of_mem _ hd))
      (fun key => ?_) (reflects_step hcol (hmem c List.mem_cons_self) hp (fun key => ?_) h)
    · have hlen := hn key
      have hstep : ((step env g c).rounds key).length ≤ (g.rounds key).length + 1 := length_step hp key
      rw [List.length_cons] at hlen
      omega
    · have hlen := hn key
      omega

theorem reflects_genesis (params : Map Bytes32 Bytes32) : Reflects env calls (Chamber.genesis params) := by
  refine ⟨fun key _ => ⟨?_, fun _ => ?_, nofun⟩, nofun, List.nodup_nil⟩
  · rw [numberIn, Chamber.genesis, readSlotU64, Std.ExtTreeMap.getElem?_empty]
    rfl
  · rw [flagIn, Chamber.genesis, flagAt_of_none Std.ExtTreeMap.getElem?_empty]
    decide

end Steps

/-! ## What a change of a parameter needs -/

/-- The stake of the active validators. -/
def activeStake (st : StakingState) : ℕ :=
  (((st.validators.toList.map Prod.snd).filter fun v => v.isActive st.currentHeight).map
    ValidatorStake.activeStake).sum

/-- The round may be executed by the call: voting and timelock are over, two thirds of the votes are for it, a
third of the active stake has voted, every key once, and the round was not executed before. -/
structure Lawful (c : Call) (b : Ballot) : Prop where
  ended : b.created + b.period < c.height
  matured : b.created + b.timelock ≤ c.height
  approved : 2 * b.stake ≤ 3 * b.stakeOn true
  quorum : activeStake c.ledger.staking ≤ 3 * b.stake
  once : (b.votes.map Vote.pubkey).Nodup
  pending : b.executed = false

/-- An execution whose comparisons are exact: twice the votes are in the range of a `u64`, so is the active
stake, and the height is not the last one. -/
def Unsaturated (env : Env) (g : Chamber) (c : Call) : Prop :=
  readSel c.calldata = sel "execute_param" →
    2 * (numberIn env g.storage .votesFor c.key + numberIn env g.storage .votesAgainst c.key) < u64 ∧
    activeStake c.ledger.staking < u64 ∧ c.height + 1 < u64

theorem stake_eq (b : Ballot) : b.stake = b.stakeOn true + b.stakeOn false := by
  unfold Ballot.stake Ballot.stakeOn
  induction b.votes with
  | nil => rfl
  | cons v votes ih =>
    rw [List.map_cons, List.sum_cons, ih]
    cases hv : v.approve <;> simp [hv] <;> omega

theorem activeTotal_eq {st : StakingState} (h : activeStake st < u64) : st.activeTotal = activeStake st :=
  sum64_eq h

theorem checkVotes_exact {votesFor votesAgainst total : ℕ} (h : checkVotes votesFor votesAgainst total = .ok ())
    (hvotes : 2 * (votesFor + votesAgainst) < u64) (htotal : total < u64) :
    total ≤ 3 * (votesFor + votesAgainst) ∧ 2 * (votesFor + votesAgainst) ≤ 3 * votesFor := by
  simp only [checkVotes, failIf_bind_ok, failIf_eq_ok, not_lt] at h
  obtain ⟨hquorum, happroval⟩ := h
  unfold satMul64 satAdd64 at *
  omega

section Change
variable {env : Env} {calls : List Call} {g : Chamber} {c : Call}

/-- **An execution that passes** is lawful where its comparisons are exact. -/
theorem lawful_of_passes {storage : Storage} {b : Ballot} {n : ℕ} (h : Shows env calls storage c.key b n)
    (hp : Passes env storage c c.key) (hpending : b.executed = false)
    (hvotes : 2 * (numberIn env storage .votesFor c.key + numberIn env storage .votesAgainst c.key) < u64)
    (hactive : activeStake c.ledger.staking < u64) (hheight : c.height + 1 < u64) : Lawful c b := by
  have hfor : numberIn env storage .votesFor c.key = min (b.stakeOn true) (u64 - 1) := h.counted true
  have hagainst : numberIn env storage .votesAgainst c.key = min (b.stakeOn false) (u64 - 1) := h.counted false
  -- a count that is below the cap has not saturated
  have hfor' : numberIn env storage .votesFor c.key = b.stakeOn true := by omega
  have hagainst' : numberIn env storage .votesAgainst c.key = b.stakeOn false := by omega
  have hchecked := hp.checked
  rw [activeTotal_eq hactive] at hchecked
  obtain ⟨hquorum, happroval⟩ := checkVotes_exact hchecked hvotes hactive
  rw [hfor', hagainst', ← stake_eq] at hquorum happroval
  have hended := hp.ended
  have hmatured := hp.matured
  rw [h.votingEnds, satAdd64] at hended
  rw [h.created, h.timelock, satAdd64] at hmatured
  exact ⟨by omega, by omega, happroval, hquorum, h.once, hpending⟩

/-- **A parameter that a call changes**. -/
theorem lawful_of_changed (hc : c ∈ calls) (hparam : c.OfParam) (hun : Unsaturated env g c)
    (h : Reflects env calls g) {key : Bytes32} (hchange : (step env g c).params[key]? ≠ g.params[key]?) :
    ∃ b rest, g.rounds key = b :: rest ∧ Lawful c b ∧
      (step env g c).rounds key = { b with executed := true } :: rest ∧
      (step env g c).params[key]? = some b.value ∧
      (step env g c).executions = g.executions ++ [(key, (g.rounds key).length)] := by
  cases hr : governance env c.calldata c.caller g.storage c.height c.ledger with
  | error e =>
    rw [step, hr] at hchange
    exact absurd rfl hchange
  | ok r =>
    obtain ⟨writes, params, he, hstep⟩ := step_ok hparam hr
    have hkey : c.key ∈ keysOf calls := by
      cases he <;> exact List.mem_filterMap.mpr ⟨c, hc, ‹_›⟩
    have hsel : readSel c.calldata = sel "execute_param" := by
      rw [hstep] at hchange
      cases he with
      | propose hsel' _ => exact absurd rfl hchange
      | vote hsel' _ _ _ _ _ => exact absurd rfl hchange
      | execute hsel' _ _ => exact hsel'
    obtain ⟨b, rest, hrounds, hpending, hnote, hshows, hpasses, rfl⟩ := he.executing hsel (h.shown c.key hkey)
    have hparams : (step env g c).params = g.params.insert c.key b.value := by rw [hstep]; rfl
    have heq : key = c.key := by
      by_contra hne
      rw [hparams, getElem?_insert_ite, if_neg hne] at hchange
      exact hchange rfl
    subst heq
    obtain ⟨hvotes, hactive, hheight⟩ := hun hsel
    refine ⟨b, rest, hrounds, lawful_of_passes hshows hpasses hpending hvotes hactive hheight, ?_, ?_, ?_⟩
    · rw [hstep, ← hnote]
      exact Function.update_self _ _ _
    · rw [hparams, getElem?_insert_ite, if_pos rfl]
    · rw [hstep]
      exact if_pos hsel

end Change

/-- The cell before call number `i`. -/
def chamberAt (env : Env) (params : Map Bytes32 Bytes32) (calls : List Call) (i : ℕ) : Chamber :=
  run (step env) (Chamber.genesis params) (calls.take i)

/-- **Parameters change by vote**: in a run of calls of the fresh cell in which the comparisons of an
execution are exact, a call that changes a parameter executes a lawful round of it, with the value proposed,
and no round is executed twice. -/
theorem changed_by_vote {env : Env} {params : Map Bytes32 Bytes32} {calls : List Call}
    (hcol : NoCollision env calls) (hparam : ∀ c ∈ calls, c.OfParam)
    (hun : Along (step env) (Unsaturated env) (Chamber.genesis params) calls) :
    (∀ i, (chamberAt env params calls i).executions.Nodup) ∧
    ∀ i c, calls[i]? = some c → ∀ key : Bytes32,
      (step env (chamberAt env params calls i) c).params[key]? ≠ (chamberAt env params calls i).params[key]? →
      ∃ b rest, (chamberAt env params calls i).rounds key = b :: rest ∧ Lawful c b ∧
        (step env (chamberAt env params calls i) c).rounds key = { b with executed := true } :: rest ∧
        (step env (chamberAt env params calls i) c).params[key]? = some b.value ∧
        (step env (chamberAt env params calls i) c).executions =
          (chamberAt env params calls i).executions ++
            [(key, ((chamberAt env params calls i).rounds key).length)] := by
  have hreflects : ∀ i, Reflects env calls (chamberAt env params calls i) := fun i =>
    reflects_run hcol (fun c hc => List.mem_of_mem_take hc) (fun c hc => hparam c (List.mem_of_mem_take hc))
      (fun key => by
        rw [Chamber.genesis, List.length_nil, Nat.zero_add]
        exact List.length_take_le' _ _) (reflects_genesis params)
  refine ⟨fun i => (hreflects i).once, fun i c hc key hchange => ?_⟩
  have hmem : c ∈ calls := List.mem_of_getElem? hc
  exact lawful_of_changed hmem (hparam c hmem) (hun.at_index hc) (hreflects i) hchange

/-! ## Transactions -/

/-- The call that a transaction makes. -/
def callOf (w : World) (tx : Transaction) (calldata : Bytes) (h : w.state.staking.currentHeight < u64) : Call :=
  ⟨tx.sender, calldata, w.state.staking.currentHeight, w.state, h⟩

/-- **A transaction that calls the governance cell** does to its storage and to the parameters what `step`
says. -/
theorem runTransaction_step {env : Env} {w : World} {tx : Transaction} {calldata : Bytes} {value gasLimit : ℕ}
    {cell : CellAccount} {d : StateDiff} {g : Chamber}
    (hintent : tx.intent = .callCell (governanceSystemCellId env) calldata value gasLimit)
    (hids : governanceSystemCellId env ≠ stakingSystemCellId env)
    (hcell : w.state.cells.cells[governanceSystemCellId env]? = some cell)
    (hheight : w.state.staking.currentHeight < u64) (hparam : (callOf w tx calldata hheight).OfParam)
    (hstorage : g.storage = cell.storage) (hparams : g.params = w.state.params)
    (hd : computeTransactionDiffSkipSig env w tx = .ok d) (hcovers : Covers env w tx) :
    (runTransaction env tx w).2.state.params = (step env g (callOf w tx calldata hheight)).params ∧
    ((runTransaction env tx w).2.state.cells.cells[governanceSystemCellId env]?).map CellAccount.storage =
      some (step env g (callOf w tx calldata hheight)).storage := by
  have hsystem : isSystemCell env (governanceSystemCellId env) = true := by
    rw [isSystemCell, decide_eq_true_eq]
    simp
  obtain ⟨account, d₁, f, -, h1, -, rfl⟩ := compute_eq_ok hd
  rw [hintent] at h1
  obtain ⟨r, hr, rfl⟩ := computeIntent_native hsystem hcell h1
  rw [SystemCells.handler, if_neg hids, if_pos rfl, ← hstorage] at hr
  have hanswer : governance env (callOf w tx calldata hheight).calldata
      (callOf w tx calldata hheight).caller g.storage
      (callOf w tx calldata hheight).height (callOf w tx calldata hheight).ledger = .ok r := hr
  obtain ⟨writes, params, -, hnil, gas, rfl⟩ := governance_effect hparam hanswer
  have hnil' : (writes.map fun w => (w.1.slot env, w.2)) ≠ [] := by simp [hnil]
  rw [Runs.runTransaction_applied hd hcovers, step, hanswer]
  refine ⟨?_, ?_⟩
  · rw [params_callDiff hnil', hparams]
    rfl
  · have hmoved := cellSlot_moved env value (writes.map fun w => (w.1.slot env, w.2)) hcell (Or.inl rfl)
    rw [cells_callDiff hnil']
    exact (congrArg (Option.map CellAccount.storage) hmoved).trans (by rw [hstorage]; rfl)

/-! ## Samples -/

/-- The fields. -/
def fields : List Field :=
  [.present, .nonce, .value, .proposer, .created, .votingEnds, .timelock, .votesFor,
    .votesAgainst, .executed, .params]

/-- What is hashed for the slots of some parameters and voters. -/
def inputs (env : Env) (keys : List Bytes32) (voters : List Bytes) (n : ℕ) : List Bytes :=
  fields.map Field.name ++ keys.flatMap (fun key => fields.map fun f => (Label.field f key).input env) ++
    keys.flatMap fun key => (List.range (n + 1)).flatMap fun nonce => voters.map fun pubkey =>
      (Label.vote key nonce pubkey).input env

theorem noCollision_of_nodup {env : Env} {calls : List Call} (keys : List Bytes32) (voters : List Bytes)
    (hkeys : ∀ key ∈ keysOf calls, key ∈ keys) (hvoters : ∀ pubkey ∈ votersOf calls, pubkey ∈ voters)
    (h : ((inputs env keys voters calls.length).map env.sha256).Nodup) : NoCollision env calls := by
  have hfield : ∀ f : Field, f ∈ fields := by intro f; cases f <;> decide
  have hmem : ∀ bs ∈ Set.range Field.name ∪ Set.image (Label.input env) (labels calls),
      bs ∈ inputs env keys voters calls.length := by
    rintro _ (⟨f, rfl⟩ | ⟨l, hl, rfl⟩)
    · exact List.mem_append_left _ (List.mem_append_left _ (List.mem_map_of_mem (hfield f)))
    · cases l with
      | field f key =>
        exact List.mem_append_left _ (List.mem_append_right _
          (List.mem_flatMap.mpr ⟨key, hkeys key hl, List.mem_map.mpr ⟨f, hfield f, rfl⟩⟩))
      | vote key nonce pubkey =>
        obtain ⟨hkey, hnonce, -, hvoter⟩ := hl
        exact List.mem_append_right _ (List.mem_flatMap.mpr ⟨key, hkeys key hkey, List.mem_flatMap.mpr
          ⟨nonce, List.mem_range.mpr (by omega), List.mem_map.mpr ⟨pubkey, hvoters pubkey hvoter, rfl⟩⟩⟩)
  exact fun a ha b hb heq => List.inj_on_of_nodup_map h (hmem a ha) (hmem b hb) heq

/-- The key of `gas.transfer`. -/
def gasTransfer : Bytes32 := 0xb90a8fcbd336004e27bcc510a7b05d1ca860394c717835c02b3c2e87a88e7939

def alice : Bytes := List.replicate 1952 1

def bob : Bytes := List.replicate 1952 2

/-- The namespaces of the fields, by the length of the name and its byte 25, and their slots for
`gas.transfer`. -/
def fieldDigests : List (ℕ × UInt8 × Bytes32 × Bytes32) :=
  [(31, 101, 0x71fd09d90dfd29c12fdafe6574fa6830e58d9b872b4457e192ccc6a6b370bfc8,
      0x43a301837671212399a6708016495b925cd1a566b00235457d034f98a31f99ee),
    (30, 110, 0xee734c6694b8c7d24661fd5192d8f110595f6ccb57d93704a5be6c8e5269d672,
      0xa0ad8ebffe9d5ffdff2a8264f783766c636951cc74b9c832939dae1c32c9c737),
    (30, 118, 0x23365307d51f2922eee27112c604c17a66cd7b4df5d9a1fceed8a596726beae6,
      0x92c1fb88e9cadfaf4b29c46219f6b6ee3a1258c74be602b59769ecf1eaf8be2e),
    (33, 112, 0x5a4370084e620bb2b6a5cb49d04abbd2a18a27daa2690e3bc65f49b35a54567d,
      0x9f1df1a0ca4e2ff962a76b262240f9183f1f71eb508dce57c718aa5f71326676),
    (32, 99, 0x26c8e20987e9b1a0795776d16bbf1b1259152302b1eaa1eb44df0f8dff23ba51,
      0x596f455ded2f204c1902dce4ba7d49e92b8bfe3723e1dbb1256fa40d9546f533),
    (36, 118, 0x9d119b5fd6671ab4ff33011c287f22fd20b2b3dc609a1f8a08110c5822f37067,
      0x0f7826cb38b19dd38d5c6dd2d1cad4acf7baf262215f1d71237818593015d712),
    (33, 116, 0x2f1797054cfa578dadb1d179a3233dac07ea37a6e47e722edbd248dcbae51947,
      0xc6da2b9d100cc4d4fd546e0f9dc032b690ce98ac41b614bee83c19178c753c64),
    (34, 118, 0x49a967fd60f4465daa6b6f43e77a80862e96ca300c1c11a080e0b75292963ee2,
      0xc74c008dd5a2bd027075753956a04ddad7dffc974f5960a81a12605b389d94ac),
    (38, 118, 0xe47cad2ff1f308b4e6fc58235e302fe671881337e55211ea1d212cd5a5ad0248,
      0x18971d3bb178d7a8d8483e21bb874fad1052f318ce926703c8eb5fd41ce9dc3e),
    (33, 101, 0x44eb86325159c9396e53971d36048ffb5107a21e7583459fccc49e779d276b85,
      0xe2f98e33fb06b4dfe177d0bbde51aec92245e161f4bdf50267413eb5921b3737),
    (22, 0, 0xdccbb37aaa946ec5eb3a9972927ae51efaa2612f5c18b94a45dc0bee41afb2f5,
      0x32ddc5a412d73e726290805060306d3990e45ff65b74188bb7b243944fdc4cf2)]

def voteDigests : List (ℕ × Bytes32 × Bytes32) :=
  [(0, 0x3672c61e3e3d9241d207fe3e121687080243c44e92121b8d3c6c81415a5ff91c,
      0xed70ddeb3316eaa9a6fe8d1e394175f6130c08e044c93a2a9eb9a689dfc2db95),
    (1, 0xf7654f6f3352ad608e87acd289ef4efbaec450e87b2e135bd9cb73550ca0f956,
      0x848244a20d3d07a17004512445ac6d2ae09a2145b7afb7aa153680174c827ebd),
    (2, 0x2eedb25c6ecde19c4db317071c027439bec985197e14a901f0cf9bf56a32e9a1,
      0x791dbaf1edd3d234d3d797cef924b7413e1aa0191a5cb581ec57831406ba5fba),
    (3, 0x7523a1cf3c72967c55601110fa05a9bf47f5d096a76334d30bc7bd18ec6372d0,
      0x8f29d276b369d667609f7706b1601bd2bf556bcc9dec9d18e24c353813f1325e),
    (4, 0x2382013cf777827c89f92979a42e9245f3900b14e2a2ffbfc6318e162e36d81b,
      0xbe7c1b32491177595a4aa7131bd3388ed0933ce5373717507fc06705a744428f)]

def aliceId : AccountId := 0xe75b58527324bc1cc7126487ad050fd84ec05a8d56ca15d3e18e89092ff1671e

def bobId : AccountId := 0x3cc2aab38e44e42950cebd3168c1fa4ab0676e2358266de2c7c88a37c8f73599

/-- SHA-256 on the inputs that occur here, which are told apart by their length and by one or two bytes: the
accounts by the first byte of the key, the votes by that and the round, the slots of fields by the first byte
of the namespace, the namespaces and the name of the parameter by byte 25. -/
def govSha256 (bs : Bytes) : Bytes32 :=
  if bs.length = 1977 then if bs.getD 25 0 = 1 then aliceId else bobId
  else if bs.length = 2015 then
    ((voteDigests.find? fun e => decide (e.1 = (bs.getD 55 0).toNat)).map fun e =>
      if bs.getD 63 0 = 1 then e.2.1 else e.2.2).getD 0
  else if bs.length = 64 then
    ((fieldDigests.find? fun e => decide (e.2.2.1.toNat / 2 ^ 248 = (bs.headD 0).toNat)).map fun e =>
      e.2.2.2).getD 0
  else if bs.length = 32 ∧ bs.getD 25 0 = 114 then gasTransfer
  else ((fieldDigests.find? fun e => decide (e.1 = bs.length ∧ e.2.1 = bs.getD 25 0)).map fun e => e.2.2.1).getD 0

/-- The third-party code, on the inputs that occur here. -/
def govEnv : Env := { sampleEnv with sha256 := govSha256 }

def govLedger (a b : ℕ) : State :=
  { sampleState with staking := ⟨fromList [(alice, .new a), (bob, .new b)], 0, none⟩ }

/-- The first validator proposes a value, votes for it, the second one against it, and it is executed. -/
def govCalls (a b : ℕ) : List Call :=
  [⟨aliceId, sel "propose_param" ++ ofBytes32 gasTransfer ++ ofBytes32 9 ++ leBytes 8 5 ++
    leBytes 8 5 ++ alice, 10,
      govLedger a b, by decide⟩,
    ⟨aliceId, sel "vote_param" ++ ofBytes32 gasTransfer ++ leBytes 8 1 ++ alice, 11, govLedger a b, by decide⟩,
    ⟨bobId, sel "vote_param" ++ ofBytes32 gasTransfer ++ leBytes 8 0 ++ bob, 12, govLedger a b, by decide⟩,
    ⟨bobId, sel "execute_param" ++ ofBytes32 gasTransfer, 16, govLedger a b, by decide⟩]

theorem calldata_govCalls (a b : ℕ) : (govCalls a b).map Call.calldata = (govCalls 0 0).map Call.calldata := by
  simp only [govCalls, List.map_cons, List.map_nil]

theorem keysOf_eq (calls : List Call) :
    keysOf calls = (calls.map Call.calldata).filterMap fun cd => read32 cd 4 := by
  rw [List.filterMap_map]
  rfl

theorem votersOf_eq (calls : List Call) :
    votersOf calls = (calls.map Call.calldata).filterMap fun cd =>
      if readSel cd = sel "vote_param" then readPubkey cd 44 else none := by
  rw [List.filterMap_map]
  rfl

example : votersOf (govCalls 0 0) = [alice, bob] := by decide +kernel

theorem govCalls_facts :
    keysOf (govCalls 0 0) = [gasTransfer, gasTransfer, gasTransfer, gasTransfer] ∧
    votersOf (govCalls 0 0) = [alice, bob] ∧
    ((inputs govEnv [gasTransfer] [alice, bob] 4).map govEnv.sha256).Nodup ∧
    ∀ cd ∈ (govCalls 0 0).map Call.calldata,
      readSel cd ∈ [sel "propose_param", sel "vote_param", sel "execute_param"] := by
  decide +kernel

theorem noCollision_govCalls (a b : ℕ) : NoCollision govEnv (govCalls a b) := by
  obtain ⟨hkeys, hvoters, hnodup, -⟩ := govCalls_facts
  refine noCollision_of_nodup [gasTransfer] [alice, bob] ?_ ?_ hnodup
  · rw [keysOf_eq, calldata_govCalls, ← keysOf_eq, hkeys]
    simp
  · rw [votersOf_eq, calldata_govCalls, ← votersOf_eq, hvoters]
    exact fun _ h => h

theorem ofParam_govCalls (a b : ℕ) : ∀ c ∈ govCalls a b, c.OfParam := by
  intro c hc
  refine govCalls_facts.2.2.2 c.calldata ?_
  rw [← calldata_govCalls a b]
  exact List.mem_map_of_mem hc

/-- The condition at the sample calls, with three quarters of the votes for the proposal. -/
theorem changed_by_vote_sample :
    Along (step govEnv) (Unsaturated govEnv) (Chamber.genesis ∅) (govCalls 30000000000 10000000000) ∧
      (chamberAt govEnv ∅ (govCalls 30000000000 10000000000) 4).executions.Nodup := by
  have hun : Along (step govEnv) (Unsaturated govEnv) (Chamber.genesis ∅) (govCalls 30000000000 10000000000) :=
    ⟨fun h => absurd h (by decide +kernel), fun h => absurd h (by decide +kernel),
      fun h => absurd h (by decide +kernel), fun _ => by decide +kernel, trivial⟩
  exact ⟨hun, (changed_by_vote (noCollision_govCalls _ _) (ofParam_govCalls _ _) hun).1 4⟩

/-- With the stakes `10 * 10 ^ 18` and `8 * 10 ^ 18` both products saturate, and a proposal with five ninths
of the votes is executed. -/
theorem changed_without_approval :
    ¬ ∀ (env : Env) (params : Map Bytes32 Bytes32) (calls : List Call), NoCollision env calls →
      (∀ c ∈ calls, c.OfParam) → ∀ i c, calls[i]? = some c → ∀ key : Bytes32,
        (step env (chamberAt env params calls i) c).params[key]? ≠ (chamberAt env params calls i).params[key]? →
        ∃ b rest, (chamberAt env params calls i).rounds key = b :: rest ∧ Lawful c b := by
  intro h
  obtain ⟨c, hc⟩ : ∃ c, (govCalls 10000000000000000000 8000000000000000000)[3]? = some c := ⟨_, rfl⟩
  have hrun : (step govEnv (chamberAt govEnv ∅ (govCalls 10000000000000000000 8000000000000000000) 3) c).params[
        gasTransfer]? ≠ (chamberAt govEnv ∅ (govCalls 10000000000000000000 8000000000000000000)
          3).params[gasTransfer]? ∧
      (((chamberAt govEnv ∅ (govCalls 10000000000000000000 8000000000000000000) 3).rounds gasTransfer).map
        fun b => (b.stake, b.stakeOn true)) = [(18000000000000000000, 10000000000000000000)] := by
    obtain rfl := Option.some.inj hc
    decide +kernel
  obtain ⟨hchange, hvotes⟩ := hrun
  obtain ⟨b, rest, hrounds, hlawful⟩ := h govEnv ∅ (govCalls 10000000000000000000 8000000000000000000)
    (noCollision_govCalls _ _) (ofParam_govCalls _ _) 3 c hc gasTransfer hchange
  rw [hrounds, List.map_cons] at hvotes
  obtain ⟨hpair, -⟩ := List.cons.inj hvotes
  obtain ⟨hstake, hfor⟩ := Prod.mk.inj hpair
  have happroved := hlawful.approved
  rw [hstake, hfor] at happroved
  omega

end TruthLinked.Ledger.ParamVotes
