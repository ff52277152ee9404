import TruthLinked.Consensus.Sync
import TruthLinked.Consensus.ExecutionOrder
import TruthLinked.Consensus.RootBinding

/-! # Unchecked blocks

A block of a response reaches the database or the header tree on three ways. `apply_sync_batch` checks it
first. The branch for the finalised height compares its batch hash with that of the tip and nothing else, and
a waiting repair saves whatever it is given. Runs that avoid the last two hold only blocks that passed the
check (`sync_keeps_checked`); a response that takes one of them replaces a finalised block by a forged one
(`unchecked_header_stored`). -/

namespace TruthLinked.Consensus.SyncSafety

open Core.Types Ledger.Model Ledger.MergeAgreement Consensus.Types Consensus.ForkChoice Consensus.NodeState
open Consensus.Validation Consensus.Sync Consensus.ExecutionOrder Consensus.RootBinding Lib.Except Lib.Run

/-- **A block was checked on the state below it**: the node that accepted it had the parent as its tip, and
the parent is one lower. -/
structure Valid (c : Setup) (a : Acceptance) : Prop where
  checked : check c a.before a.block = .ok ()
  tip : ∃ tip, a.before.canonicalTipHeader = some tip ∧ a.block.header.parentHash = tip.batchHash
  height : ∃ parent, a.before.chain.headers[a.block.header.parentHash]? = some parent ∧
    a.block.header.height = parent.height + 1

/-- An entry that did not come from a response, or came with a checked block. -/
def Explained (s : SyncState) (e : Entry) : Prop := s.own e ∨ ∃ a ∈ s.accepted, a.block.Gives e

/-- What a run keeps. -/
structure Inv (c : Setup) (s : SyncState) : Prop where
  valid : ∀ a ∈ s.accepted, Valid c a
  explained : ∀ e, Held s.node e → Explained s e

/-- **Where the sync checks what it stores.** A block that a task takes for its anchor is the tip itself,
unless the tip has another hash; and a repair that gets a block has it already. -/
def Checked (s : SyncState) : Event → Prop
  | .work i => ∀ rest b, s.handlers[i]? = some ⟨rest, .anchor b⟩ →
      ∃ tip, s.node.canonicalTipHeader = some tip ∧
        (tip.batchHash ≠ b.header.batchHash ∨ tip = b.header)
  | .deliver j => ∀ b, s.deliveries[j]? = some b → s.waiting.contains b.header.height = true →
      ∃ st, s.node.storage = some st ∧ st.headers[b.header.batchHash]? = some b.header ∧
        st.batches[b.header.height]? = some (b.header.batchHash, b.batch)
  | _ => True

/-! ## What the writes add -/

section Writes
variable {n : Node} {header : BatchHeader} {e : Entry}

theorem getElem?_insert_of_ne_some {K V : Type} [Ord K] [Std.TransOrd K] {m : Map K V} {k a : K} {x y : V}
    (h : (m.insert k x)[a]? = some y) : y = x ∨ m[a]? = some y := by
  rw [Std.ExtTreeMap.getElem?_insert] at h
  split at h
  · exact .inl (Option.some.inj h).symm
  · exact .inr h

theorem held_chain {chain : BlockChain} (hchain : chain.headers = n.chain.headers.insert header.batchHash header)
    (h : Held { n with chain } e) : Held n e ∨ e = .header header := by
  cases e with
  | header h' =>
    rcases h with ⟨k, hk⟩ | hst
    · simp only [hchain] at hk
      rcases getElem?_insert_of_ne_some hk with rfl | hk
      · exact .inr rfl
      · exact .inl (.inl ⟨k, hk⟩)
    · exact .inl (.inr hst)
  | batch height hash txs => exact .inl h

theorem addHeader_headers {c chain : BlockChain} {r : Unit} (h : c.addHeader header = (.ok r, chain)) :
    chain.headers = c.headers.insert header.batchHash header ∧
      ∃ parent, c.headers[header.parentHash]? = some parent ∧ header.height = parent.height + 1 := by
  unfold BlockChain.addHeader at h
  split at h
  · cases h
  · rename_i hcheck
    cases h
    refine ⟨rfl, ?_⟩
    unfold BlockChain.checkHeader at hcheck
    obtain ⟨-, hcheck⟩ := failIf_bind_ok.mp hcheck
    split at hcheck
    · cases hcheck
    · rename_i parent hparent
      obtain ⟨hheight, -⟩ := failIf_bind_ok.mp hcheck
      exact ⟨parent, hparent, not_not.mp hheight⟩

theorem held_saveBatchHeader (h : Held (n.onStorage fun st => st.saveBatchHeader header) e) :
    Held n e ∨ e = .header header := by
  cases e with
  | header h' =>
    rcases h with hchain | ⟨st', hst', k, hk⟩
    · exact .inl (.inl hchain)
    · obtain ⟨st, hst, rfl⟩ := Option.map_eq_some_iff.mp hst'
      rcases getElem?_insert_of_ne_some hk with rfl | hk
      · exact .inr rfl
      · exact .inl (.inr ⟨st, hst, k, hk⟩)
  | batch height hash txs =>
    obtain ⟨st', hst', hbatch⟩ := h
    obtain ⟨st, hst, rfl⟩ := Option.map_eq_some_iff.mp hst'
    exact .inl ⟨st, hst, hbatch⟩

theorem held_saveBatch {height : ℕ} {hash : Bytes32} {txs : List Transaction}
    (h : Held (n.onStorage fun st => st.saveBatch height hash txs) e) :
    Held n e ∨ e = .batch height hash txs := by
  cases e with
  | header h' =>
    rcases h with hchain | ⟨st', hst', k, hk⟩
    · exact .inl (.inl hchain)
    · obtain ⟨st, hst, rfl⟩ := Option.map_eq_some_iff.mp hst'
      exact .inl (.inr ⟨st, hst, k, hk⟩)
  | batch height' hash' txs' =>
    obtain ⟨st', hst', hbatch⟩ := h
    obtain ⟨st, hst, rfl⟩ := Option.map_eq_some_iff.mp hst'
    simp only [Storage.saveBatch, Std.ExtTreeMap.getElem?_insert] at hbatch
    split at hbatch
    · rename_i heq
      cases hbatch
      rw [Std.LawfulEqOrd.eq_of_compare heq]
      exact .inr rfl
    · exact .inl ⟨st, hst, hbatch⟩

theorem held_saveBlock {b : Block} (h : Held (n.onStorage fun st => st.saveBlock b.header b.batch) e) :
    Held n e ∨ b.Gives e := by
  have hsplit : (n.onStorage fun st => st.saveBlock b.header b.batch) =
      (n.onStorage fun st => st.saveBatchHeader b.header).onStorage fun st =>
        st.saveBatch b.header.height b.header.batchHash b.batch := by
    unfold Node.onStorage
    rw [Option.map_map]
    rfl
  rw [hsplit] at h
  rcases held_saveBatch h with h | rfl
  · rcases held_saveBatchHeader h with h | rfl
    · exact .inl h
    · exact .inr (.inl rfl)
  · exact .inr (.inr rfl)

end Writes

/-! ## Applying a block -/

section Apply
variable {c : Setup} {n n' : Node} {b : Block}

@[simp] theorem storeWorld_chain {w : World} {height : ℕ} : (n.storeWorld w height).chain = n.chain := by
  unfold Node.storeWorld Node.setCurrentHeightMonotonic
  split_ifs <;> rfl

theorem held_storeWorld {w : World} {height : ℕ} {e : Entry} :
    Held (n.storeWorld w height) e ↔ Held n e := by
  unfold Node.storeWorld Node.setCurrentHeightMonotonic
  split_ifs
  · cases e <;> exact Iff.rfl
  · cases e <;> exact Iff.rfl

/-- **An applied block extends the tip**, and nothing but its header and batch is added. -/
theorem applyNext_ok {r : Unit} (h : applyNext c n b = (.ok r, n')) :
    (∃ tip, n.canonicalTipHeader = some tip ∧ b.header.parentHash = tip.batchHash) ∧
    (∃ parent, n.chain.headers[b.header.parentHash]? = some parent ∧
      b.header.height = parent.height + 1) ∧
    ∀ e, Held n' e → Held n e ∨ b.Gives e := by
  unfold applyNext at h
  split at h
  · cases h
  rename_i tip htip
  split at h
  · cases h
  rename_i hparent
  split at h
  · cases h
  rename_i w hexec
  dsimp only at h
  split at h
  · cases h
  split at h
  · cases h
  rename_i chain hadd
  cases h
  rw [storeWorld_chain] at hadd
  obtain ⟨hheaders, hheight⟩ := addHeader_headers hadd
  refine ⟨⟨tip, htip, not_not.mp hparent⟩, hheight, ?_⟩
  intro e he
  rcases held_saveBlock he with he | he
  · -- the tree gets the header twice, from `add_header` and from `seed_canonical_tip`
    have hadded : Held { n.storeWorld w b.header.height with chain } e ∨ e = .header b.header := by
      exact held_chain (n := { n.storeWorld w b.header.height with chain }) rfl he
    rcases hadded with he | rfl
    · have hstored : Held (n.storeWorld w b.header.height) e ∨ e = .header b.header := by
        refine held_chain ?_ he
        rw [storeWorld_chain]
        exact hheaders
      rcases hstored with he | rfl
      · exact .inl (held_storeWorld.mp he)
      · exact .inr (.inl rfl)
    · exact .inr (.inl rfl)
  · exact .inr he

theorem applyNext_error {msg : String} (h : applyNext c n b = (.error msg, n')) :
    ∀ e, Held n' e → Held n e := by
  unfold applyNext at h
  intro e he
  split at h
  · cases h
    exact he
  split at h
  · cases h
    exact he
  split at h
  · cases h
    exact he
  dsimp only at h
  split at h
  · cases h
    exact he
  split at h
  · cases h
    exact held_storeWorld.mp he
  · cases h

end Apply

/-! ## What one step adds -/

/-- The second state holds no more than the first, checked blocks apart. -/
structure Grows (c : Setup) (s s' : SyncState) : Prop where
  own : ∀ e, s.own e → s'.own e
  accepted : ∀ a ∈ s.accepted, a ∈ s'.accepted
  valid : ∀ a ∈ s'.accepted, a ∈ s.accepted ∨ Valid c a
  held : ∀ e, Held s'.node e → Held s.node e ∨ Explained s' e

section Steps
variable {c : Setup} {s s' s'' : SyncState} {b : Block}

theorem Grows.of_held (hown : s'.own = s.own) (haccepted : s'.accepted = s.accepted)
    (h : ∀ e, Held s'.node e → Held s.node e) : Grows c s s' where
  own e he := by rwa [hown]
  accepted a ha := by rwa [haccepted]
  valid a ha := .inl (by rwa [haccepted] at ha)
  held e he := .inl (h e he)

theorem Grows.refl : Grows c s s := .of_held rfl rfl fun _ he => he

theorem Explained.mono (h : Grows c s s') {e : Entry} (he : Explained s e) : Explained s' e := by
  rcases he with hown | ⟨a, ha, hgives⟩
  · exact .inl (h.own e hown)
  · exact .inr ⟨a, h.accepted a ha, hgives⟩

theorem Grows.trans (h₁ : Grows c s s') (h₂ : Grows c s' s'') : Grows c s s'' where
  own e he := h₂.own e (h₁.own e he)
  accepted a ha := h₂.accepted a (h₁.accepted a ha)
  valid a ha := by
    rcases h₂.valid a ha with ha | hvalid
    · exact h₁.valid a ha
    · exact .inr hvalid
  held e he := by
    rcases h₂.held e he with he | hexplained
    · rcases h₁.held e he with he | hexplained
      · exact .inl he
      · exact .inr (hexplained.mono h₂)
    · exact .inr hexplained

theorem Grows.inv (h : Grows c s s') (hinv : Inv c s) : Inv c s' where
  valid a ha := by
    rcases h.valid a ha with ha | hvalid
    · exact hinv.valid a ha
    · exact hvalid
  explained e he := by
    rcases h.held e he with he | hexplained
    · exact (hinv.explained e he).mono h
    · exact hexplained

theorem Grows.setHandler (h : Grows c s s') (i : ℕ) (hd : Handler) : Grows c s (s'.setHandler i hd) :=
  ⟨h.own, h.accepted, h.valid, h.held⟩

theorem acceptNext_grows (hcheck : check c s.node b = .ok ()) : Grows c s (acceptNext c s b).2 := by
  unfold acceptNext
  split
  · rename_i r node happly
    obtain ⟨htip, hheight, hheld⟩ := applyNext_ok happly
    refine ⟨fun _ he => he, fun a ha => List.mem_cons_of_mem _ ha, ?_, ?_⟩
    · intro a ha
      rcases List.mem_cons.mp ha with rfl | ha
      · exact .inr ⟨hcheck, htip, hheight⟩
      · exact .inl ha
    · intro e he
      rcases hheld e he with he | hgives
      · exact .inl he
      · exact .inr (.inr ⟨⟨s.node, b⟩, List.mem_cons_self, hgives⟩)
  · rename_i msg node happly
    exact .of_held rfl rfl (applyNext_error happly)

theorem processSyncBuffer_grows (fuel : ℕ) (s : SyncState) : Grows c s (processSyncBuffer c fuel s).2 := by
  induction fuel generalizing s with
  | zero => exact .refl
  | succ fuel ih =>
    unfold processSyncBuffer
    split
    · exact .refl
    rename_i b hnext
    dsimp only
    set taken : SyncState := { s with syncBuffer := s.syncBuffer.remove (s.node.currentHeight + 1) } with htaken
    have hstart : Grows c s taken := .of_held rfl rfl fun _ he => he
    split
    · exact hstart
    rename_i hcheck
    have haccept : Grows c taken (acceptNext c taken b).2 := acceptNext_grows hcheck
    split
    · rename_i msg s' happly
      rw [happly] at haccept
      exact hstart.trans haccept
    · rename_i r s' happly
      rw [happly] at haccept
      exact (hstart.trans haccept).trans (ih s')

theorem bufferBatch_grows (seen : ℕ) : Grows c s (bufferBatch c s seen b).2 := by
  unfold bufferBatch
  dsimp only
  split_ifs
  · exact .of_held rfl rfl fun _ he => he
  · exact .of_held rfl rfl fun _ he => he
  · exact .of_held rfl rfl fun _ he => he
  · exact .of_held rfl rfl fun _ he => he

/-- **`apply_sync_batch` stores checked blocks only**, whatever height it has read before. -/
theorem applySyncBatch_grows (seen : ℕ) : Grows c s (applySyncBatch c s seen b).2 := by
  unfold applySyncBatch
  split_ifs with hstale hnext
  · exact .refl
  · split
    · exact .refl
    · exact bufferBatch_grows seen
  · split
    · exact .refl
    rename_i hcheck
    have haccept : Grows c s (acceptNext c s b).2 := acceptNext_grows hcheck
    split
    · rename_i msg s' happly
      rw [happly] at haccept
      exact haccept
    · rename_i r s' happly
      rw [happly] at haccept
      exact haccept.trans (processSyncBuffer_grows _ s')

theorem held_reseedAnchor {n : Node} {height : ℕ} {hash : Bytes32} {e : Entry}
    (h : Held (reseedAnchor n height hash) e) : Held n e := by
  unfold reseedAnchor at h
  split_ifs at h with hcond
  · split at h
    · rename_i header hloaded
      split_ifs at h with hhash
      · obtain ⟨st, hst, hheader⟩ := Option.bind_eq_some_iff.mp hloaded
        obtain ⟨k, -, hheader⟩ := Option.bind_eq_some_iff.mp hheader
        rcases held_chain rfl h with h | rfl
        · exact h
        · exact .inr ⟨st, hst, k, hheader⟩
      · exact h
    · exact h
  · exact h

theorem receive_grows (r : SyncResponse) : Grows c s (receive s r) := by
  unfold receive
  split
  · exact .refl
  split_ifs
  · exact .refl
  · exact .refl
  · exact .refl
  dsimp only
  split_ifs
  · exact .of_held rfl rfl fun _ he => held_reseedAnchor he
  · exact .of_held rfl rfl fun _ he => held_reseedAnchor he

theorem look_grows (i : ℕ) (rest : List Block) : Grows c s (look s i b rest) := by
  unfold look
  dsimp only
  split_ifs <;> exact .of_held rfl rfl fun _ he => he

theorem held_seedAnchor {n : Node} {tip header : BatchHeader} (htip : n.canonicalTipHeader = some tip)
    (hsame : tip.batchHash ≠ header.batchHash ∨ tip = header) {e : Entry}
    (h : Held (seedAnchor n header) e) : Held n e := by
  have hheld : Held n (.header tip) := .inl ⟨_, htip⟩
  unfold seedAnchor at h
  rw [htip] at h
  dsimp only at h
  split_ifs at h with hhash
  · exact h
  · obtain rfl := hsame.resolve_left hhash
    rcases held_saveBatchHeader h with h | rfl
    · rcases held_chain rfl h with h | rfl
      · exact h
      · exact hheld
    · exact hheld

theorem work_grows {i : ℕ} (hchecked : Checked s (.work i)) : Grows c s (work c s i) := by
  unfold work
  split
  · exact .refl
  · exact .refl
  · exact look_grows i _
  · rename_i rest b hhandler
    obtain ⟨tip, htip, hsame⟩ := hchecked rest b hhandler
    refine Grows.setHandler ?_ i _
    exact .of_held rfl rfl fun _ he => held_seedAnchor htip hsame he
  · rename_i rest b seen hhandler
    have happly : Grows c s (applySyncBatch c s seen b).2 := applySyncBatch_grows seen
    split
    · rename_i r s' heq
      rw [heq] at happly
      exact happly.setHandler i _
    · rename_i msg s' heq
      rw [heq] at happly
      exact happly.setHandler i _

theorem deliver_grows {j : ℕ} (hchecked : Checked s (.deliver j)) : Grows c s (deliver s j) := by
  unfold deliver
  split
  · exact .refl
  rename_i b hb
  dsimp only
  split_ifs with hwaiting
  · obtain ⟨st, hst, hheader, hbatch⟩ := hchecked b hb hwaiting
    refine .of_held rfl rfl fun e he => ?_
    rcases held_saveBlock he with he | rfl | rfl
    · exact he
    · exact .inr ⟨st, hst, _, hheader⟩
    · exact ⟨st, hst, hbatch⟩
  · exact .of_held rfl rfl fun _ he => he

theorem other_grows (node : Node) (syncBuffer : SyncBuffer) (waiting : FSet ℕ) :
    Grows c s (step c s (.other node syncBuffer waiting)) := by
  refine ⟨fun e he => .inl he, fun a ha => ha, fun a ha => .inl ha, ?_⟩
  intro e he
  by_cases hold : Held s.node e
  · exact .inl hold
  · exact .inr (.inl (.inr ⟨he, hold⟩))

/-- **One step.** -/
theorem step_grows (e : Event) (hchecked : Checked s e) : Grows c s (step c s e) := by
  cases e with
  | respond r => exact receive_grows r
  | work i => exact work_grows hchecked
  | deliver j => exact deliver_grows hchecked
  | other node syncBuffer waiting => exact other_grows node syncBuffer waiting

theorem inv_start (c : Setup) (n : Node) (syncBuffer : SyncBuffer) (waiting : FSet ℕ) :
    Inv c (start n syncBuffer waiting) where
  valid _ ha := absurd ha List.not_mem_nil
  explained _ he := .inl he

end Steps

/-- **Sync stores checked blocks.** In every run whose anchors are the tip and whose repairs get what they
have, each header of the database or the header tree and each stored batch was there before, is the work of
another task, or came with a block that `validate_sync_header_with_batch` accepted on the node whose tip was
its parent. -/
theorem sync_keeps_checked (c : Setup) (n : Node) (syncBuffer : SyncBuffer) (waiting : FSet ℕ)
    (events : List Event) (hchecked : Along (step c) Checked (start n syncBuffer waiting) events) :
    let s := run (step c) (start n syncBuffer waiting) events
    (∀ a ∈ s.accepted, Valid c a) ∧
      ∀ e, Held s.node e → s.own e ∨ ∃ a ∈ s.accepted, a.block.Gives e := by
  have hinv : Inv c (run (step c) (start n syncBuffer waiting) events) :=
    hchecked.invariant (fun s e hinv he => (step_grows e he).inv hinv) (inv_start c n syncBuffer waiting)
  exact ⟨hinv.valid, hinv.explained⟩

/-! ## Two responses for one height

The sample node is at genesis, and two peers send it the empty block of height 1, the second one with a forged
header. The hash functions are those of the node on the inputs that occur here; every signature of the right
length passes. -/

def emptyCommitment : Bytes32 := 0x5469679938a702cfd12d8b4873945d1173b3ab1ba86258ecadc86cf3ea067583

def blockRoot : Bytes32 := 0xd43164483c93ad998d5afd18d278ed0e71af441a44a21dcd22211340f0226f05

/-- The third-party code of the node, on the inputs that occur here; of these, the state after the block is
the only one that is not named. -/
def syncPrim : Primitives where
  blake3 bs :=
    if bs = ofBytes32 0 ++ leBytes 8 1 then emptyCommitment
    else if bs = "truthlinked-pq-finality-signature-root-v1".toUTF8.toList ++ leBytes 4 0 then
      0x105a3d06b001053d6bf26bedae8d6b9036a460a9dcbb43138a5a0d748cfbc081
    else 0
  sha256 bs :=
    if bs = [] then 0xe3b0c44298fc1c149afbf4c8996fb92427ae41e4649b934ca495991b7852b855
    else if bs = "leader-selection-v2".toUTF8.toList ++ ofBytes32 0 ++ leBytes 8 1 ++ leBytes 4 0 then
      0x1e12480f6f8caab1c3f7a85fc2ef6e8a5746b33ccc1493ab629d8d9400e2ace5
    else blockRoot
  verify _ _ _ _ := true

def syncSetup : Setup := ⟨syncPrim, sampleEnv, .bucket, keyOrder, soleKey⟩

def emptyHeader : BatchHeader where
  height := 1
  parentHash := 0
  batchHash := emptyCommitment
  executionOrderRoot := 0xe3b0c44298fc1c149afbf4c8996fb92427ae41e4649b934ca495991b7852b855
  stateRoot := blockRoot
  timestamp := 0
  totalFees := 0
  finalityCertificate := PqFinalityCertificate.empty syncPrim 1 0 emptyCommitment blockRoot
  leaderPubkey := soleKey
  leaderSignature := List.replicate 3309 5
  leaderRound := 0

def forgedHeader : BatchHeader := { emptyHeader with stateRoot := 0, leaderSignature := [] }

def genesisNode : Node where
  world := soleWorld
  currentHeight := 0
  finalizedHeight := 0
  chain := .new syncPrim
  storage := some ⟨∅, ∅, ∅, ∅, false⟩
  isSyncing := true
  synced := false

def blockResponse (header : BatchHeader) : SyncResponse := ⟨1, 1, 0, 0, 1, [⟨header, []⟩]⟩

/-- Of a state, what the database has at height 1, the tip and the finalised height. -/
def summary (s : SyncState) : Option BatchHeader × Option BatchHeader × ℕ :=
  (s.node.storage.bind fun st => st.loadBatchHeaderByHeight 1, s.node.canonicalTipHeader,
    s.node.finalizedHeight)

def atAnchor (s : SyncState) (i : ℕ) : Bool :=
  s.handlers[i]?.any fun h => match h.stage with
    | .anchor _ => true
    | _ => false

theorem checked_of_not_atAnchor {s : SyncState} {i : ℕ} (h : atAnchor s i = false) : Checked s (.work i) := by
  intro rest b hhandler
  rw [atAnchor, hhandler] at h
  cases h

def honestRun : List Event := [.respond (blockResponse emptyHeader), .work 0, .work 0]

/-- The block of the honest response is stored, and the history says why. -/
theorem sync_keeps_checked_honest :
    let s := run (step syncSetup) (start genesisNode .empty ∅) honestRun
    summary s = (some emptyHeader, some emptyHeader, 1) ∧ (∀ a ∈ s.accepted, Valid syncSetup a) ∧
      (s.own (.header emptyHeader) ∨ ∃ a ∈ s.accepted, a.block.Gives (.header emptyHeader)) := by
  have hsummary : summary (run (step syncSetup) (start genesisNode .empty ∅) honestRun) =
      (some emptyHeader, some emptyHeader, 1) := by decide +kernel
  have hchecked : Along (step syncSetup) Checked (start genesisNode .empty ∅) honestRun := by
    refine ⟨trivial, checked_of_not_atAnchor ?_, checked_of_not_atAnchor ?_, trivial⟩
    · decide +kernel
    · decide +kernel
  obtain ⟨hvalid, hexplained⟩ := sync_keeps_checked syncSetup genesisNode .empty ∅ honestRun hchecked
  have htip : (run (step syncSetup) (start genesisNode .empty ∅) honestRun).node.canonicalTipHeader =
      some emptyHeader := congrArg (fun t => t.2.1) hsummary
  exact ⟨hsummary, hvalid, hexplained _ (.inl ⟨_, htip⟩)⟩

theorem leaderSignature_length {prim : Primitives} {serialize : Transaction → Bytes} {pk : Bytes} {s : State}
    {header : BatchHeader} {batch : List Transaction}
    (h : validateSyncHeaderWithBatch prim serialize pk s header batch = .ok ()) :
    header.leaderSignature.length = 3309 := by
  unfold validateSyncHeaderWithBatch at h
  obtain ⟨_, hleader, -⟩ := bind_eq_ok.mp h
  unfold withContext at hleader
  split at hleader
  · cases hleader
  rename_i u hverify
  unfold verifyHeaderLeader at hverify
  obtain ⟨-, hverify⟩ := failIf_bind_ok.mp hverify
  obtain ⟨-, hverify⟩ := failIf_bind_ok.mp hverify
  obtain ⟨hlength, -⟩ := failIf_bind_ok.mp hverify
  exact not_not.mp hlength

def racingRun : List Event :=
  [.respond (blockResponse emptyHeader), .respond (blockResponse forgedHeader), .work 0, .work 0]

/-- **A header that no state accepts** takes the place of the finalised block, in the database and as the tip:
its response came before the block was applied, and it is looked at afterwards. With a repair that waits for
this height, the database has it one step earlier. -/
theorem unchecked_header_stored :
    (∀ s batch, validateSyncHeaderWithBatch syncPrim txBytes soleKey s forgedHeader batch ≠ .ok ()) ∧
      summary (run (step syncSetup) (start genesisNode .empty ∅) racingRun) =
        (some emptyHeader, some emptyHeader, 1) ∧
      summary (run (step syncSetup) (start genesisNode .empty ∅) (racingRun ++ [.work 1, .work 1])) =
        (some forgedHeader, some forgedHeader, 1) ∧
      summary (run (step syncSetup) (start genesisNode .empty ((∅ : FSet ℕ).insert 1))
        (racingRun ++ [.work 1, .deliver 1])) = (some forgedHeader, some emptyHeader, 1) := by
  refine ⟨?_, by decide +kernel, by decide +kernel, by decide +kernel⟩
  intro s batch hvalid
  exact absurd (leaderSignature_length hvalid) (by decide)

end TruthLinked.Consensus.SyncSafety
