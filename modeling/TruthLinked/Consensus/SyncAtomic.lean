import TruthLinked.Consensus.SyncOrder

/-! # Blocks that fail

`apply_sync_batch` and `process_sync_buffer` store the new state and both heights before `add_header` looks at
the header. A block that an earlier check refuses leaves everything as it was; one that only the header tree
refuses leaves the new state and the new heights behind, and a header tree without the block
(`sync_block_atomic_iff`). A call that ends in an error has failed on one block, after the blocks before it
were applied (`failed_call`). -/

namespace TruthLinked.Consensus.SyncAtomic

open Ledger.Model Ledger.Maintenance Consensus.Types Consensus.ForkChoice Consensus.StateRoot
open Consensus.NodeState Consensus.Sync Consensus.SyncOrder Relation

/-! ## One block -/

section Block
variable (c : Setup)

/-- What both functions do with the next block: it is checked and applied. -/
def turn (s : SyncState) (b : Block) : Except String Unit × SyncState :=
  match check c s.node b with
  | .error e => (.error e, s)
  | .ok _ => acceptNext c s b

/-- The next block in the buffer. -/
def nextBuffered (s : SyncState) : Option Block := s.syncBuffer.entries[s.node.currentHeight + 1]?

/-- The buffer without its next block. -/
def taken (s : SyncState) : SyncState := { s with syncBuffer := s.syncBuffer.remove (s.node.currentHeight + 1) }

/-- `apply_sync_batch` on its own block, before the buffer is looked at. -/
def applyOwn (s : SyncState) (seen : ℕ) (b : Block) : Except String Unit × SyncState :=
  if b.header.height ≤ seen then (.ok (), s)
  else if b.header.height = seen + 1 then turn c s b
  else match check c s.node b with
    | .error e => (.error e, s)
    | .ok _ => bufferBatch c s seen b

/-- State, heights, header tree and canonical tip are the same. -/
structure Untouched (n n' : Node) : Prop where
  state : n'.world.state = n.world.state
  currentHeight : n'.currentHeight = n.currentHeight
  finalizedHeight : n'.finalizedHeight = n.finalizedHeight
  chain : n'.chain = n.chain

/-- **A block that fails leaves the node alone**, be it the block of the call or the next one of the
buffer. -/
structure Atomic (s : SyncState) (seen : ℕ) (b : Block) : Prop where
  own : ∀ e s', applyOwn c s seen b = (.error e, s') → Untouched s.node s'.node
  buffered : ∀ b' e s', nextBuffered s = some b' → turn c (taken s) b' = (.error e, s') → Untouched s.node s'.node

/-! ## When it does -/

/-- The block comes to the header tree: it passes every check before, and executing it gives `w`. -/
structure Arrives (n : Node) (b : Block) (w : World) : Prop where
  checked : check c n b = .ok ()
  parent : n.canonicalTipHeader.map BatchHeader.batchHash = some b.header.parentHash
  executed : executeBatch c.env c.split n.world b.batch = .ok w
  root : computeStateRootFromState c.it c.prim.sha256 w.state = b.header.stateRoot

/-- There is nothing to store: the state stays and both heights are reached. -/
structure Idle (n : Node) (b : Block) (w : World) : Prop where
  state : w.state = n.world.state
  current : b.header.height ≤ n.currentHeight
  finalized : b.header.height ≤ n.finalizedHeight

/-- The header tree takes the block if it comes there, or there is nothing to store. -/
def Fits (n : Node) (b : Block) : Prop :=
  ∀ w, Arrives c n b w → n.chain.checkHeader b.header = .ok () ∨ Idle n b w

end Block

section Fails
variable {c : Setup}

theorem untouched_refl (n : Node) : Untouched n n := ⟨rfl, rfl, rfl, rfl⟩

theorem untouched_storeWorld_iff (n : Node) (w : World) (b : Block) :
    Untouched n (n.storeWorld w b.header.height) ↔ Idle n b w := by
  have hstored : n.storeWorld w b.header.height =
      if b.header.height < n.currentHeight then
        { n with world := w, finalizedHeight := max n.finalizedHeight b.header.height }
      else
        { n with
          world := w.onGlobals fun g => { g with currentHeight := b.header.height }
          finalizedHeight := max n.finalizedHeight b.header.height
          currentHeight := b.header.height } := rfl
  rw [hstored]
  constructor
  · intro h
    split_ifs at h with hlow
    · exact ⟨h.state, hlow.le, by have := h.finalizedHeight; dsimp only at this; omega⟩
    · refine ⟨h.state, ?_, by have := h.finalizedHeight; dsimp only at this; omega⟩
      have hheight : b.header.height = n.currentHeight := h.currentHeight
      omega
  · rintro ⟨hstate, hcurrent, hfinal⟩
    split_ifs with hlow
    · exact ⟨hstate, rfl, max_eq_left hfinal, rfl⟩
    · exact ⟨hstate, by dsimp only; omega, max_eq_left hfinal, rfl⟩

theorem applyNext_refused {n : Node} {b : Block} (hcheck : check c n b = .ok ()) (h : ∀ w, ¬ Arrives c n b w) :
    ∃ e, applyNext c n b = (.error e, n) := by
  unfold applyNext
  cases htip : n.canonicalTipHeader with
  | none => exact ⟨_, rfl⟩
  | some tip =>
    dsimp only
    split_ifs with hparent
    · exact ⟨_, rfl⟩
    · cases hexec : executeBatch c.env c.split n.world b.batch with
      | error e => exact ⟨_, rfl⟩
      | ok w =>
        dsimp only
        by_cases hroot : computeStateRootFromState c.it c.prim.sha256 w.state = b.header.stateRoot
        · refine absurd ⟨hcheck, ?_, hexec, hroot⟩ (h w)
          rw [htip, Option.map_some, not_not.mp hparent]
        · rw [if_pos hroot]
          exact ⟨_, rfl⟩

/-- A block that comes to the header tree is stored before the tree is asked. -/
theorem applyNext_arrives {n : Node} {b : Block} {w : World} (h : Arrives c n b w) :
    (∀ e, n.chain.checkHeader b.header = .error e →
      applyNext c n b = (.error e, n.storeWorld w b.header.height)) ∧
    (n.chain.checkHeader b.header = .ok () → (applyNext c n b).1 = .ok ()) := by
  have hchain : (n.storeWorld w b.header.height).chain = n.chain := by
    unfold Node.storeWorld Node.setCurrentHeightMonotonic
    split_ifs <;> rfl
  obtain ⟨tip, htip, hparent⟩ := Option.map_eq_some_iff.mp h.parent
  unfold applyNext
  rw [htip]
  dsimp only
  rw [if_neg (not_not.mpr hparent.symm), h.executed]
  dsimp only
  rw [if_neg (not_not.mpr h.root), hchain]
  unfold BlockChain.addHeader
  constructor
  · intro e he
    rw [he]
  · intro hok
    rw [hok]

/-- **A block in its turn** leaves the node alone when it fails, exactly if it fits. -/
theorem turn_untouched_iff (s : SyncState) (b : Block) :
    (∀ e s', turn c s b = (.error e, s') → Untouched s.node s'.node) ↔ Fits c s.node b := by
  constructor
  · intro hfail w harr
    cases htree : s.node.chain.checkHeader b.header with
    | ok u => exact Or.inl rfl
    | error e =>
      refine Or.inr ((untouched_storeWorld_iff s.node w b).mp
        (hfail e { s with node := s.node.storeWorld w b.header.height } ?_))
      unfold turn acceptNext
      rw [harr.checked, (applyNext_arrives harr).1 e htree]
  · intro hfits e s' hturn
    unfold turn at hturn
    cases hcheck : check c s.node b with
    | error e' =>
      rw [hcheck] at hturn
      cases hturn
      exact untouched_refl _
    | ok u =>
      rw [hcheck] at hturn
      dsimp only at hturn
      unfold acceptNext at hturn
      by_cases harr : ∃ w, Arrives c s.node b w
      · obtain ⟨w, harr⟩ := harr
        rcases hfits w harr with htree | hidle
        · have hok := (applyNext_arrives harr).2 htree
          split at hturn
          · cases hturn
          · rename_i e' node happly
            rw [happly] at hok
            cases hok
        · cases htree : s.node.chain.checkHeader b.header with
          | ok u =>
            have hok := (applyNext_arrives harr).2 htree
            split at hturn
            · cases hturn
            · rename_i e' node happly
              rw [happly] at hok
              cases hok
          | error e' =>
            rw [(applyNext_arrives harr).1 e' htree] at hturn
            cases hturn
            exact (untouched_storeWorld_iff s.node w b).mpr hidle
      · obtain ⟨e', hrefused⟩ := applyNext_refused hcheck fun w hw => harr ⟨w, hw⟩
        rw [hrefused] at hturn
        cases hturn
        exact untouched_refl _

end Fails

/-! ## Calls -/

section Calls
variable {c : Setup}

theorem bufferBatch_node (s : SyncState) (seen : ℕ) (b : Block) : (bufferBatch c s seen b).2.node = s.node := by
  unfold bufferBatch
  dsimp only
  split_ifs <;> rfl

theorem applySyncBatch_eq (s : SyncState) (seen : ℕ) (b : Block) :
    applySyncBatch c s seen b =
      match applyOwn c s seen b with
      | (.error e, s') => (.error e, s')
      | (.ok _, s') =>
        if b.header.height = seen + 1 then processSyncBuffer c (s'.syncBuffer.entries.size + 1) s'
        else (.ok (), s') := by
  unfold applySyncBatch applyOwn turn
  by_cases hlow : b.header.height ≤ seen
  · rw [if_pos hlow, if_pos hlow]
    dsimp only
    rw [if_neg (by omega)]
  · rw [if_neg hlow, if_neg hlow]
    by_cases hnext : b.header.height = seen + 1
    · rw [if_pos hnext]
      cases check c s.node b with
      | error e => rfl
      | ok u =>
        dsimp only
        rw [if_neg (not_not.mpr hnext)]
        rcases acceptNext c s b with ⟨⟨e⟩ | ⟨u⟩, s'⟩
        · rfl
        · dsimp only
          rw [if_pos hnext]
    · rw [if_neg hnext]
      cases check c s.node b with
      | error e => rfl
      | ok u =>
        dsimp only
        rw [if_pos hnext]
        rcases bufferBatch c s seen b with ⟨⟨e⟩ | ⟨u⟩, s'⟩
        · rfl
        · dsimp only
          rw [if_neg hnext]

theorem processSyncBuffer_eq (fuel : ℕ) (s : SyncState) :
    processSyncBuffer c (fuel + 1) s =
      match nextBuffered s with
      | none => (.ok (), s)
      | some b =>
        match turn c (taken s) b with
        | (.error e, s') => (.error e, s')
        | (.ok _, s') => processSyncBuffer c fuel s' := by
  rw [processSyncBuffer]
  unfold nextBuffered
  cases s.syncBuffer.entries[s.node.currentHeight + 1]? with
  | none => rfl
  | some b =>
    unfold turn taken
    dsimp only
    cases check c s.node b with
    | error e => rfl
    | ok u => rfl

/-- A block of the buffer is applied. -/
def AppliesNext (c : Setup) (s s' : SyncState) : Prop :=
  ∃ b, nextBuffered s = some b ∧ turn c (taken s) b = (.ok (), s')

theorem failed_loop {fuel : ℕ} {s t : SyncState} {e : String} (h : processSyncBuffer c fuel s = (.error e, t)) :
    ∃ s', ReflTransGen (AppliesNext c) s s' ∧ ∃ b, nextBuffered s' = some b ∧
      turn c (taken s') b = (.error e, t) := by
  induction fuel generalizing s with
  | zero => cases h
  | succ fuel ih =>
    rw [processSyncBuffer_eq] at h
    cases hnext : nextBuffered s with
    | none =>
      rw [hnext] at h
      cases h
    | some b =>
      rw [hnext] at h
      dsimp only at h
      rcases hturn : turn c (taken s) b with ⟨⟨e'⟩ | ⟨⟨⟩⟩, s'⟩
      · rw [hturn] at h
        cases h
        exact ⟨s, .refl, b, hnext, hturn⟩
      · rw [hturn] at h
        obtain ⟨s'', hreach, hrest⟩ := ih h
        exact ⟨s'', .head ⟨b, hnext, hturn⟩ hreach, hrest⟩

/-- **A call that fails** has failed on its own block, or on a block of the buffer after the blocks before it
were applied. -/
theorem failed_call {s t : SyncState} {seen : ℕ} {b : Block} {e : String}
    (h : applySyncBatch c s seen b = (.error e, t)) :
    applyOwn c s seen b = (.error e, t) ∨
      ∃ s₀ s', applyOwn c s seen b = (.ok (), s₀) ∧ ReflTransGen (AppliesNext c) s₀ s' ∧
        ∃ b', nextBuffered s' = some b' ∧ turn c (taken s') b' = (.error e, t) := by
  rw [applySyncBatch_eq] at h
  rcases hown : applyOwn c s seen b with ⟨⟨e'⟩ | ⟨⟨⟩⟩, s₀⟩
  · rw [hown] at h
    cases h
    exact Or.inl rfl
  · rw [hown] at h
    dsimp only at h
    split_ifs at h
    · obtain ⟨s', hreach, hfail⟩ := failed_loop h
      exact Or.inr ⟨s₀, s', rfl, hreach, hfail⟩
    · cases h

end Calls

/-- **Which blocks fail without a trace**: exactly those that fit, for every node state and every block. -/
theorem sync_block_atomic_iff (c : Setup) (s : SyncState) (seen : ℕ) (b : Block) :
    Atomic c s seen b ↔
      (b.header.height = seen + 1 → Fits c s.node b) ∧ ∀ b', nextBuffered s = some b' → Fits c s.node b' := by
  constructor
  · rintro ⟨hown, hbuffered⟩
    refine ⟨fun hnext => ?_, fun b' hb' => (turn_untouched_iff (taken s) b').mp fun e s' => hbuffered b' e s' hb'⟩
    refine (turn_untouched_iff s b).mp fun e s' hturn => hown e s' ?_
    unfold applyOwn
    rw [if_neg (by omega), if_pos hnext]
    exact hturn
  · rintro ⟨hown, hbuffered⟩
    refine ⟨fun e s' hfail => ?_, fun b' e s' hb' =>
      (turn_untouched_iff (taken s) b').mpr (hbuffered b' hb') e s'⟩
    unfold applyOwn at hfail
    split_ifs at hfail with hlow hnext
    · cases hfail
    · exact (turn_untouched_iff s b).mpr (hown hnext) e s' hfail
    · cases hcheck : check c s.node b with
      | error e' =>
        rw [hcheck] at hfail
        cases hfail
        exact untouched_refl _
      | ok u =>
        rw [hcheck] at hfail
        dsimp only at hfail
        have hnode := bufferBatch_node (c := c) s seen b
        rw [hfail] at hnode
        dsimp only at hnode
        rw [hnode]
        exact untouched_refl _

/-! ## A block that is older than its parent -/

def stampedBlock : Block := { openingBlock with header := { openingBlock.header with timestamp := 5 } }

def stampedState : SyncState := (applyOwn orderSetup (start (jailNode 5) .empty ∅) 0 stampedBlock).2

theorem stampedState_facts :
    stampedState.node.currentHeight = 1 ∧
      (applyOwn orderSetup stampedState 1 followingBlock).1 = .error "Timestamp must be >= parent timestamp" ∧
      (applyOwn orderSetup stampedState 1 followingBlock).2.node.currentHeight = 2 := by
  decide +kernel

/-- **Refused by the header tree alone**: the block fails, and the node is one height further. -/
theorem late_refusal_leaves_height : ¬ Atomic orderSetup stampedState 1 followingBlock := by
  obtain ⟨hbefore, herror, hafter⟩ := stampedState_facts
  intro hatomic
  have hheight := (hatomic.own _ _ (Prod.ext herror rfl)).currentHeight
  rw [hbefore, hafter] at hheight
  cases hheight

end TruthLinked.Consensus.SyncAtomic
