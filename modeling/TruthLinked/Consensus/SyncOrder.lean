import TruthLinked.Consensus.SyncSafety
import TruthLinked.Lib.Table

/-! # Blocks that come out of order

The blocks of a chain given to `apply_sync_batch` one after the other, in height order or in any other. A
block that comes early is checked against the state of the moment, with the validators, leaders and stakes
of that state, and is kept in the buffer only if it passes. The order does not matter iff every block
passes the check on each state below it (`delivery_order_iff`); a block led by a validator that its parent
lets in is lost (`early_block_lost`). -/

namespace TruthLinked.Consensus.SyncOrder

open Core.Types Staking.State Ledger.Model Consensus.Types Consensus.NodeState Consensus.Sync Lib.Table

section
variable (c : Setup)

/-- `apply_sync_batch` without another task in between. -/
def give (s : SyncState) (b : Block) : Except String Unit × SyncState :=
  applySyncBatch c s s.node.currentHeight b

/-- The blocks given one after the other; what a call returns is logged. -/
def deliverAll (s : SyncState) (bs : List Block) : SyncState := bs.foldl (fun s b => (give c s b).2) s

/-- **A chain that is accepted in height order**: its heights follow on the current height, and each call
returns `Ok` with its block applied last. -/
structure AcceptedInOrder (s : SyncState) (bs : List Block) : Prop where
  consecutive : ∀ (i : ℕ) (h : i < bs.length), bs[i].header.height = s.node.currentHeight + 1 + i
  accepted : ∀ (i : ℕ) (h : i < bs.length),
    (give c (deliverAll c s (bs.take i)) bs[i]).1 = .ok () ∧
      (give c (deliverAll c s (bs.take i)) bs[i]).2.node.currentHeight = bs[i].header.height

/-- The buffer is large enough for the whole chain, whatever limit the states on the way set. -/
def Room (s : SyncState) (bs : List Block) : Prop :=
  ∀ i ≤ bs.length, s.syncBuffer.entries.size + bs.length ≤
    maxSyncBufferSize c (deliverAll c s (bs.take i)).node

/-- The same ledger, canonical tip and heights. -/
structure SameOutcome (n n' : Node) : Prop where
  state : n.world.state = n'.world.state
  tip : n.chain.canonicalTip = n'.chain.canonicalTip
  currentHeight : n.currentHeight = n'.currentHeight
  finalizedHeight : n.finalizedHeight = n'.finalizedHeight

/-- **Every block passes the check early**, on each state that the blocks before it lead to. -/
def PassEarly (s : SyncState) (bs : List Block) : Prop :=
  ∀ (i j : ℕ) (hj : j < bs.length), i < j →
    check c (deliverAll c s (bs.take i)).node bs[j] = .ok ()

end

section Heights
variable {c : Setup} {s s' : SyncState} {n n' : Node} {b : Block} {H : ℕ}

theorem currentHeight_storeWorld (w : World) (height : ℕ) :
    (n.storeWorld w height).currentHeight = max n.currentHeight height := by
  unfold Node.storeWorld Node.setCurrentHeightMonotonic Node.setFinalizedHeight
  split_ifs with h
  · exact (max_eq_left h.le).symm
  · exact (max_eq_right (not_lt.mp h)).symm

/-- A block raises the height to its own or leaves it; an applied block raises it. -/
theorem applyNext_currentHeight {r : Except String Unit} (h : applyNext c n b = (r, n')) :
    (n'.currentHeight = n.currentHeight ∨ n'.currentHeight = max n.currentHeight b.header.height) ∧
      (r = .ok () → n'.currentHeight = max n.currentHeight b.header.height) := by
  unfold applyNext at h
  split at h
  · cases h
    exact ⟨Or.inl rfl, fun hr => by cases hr⟩
  split at h
  · cases h
    exact ⟨Or.inl rfl, fun hr => by cases hr⟩
  split at h
  · cases h
    exact ⟨Or.inl rfl, fun hr => by cases hr⟩
  dsimp only at h
  split at h
  · cases h
    exact ⟨Or.inl rfl, fun hr => by cases hr⟩
  split at h
  · cases h
    exact ⟨Or.inr (currentHeight_storeWorld _ _), fun hr => by cases hr⟩
  · cases h
    exact ⟨Or.inr (currentHeight_storeWorld _ _), fun _ => currentHeight_storeWorld _ _⟩

theorem applyNext_height_cases (c : Setup) (n : Node) (b : Block) :
    (applyNext c n b).2.currentHeight = n.currentHeight ∨
      (applyNext c n b).2.currentHeight = max n.currentHeight b.header.height := by
  have heq : applyNext c n b = ((applyNext c n b).1, (applyNext c n b).2) := rfl
  exact (applyNext_currentHeight heq).1

theorem acceptNext_spec (s : SyncState) (b : Block) :
    (acceptNext c s b).1 = (applyNext c s.node b).1 ∧
      (acceptNext c s b).2.node = (applyNext c s.node b).2 ∧
      (acceptNext c s b).2.syncBuffer = s.syncBuffer := by
  unfold acceptNext
  cases applyNext c s.node b with
  | mk r node => cases r <;> exact ⟨rfl, rfl, rfl⟩

theorem le_processSyncBuffer (fuel : ℕ) (s : SyncState) :
    s.node.currentHeight ≤ (processSyncBuffer c fuel s).2.node.currentHeight := by
  induction fuel generalizing s with
  | zero => exact le_rfl
  | succ fuel ih =>
    rw [processSyncBuffer]
    split
    · exact le_rfl
    rename_i b hb
    dsimp only
    split
    · exact le_rfl
    have hspec := acceptNext_spec (c := c)
      { s with syncBuffer := s.syncBuffer.remove (s.node.currentHeight + 1) } b
    have hheight := applyNext_height_cases c s.node b
    have hle : s.node.currentHeight ≤ (acceptNext c
        { s with syncBuffer := s.syncBuffer.remove (s.node.currentHeight + 1) } b).2.node.currentHeight := by
      rw [hspec.2.1]
      dsimp only
      omega
    split
    · rename_i e s' haccept
      rw [haccept] at hle
      exact hle
    · rename_i u s' haccept
      rw [haccept] at hle
      exact hle.trans (ih s')

/-- The height cannot pass `H`: the block above it is not in the buffer. -/
def Capped (H : ℕ) (s : SyncState) : Prop :=
  s.node.currentHeight ≤ H ∧ s.syncBuffer.entries[H + 1]? = none

theorem entries_remove (buffer : SyncBuffer) (height k : ℕ) :
    (buffer.remove height).entries[k]? = if k = height then none else buffer.entries[k]? :=
  getElem?_erase_ite _ _ _

theorem entries_insert (buffer : SyncBuffer) (b : Block) (k : ℕ) :
    (buffer.insert b).entries[k]? = if k = b.header.height then some b else buffer.entries[k]? :=
  getElem?_insert_ite _ _ _ _

theorem entries_dropOldest {buffer : SyncBuffer} {k : ℕ} (h : buffer.entries[k]? = none) :
    buffer.dropOldest.entries[k]? = none := by
  unfold SyncBuffer.dropOldest
  split
  · rw [entries_remove]
    split_ifs
    · rfl
    · exact h
  · exact h

theorem Capped.accept (h : Capped H s) (hb : b.header.height ≤ H) : Capped H (acceptNext c s b).2 := by
  obtain ⟨-, hnode, hbuffer⟩ := acceptNext_spec (c := c) s b
  have hheight := applyNext_height_cases c s.node b
  have hcur := h.1
  refine ⟨?_, by rw [hbuffer]; exact h.2⟩
  rw [hnode]
  omega

theorem Capped.process (h : Capped H s) (fuel : ℕ) : Capped H (processSyncBuffer c fuel s).2 := by
  induction fuel generalizing s with
  | zero => exact h
  | succ fuel ih =>
    rw [processSyncBuffer]
    split
    · exact h
    rename_i b hb
    have hlow : s.node.currentHeight + 1 ≤ H := by
      rcases Nat.lt_or_ge s.node.currentHeight H with hlt | hge
      · exact hlt
      · rw [le_antisymm h.1 hge, h.2] at hb
        cases hb
    have htaken : Capped H { s with syncBuffer := s.syncBuffer.remove (s.node.currentHeight + 1) } := by
      refine ⟨h.1, ?_⟩
      dsimp only
      rw [entries_remove]
      split_ifs
      · rfl
      · exact h.2
    have haccept := htaken.accept (c := c) (b := b) (by
      rw [s.syncBuffer.keyed _ _ hb]
      exact hlow)
    dsimp only
    split
    · exact htaken
    split
    · rename_i e s' heq
      rw [heq] at haccept
      exact haccept
    · rename_i u s' heq
      rw [heq] at haccept
      exact ih haccept

theorem Capped.give (h : Capped H s) (hb : b.header.height ≠ H + 1) : Capped H (give c s b).2 := by
  have hcur := h.1
  unfold SyncOrder.give applySyncBatch
  by_cases hstale : b.header.height ≤ s.node.currentHeight
  · rw [if_pos hstale]
    exact h
  rw [if_neg hstale]
  cases check c s.node b with
  | error e => exact h
  | ok u =>
    dsimp only
    by_cases hnext : b.header.height ≠ s.node.currentHeight + 1
    · have hfree : ∀ buffer : SyncBuffer, buffer.entries[H + 1]? = none →
          (buffer.insert b).entries[H + 1]? = none := by
        intro buffer hnone
        rw [entries_insert, if_neg (Ne.symm hb), hnone]
      rw [if_pos hnext]
      unfold bufferBatch
      dsimp only
      split_ifs
      · exact ⟨h.1, entries_dropOldest h.2⟩
      · exact h
      · exact ⟨h.1, hfree _ (entries_dropOldest h.2)⟩
      · exact ⟨h.1, hfree _ h.2⟩
    · rw [if_neg hnext]
      have haccept := h.accept (c := c) (b := b) (by omega)
      split
      · rename_i e s' heq
        rw [heq] at haccept
        exact haccept
      · rename_i u s' heq
        rw [heq] at haccept
        exact haccept.process _

theorem Capped.deliverAll (h : Capped H s) {bs : List Block} (hbs : ∀ b ∈ bs, b.header.height ≠ H + 1) :
    Capped H (deliverAll c s bs) := by
  induction bs generalizing s with
  | nil => exact h
  | cons b bs ih =>
    exact ih (h.give (hbs b List.mem_cons_self)) fun b' hb' => hbs b' (List.mem_cons_of_mem _ hb')

end Heights

/-! ## In height order -/

section InOrder
variable {c : Setup} {s : SyncState} {b : Block} {bs : List Block}

theorem processSyncBuffer_none {fuel : ℕ} (h : s.syncBuffer.entries[s.node.currentHeight + 1]? = none) :
    processSyncBuffer c fuel s = (.ok (), s) := by
  cases fuel with
  | zero => rfl
  | succ fuel => rw [processSyncBuffer, h]

theorem processSyncBuffer_next {n' : Node} (hb : s.syncBuffer.entries[s.node.currentHeight + 1]? = some b)
    (hcheck : check c s.node b = .ok ()) (happly : applyNext c s.node b = (.ok (), n')) (fuel : ℕ) :
    processSyncBuffer c (fuel + 1) s = processSyncBuffer c fuel
      { s with
        node := n'
        syncBuffer := s.syncBuffer.remove (s.node.currentHeight + 1)
        accepted := ⟨s.node, b⟩ :: s.accepted } := by
  simp only [processSyncBuffer, hb, hcheck, acceptNext, happly]

theorem give_next {n' : Node} (hb : b.header.height = s.node.currentHeight + 1)
    (hcheck : check c s.node b = .ok ()) (happly : applyNext c s.node b = (.ok (), n')) :
    give c s b = processSyncBuffer c (s.syncBuffer.entries.size + 1)
      { s with node := n', accepted := ⟨s.node, b⟩ :: s.accepted } := by
  have hstale : ¬ b.header.height ≤ s.node.currentHeight := by omega
  have hnext : ¬ b.header.height ≠ s.node.currentHeight + 1 := not_not.mpr hb
  simp only [give, applySyncBatch, if_neg hstale, hcheck, if_neg hnext, acceptNext, happly]

/-- A loop that returns `Ok` with the height unchanged had nothing to do. -/
theorem none_of_processSyncBuffer {fuel : ℕ} (hok : (processSyncBuffer c (fuel + 1) s).1 = .ok ())
    (hheight : (processSyncBuffer c (fuel + 1) s).2.node.currentHeight = s.node.currentHeight) :
    s.syncBuffer.entries[s.node.currentHeight + 1]? = none := by
  by_contra hsome
  obtain ⟨b, hb⟩ := Option.ne_none_iff_exists'.mp hsome
  have hkey := s.syncBuffer.keyed _ _ hb
  simp only [processSyncBuffer, hb] at hok hheight
  cases hcheck : check c s.node b with
  | error e =>
    rw [hcheck] at hok
    cases hok
  | ok u =>
    simp only [hcheck] at hok hheight
    obtain ⟨hr, hnode, -⟩ := acceptNext_spec (c := c)
      { s with syncBuffer := s.syncBuffer.remove (s.node.currentHeight + 1) } b
    cases haccept : acceptNext c
        { s with syncBuffer := s.syncBuffer.remove (s.node.currentHeight + 1) } b with
    | mk r s' =>
      rw [haccept] at hr hnode
      simp only [haccept] at hok hheight
      cases r with
      | error e => cases hok
      | ok u =>
        have happly : applyNext c s.node b = (.ok (), s'.node) := Prod.ext hr.symm hnode.symm
        have hup := (applyNext_currentHeight happly).2 rfl
        have hle := le_processSyncBuffer (c := c) fuel s'
        dsimp only at hheight
        omega

/-- **The next block, accepted as the last one**: it passes the check and is applied, and the buffer has
no block on it. -/
theorem give_next_inv (hb : b.header.height = s.node.currentHeight + 1) (hok : (give c s b).1 = .ok ())
    (hheight : (give c s b).2.node.currentHeight = b.header.height) :
    check c s.node b = .ok () ∧ applyNext c s.node b = (.ok (), (give c s b).2.node) ∧
      (give c s b).2.syncBuffer = s.syncBuffer ∧
      s.syncBuffer.entries[b.header.height + 1]? = none := by
  have hstale : ¬ b.header.height ≤ s.node.currentHeight := by omega
  have hnext : ¬ b.header.height ≠ s.node.currentHeight + 1 := not_not.mpr hb
  unfold give applySyncBatch at hok hheight ⊢
  rw [if_neg hstale] at hok hheight ⊢
  cases hcheck : check c s.node b with
  | error e =>
    rw [hcheck] at hok
    cases hok
  | ok u =>
    simp only [hcheck, if_neg hnext] at hok hheight ⊢
    obtain ⟨hr, hnode, hbuffer⟩ := acceptNext_spec (c := c) s b
    cases haccept : acceptNext c s b with
    | mk r s' =>
      rw [haccept] at hr hnode hbuffer
      simp only [haccept] at hok hheight ⊢
      cases r with
      | error e => cases hok
      | ok u =>
        have happly : applyNext c s.node b = (.ok (), s'.node) := Prod.ext hr.symm hnode.symm
        have hup := (applyNext_currentHeight happly).2 rfl
        have hcur : s'.node.currentHeight = b.header.height := by omega
        dsimp only at hok hheight ⊢
        have hnone := none_of_processSyncBuffer hok (hheight.trans hcur.symm)
        rw [processSyncBuffer_none hnone]
        rw [hcur] at hnone
        exact ⟨trivial, happly, hbuffer, hbuffer ▸ hnone⟩

theorem deliverAll_append (s : SyncState) (bs bs' : List Block) :
    deliverAll c s (bs ++ bs') = deliverAll c (deliverAll c s bs) bs' := List.foldl_append

theorem deliverAll_take_succ {i : ℕ} (hi : i < bs.length) :
    deliverAll c s (bs.take (i + 1)) = (give c (deliverAll c s (bs.take i)) bs[i]).2 := by
  rw [List.take_succ_eq_append_getElem hi, deliverAll_append]
  rfl

/-- The node after the first `i` blocks in height order. -/
def nodeAt (c : Setup) (s : SyncState) (bs : List Block) (i : ℕ) : Node :=
  (deliverAll c s (bs.take i)).node

theorem AcceptedInOrder.spec (h : AcceptedInOrder c s bs) {i : ℕ} (hi : i ≤ bs.length) :
    (nodeAt c s bs i).currentHeight = s.node.currentHeight + i ∧
      (deliverAll c s (bs.take i)).syncBuffer = s.syncBuffer ∧
      ∀ (j : ℕ) (hj : j < bs.length), j < i → check c (nodeAt c s bs j) bs[j] = .ok () ∧
        applyNext c (nodeAt c s bs j) bs[j] = (.ok (), nodeAt c s bs (j + 1)) ∧
        s.syncBuffer.entries[s.node.currentHeight + 2 + j]? = none := by
  induction i with
  | zero => exact ⟨rfl, rfl, fun j _ hj => absurd hj (Nat.not_lt_zero j)⟩
  | succ i ih =>
    have hi' : i < bs.length := hi
    obtain ⟨hheight, hbuffer, hbefore⟩ := ih hi'.le
    have hcons := h.consecutive i hi'
    obtain ⟨hok, hcur⟩ := h.accepted i hi'
    have hnext : bs[i].header.height = (deliverAll c s (bs.take i)).node.currentHeight + 1 := by
      unfold nodeAt at hheight
      omega
    obtain ⟨hcheck, happly, hbuf, hnone⟩ := give_next_inv hnext hok hcur
    rw [hbuffer] at hbuf hnone
    rw [← deliverAll_take_succ hi'] at hcur happly hbuf
    refine ⟨?_, hbuf, ?_⟩
    · unfold nodeAt
      rw [hcur, hcons]
      omega
    · intro j hj hji
      rcases Nat.lt_succ_iff_lt_or_eq.mp hji with hlt | rfl
      · exact hbefore j hj hlt
      · refine ⟨hcheck, happly, ?_⟩
        rw [show s.node.currentHeight + 2 + j = bs[j].header.height + 1 by omega]
        exact hnone

end InOrder

/-! ## In any order -/

/-- The first `i` blocks of the chain are applied and the others that were given wait in the buffer; the
block with index `j` has height `currentHeight + 1 + j`. -/
structure Partly (c : Setup) (s : SyncState) (bs given : List Block) (i : ℕ) (s' : SyncState) : Prop where
  node : s'.node = nodeAt c s bs i
  le : i ≤ bs.length
  applied : ∀ (j : ℕ) (hj : j < bs.length), j < i → bs[j] ∈ given
  waiting : ∀ (j : ℕ) (hj : j < bs.length), 1 ≤ j → i ≤ j → bs[j] ∈ given →
    s'.syncBuffer.entries[s.node.currentHeight + 1 + j]? = some bs[j]
  free : ∀ (j : ℕ) (hj : j < bs.length), 1 ≤ j → j < i ∨ bs[j] ∉ given →
    s'.syncBuffer.entries[s.node.currentHeight + 1 + j]? = none
  top : s'.syncBuffer.entries[s.node.currentHeight + 1 + bs.length]? = none

/-- No block that was given can be applied next. -/
structure Settled (c : Setup) (s : SyncState) (bs given : List Block) (i : ℕ) (s' : SyncState) : Prop
    extends Partly c s bs given i s' where
  next : ∀ h : i < bs.length, bs[i] ∉ given
  size : s'.syncBuffer.entries.size ≤ s.syncBuffer.entries.size + given.length

section AnyOrder
variable {c : Setup} {s s' : SyncState} {bs given : List Block} {i j : ℕ}

theorem AcceptedInOrder.height (h : AcceptedInOrder c s bs) (hi : i ≤ bs.length) :
    (nodeAt c s bs i).currentHeight = s.node.currentHeight + i := (h.spec hi).1

theorem AcceptedInOrder.apply (h : AcceptedInOrder c s bs) (hj : j < bs.length) :
    check c (nodeAt c s bs j) bs[j] = .ok () ∧
      applyNext c (nodeAt c s bs j) bs[j] = (.ok (), nodeAt c s bs (j + 1)) := by
  obtain ⟨hcheck, happly, -⟩ := (h.spec hj).2.2 j hj (Nat.lt_succ_self j)
  exact ⟨hcheck, happly⟩

theorem AcceptedInOrder.index_inj (h : AcceptedInOrder c s bs) (hi : i < bs.length) (hj : j < bs.length)
    (heq : bs[i] = bs[j]) : i = j := by
  have hhi := h.consecutive i hi
  have hhj := h.consecutive j hj
  rw [heq] at hhi
  omega

theorem AcceptedInOrder.nodup (h : AcceptedInOrder c s bs) : bs.Nodup := by
  rw [List.nodup_iff_injective_get]
  intro a b hab
  exact Fin.ext (h.index_inj a.2 b.2 hab)

theorem settled_start (h : AcceptedInOrder c s bs) (hne : bs ≠ []) : Settled c s bs [] 0 s := by
  have hlen : 0 < bs.length := List.length_pos_iff.mpr hne
  obtain ⟨-, -, hall⟩ := h.spec le_rfl
  have hfree : ∀ j, 1 ≤ j → j ≤ bs.length →
      s.syncBuffer.entries[s.node.currentHeight + 1 + j]? = none := by
    intro j h1 hj
    have hnone := (hall (j - 1) (by omega) (by omega)).2.2
    rw [show s.node.currentHeight + 1 + j = s.node.currentHeight + 2 + (j - 1) by omega]
    exact hnone
  refine ⟨⟨rfl, Nat.zero_le _, fun j _ hj => absurd hj (Nat.not_lt_zero j), ?_, ?_, ?_⟩, ?_, ?_⟩
  · exact fun j _ _ _ hin => absurd hin List.not_mem_nil
  · exact fun j hj h1 _ => hfree j h1 hj.le
  · exact hfree _ hlen le_rfl
  · exact fun _ => List.not_mem_nil
  · exact le_rfl

theorem Partly.advance (h : Partly c s bs given i s') (hi : i < bs.length) {given' : List Block}
    (hin : bs[i] ∈ given') (hsub : ∀ b ∈ given, b ∈ given')
    (hnew : ∀ (j : ℕ) (hj : j < bs.length), i < j → bs[j] ∈ given' → bs[j] ∈ given)
    {s'' : SyncState} (hnode : s''.node = nodeAt c s bs (i + 1))
    (hfront : 1 ≤ i → s''.syncBuffer.entries[s.node.currentHeight + 1 + i]? = none)
    (hbuffer : ∀ k, k ≠ i → s''.syncBuffer.entries[s.node.currentHeight + 1 + k]? =
      s'.syncBuffer.entries[s.node.currentHeight + 1 + k]?) :
    Partly c s bs given' (i + 1) s'' := by
  refine ⟨hnode, hi, ?_, ?_, ?_, ?_⟩
  · intro j hj hji
    rcases Nat.lt_succ_iff_lt_or_eq.mp hji with hlt | rfl
    · exact hsub _ (h.applied j hj hlt)
    · exact hin
  · intro j hj h1 hij hmem
    rw [hbuffer j (by omega)]
    exact h.waiting j hj h1 (by omega) (hnew j hj hij hmem)
  · intro j hj h1 hor
    by_cases hji : j = i
    · subst hji
      exact hfront h1
    · rw [hbuffer j hji]
      refine h.free j hj h1 ?_
      rcases hor with hlt | hout
      · exact Or.inl (by omega)
      · exact Or.inr fun hmem => hout (hsub _ hmem)
  · rw [hbuffer _ (by omega)]
    exact h.top

/-- The loop applies the waiting blocks up to the first gap. -/
theorem Partly.process (h : Partly c s bs given i s') (hacc : AcceptedInOrder c s bs) (h1 : 1 ≤ i)
    {fuel : ℕ} (hfuel : s'.syncBuffer.entries.size < fuel) :
    ∃ i', Partly c s bs given i' (processSyncBuffer c fuel s').2 ∧
      (∀ h : i' < bs.length, bs[i'] ∉ given) ∧
      (processSyncBuffer c fuel s').2.syncBuffer.entries.size ≤ s'.syncBuffer.entries.size := by
  induction fuel generalizing i s' with
  | zero => exact absurd hfuel (Nat.not_lt_zero _)
  | succ fuel ih =>
    have hheight : s'.node.currentHeight + 1 = s.node.currentHeight + 1 + i := by
      rw [h.node, hacc.height h.le]
      omega
    by_cases hgo : ∃ hi : i < bs.length, bs[i] ∈ given
    · obtain ⟨hi, hin⟩ := hgo
      have hentry := h.waiting i hi h1 le_rfl hin
      obtain ⟨hcheck, happly⟩ := hacc.apply hi
      have hmem : s.node.currentHeight + 1 + i ∈ s'.syncBuffer.entries :=
        Std.ExtTreeMap.mem_iff_isSome_getElem?.mpr (by rw [hentry]; rfl)
      have hsize : (s'.syncBuffer.remove (s.node.currentHeight + 1 + i)).entries.size + 1 =
          s'.syncBuffer.entries.size := by
        have hpos : s'.syncBuffer.entries.size ≠ 0 := fun hzero =>
          Std.ExtTreeMap.ne_empty_of_mem hmem (Std.ExtTreeMap.eq_empty_iff_size_eq_zero.mpr hzero)
        unfold SyncBuffer.remove
        dsimp only
        rw [Std.ExtTreeMap.size_erase, if_pos (Std.ExtTreeMap.contains_iff_mem.mpr hmem)]
        omega
      rw [← h.node] at hcheck happly
      rw [processSyncBuffer_next (hheight ▸ hentry) hcheck happly]
      set s'' : SyncState := { s' with
        node := nodeAt c s bs (i + 1)
        syncBuffer := s'.syncBuffer.remove (s'.node.currentHeight + 1)
        accepted := ⟨s'.node, bs[i]⟩ :: s'.accepted } with hs''
      have hbuffer : s''.syncBuffer = s'.syncBuffer.remove (s.node.currentHeight + 1 + i) := by
        rw [hs'', ← hheight]
      have hpart : Partly c s bs given (i + 1) s'' := by
        refine h.advance hi hin (fun _ hb => hb) (fun _ _ _ hb => hb) rfl (fun _ => ?_) fun k hk => ?_
        · rw [hbuffer, entries_remove, if_pos rfl]
        · rw [hbuffer, entries_remove, if_neg (by omega)]
      have hless : s''.syncBuffer.entries.size < fuel := by
        rw [hbuffer]
        omega
      obtain ⟨i', hp, hn, hs⟩ := ih hpart (by omega) hless
      refine ⟨i', hp, hn, hs.trans ?_⟩
      rw [hbuffer]
      omega
    · -- the next block was not given, or the chain is at its end
      have hnone : s'.syncBuffer.entries[s'.node.currentHeight + 1]? = none := by
        rw [hheight]
        rcases Nat.lt_or_ge i bs.length with hi | hi
        · exact h.free i hi h1 (Or.inr fun hin => hgo ⟨hi, hin⟩)
        · rw [le_antisymm h.le hi]
          exact h.top
      rw [processSyncBuffer_none hnone]
      exact ⟨i, h, fun hi hin => hgo ⟨hi, hin⟩, le_rfl⟩

theorem Settled.give (h : Settled c s bs given i s') (hacc : AcceptedInOrder c s bs)
    (hearly : PassEarly c s bs) (hroom : Room c s bs) (hj : j < bs.length) (hout : bs[j] ∉ given)
    (hshort : given.length < bs.length) :
    ∃ i', Settled c s bs (given ++ [bs[j]]) i' (give c s' bs[j]).2 := by
  have hij : i ≤ j := by
    by_contra hlt
    exact hout (h.applied j hj (not_le.mp hlt))
  have hheight : s'.node.currentHeight = s.node.currentHeight + i := by
    rw [h.node, hacc.height h.le]
  have hcons := hacc.consecutive j hj
  have hmem : ∀ (k : ℕ) (hk : k < bs.length), k ≠ j → bs[k] ∈ given ++ [bs[j]] → bs[k] ∈ given := by
    intro k hk hkj hin
    rcases List.mem_append.mp hin with hin | hin
    · exact hin
    · exact absurd (hacc.index_inj hk hj (List.mem_singleton.mp hin)) hkj
  rcases Nat.lt_or_ge i j with hlt | hge
  · -- too early: checked on the state of the moment and put into the buffer
    have hcheck : check c s'.node bs[j] = .ok () := by
      rw [h.node]
      exact hearly i j hj hlt
    have hlimit : ¬ maxSyncBufferSize c s'.node ≤ s'.syncBuffer.entries.size := by
      have hroom' := hroom i h.le
      have hsize := h.size
      rw [h.node]
      unfold nodeAt
      omega
    have hgive : SyncOrder.give c s' bs[j] = (.ok (), { s' with syncBuffer := s'.syncBuffer.insert bs[j] }) := by
      have hstale : ¬ bs[j].header.height ≤ s'.node.currentHeight := by omega
      have hnext : bs[j].header.height ≠ s'.node.currentHeight + 1 := by omega
      have hold : ¬ bs[j].header.height < s'.node.currentHeight - maxSyncBufferSize c s'.node := by omega
      simp only [SyncOrder.give, applySyncBatch, if_neg hstale, hcheck, if_pos hnext, bufferBatch,
        if_neg hlimit, if_neg hold]
    have hentries : ∀ k, (s'.syncBuffer.insert bs[j]).entries[s.node.currentHeight + 1 + k]? =
        if k = j then some bs[j] else s'.syncBuffer.entries[s.node.currentHeight + 1 + k]? := by
      intro k
      rw [entries_insert, hcons]
      exact if_congr (by omega) rfl rfl
    rw [hgive]
    refine ⟨i, ⟨h.node, h.le, ?_, ?_, ?_, ?_⟩, ?_, ?_⟩
    · exact fun k hk hki => List.mem_append_left _ (h.applied k hk hki)
    · intro k hk h1 hik hin
      dsimp only
      rw [hentries]
      split_ifs with hkj
      · subst hkj
        rfl
      · exact h.waiting k hk h1 hik (hmem k hk hkj hin)
    · intro k hk h1 hor
      have hkj : k ≠ j := by
        rintro rfl
        rcases hor with hki | hnot
        · omega
        · exact hnot (by simp)
      dsimp only
      rw [hentries, if_neg hkj]
      refine h.free k hk h1 (hor.imp_right fun hnot hin => hnot (List.mem_append_left _ hin))
    · dsimp only
      rw [hentries, if_neg (by omega)]
      exact h.top
    · intro hi hin
      exact h.next hi (hmem i hi (by omega) hin)
    · have hsize := h.size
      have hinsert : (s'.syncBuffer.insert bs[j]).entries.size ≤ s'.syncBuffer.entries.size + 1 :=
        Std.ExtTreeMap.size_insert_le
      rw [List.length_append, List.length_singleton]
      dsimp only
      omega
  · -- the next one: applied, with the blocks that wait for it
    obtain rfl : i = j := le_antisymm hij hge
    obtain ⟨hcheck, happly⟩ := hacc.apply hj
    rw [← h.node] at hcheck happly
    rw [give_next (by omega) hcheck happly]
    have hpart : Partly c s bs (given ++ [bs[i]]) (i + 1)
        { s' with node := nodeAt c s bs (i + 1), accepted := ⟨s'.node, bs[i]⟩ :: s'.accepted } := by
      refine h.advance hj (by simp) (fun _ hb => List.mem_append_left _ hb) ?_ rfl ?_ fun _ _ => rfl
      · exact fun k hk hik hin => hmem k hk (by omega) hin
      · exact fun h1 => h.free i hj h1 (Or.inr hout)
    obtain ⟨i', hp, hn, hs⟩ := hpart.process hacc (by omega) (Nat.lt_add_one _)
    refine ⟨i', hp, hn, ?_⟩
    have hsize := h.size
    rw [List.length_append, List.length_singleton]
    dsimp only at hs
    omega

theorem Settled.deliverAll (h : Settled c s bs given i s') (hacc : AcceptedInOrder c s bs)
    (hearly : PassEarly c s bs) (hroom : Room c s bs) {rest : List Block} (hperm : (given ++ rest).Perm bs) :
    ∃ i', Settled c s bs (given ++ rest) i' (deliverAll c s' rest) := by
  induction rest generalizing given i s' with
  | nil => exact ⟨i, by rw [List.append_nil]; exact h⟩
  | cons b rest ih =>
    obtain ⟨j, hj, rfl⟩ := List.getElem_of_mem (hperm.mem_iff.mp (by simp : b ∈ given ++ b :: rest))
    have hnodup : (given ++ bs[j] :: rest).Nodup := hperm.nodup_iff.mpr hacc.nodup
    have hout : bs[j] ∉ given := fun hin =>
      (List.nodup_append.mp hnodup).2.2 _ hin _ List.mem_cons_self rfl
    have hshort : given.length < bs.length := by
      have hlen := hperm.length_eq
      rw [List.length_append, List.length_cons] at hlen
      omega
    obtain ⟨i', h'⟩ := h.give hacc hearly hroom hj hout hshort
    have hassoc : given ++ bs[j] :: rest = given ++ [bs[j]] ++ rest := by simp
    rw [hassoc] at hperm ⊢
    exact ih h' hperm

/-- **Where every block passes the check early**, every order leads to the same node. -/
theorem node_deliverAll_perm (hacc : AcceptedInOrder c s bs) (hearly : PassEarly c s bs)
    (hroom : Room c s bs) {bs' : List Block} (hperm : bs'.Perm bs) :
    (deliverAll c s bs').node = (deliverAll c s bs).node := by
  by_cases hne : bs = []
  · subst hne
    rw [hperm.eq_nil]
  · have hall : ([] ++ bs').Perm bs := hperm
    obtain ⟨i, h⟩ := (settled_start hacc hne).deliverAll hacc hearly hroom hall
    have hi : i = bs.length := by
      refine le_antisymm h.le (not_lt.mp fun hlt => ?_)
      exact h.next hlt (hperm.mem_iff.mpr (List.getElem_mem hlt))
    rw [h.node, hi, nodeAt, List.take_length]

theorem height_of_lost (hacc : AcceptedInOrder c s bs) (hj : j < bs.length) (hij : i < j)
    (hfail : check c (nodeAt c s bs i) bs[j] ≠ .ok ()) {rest : List Block}
    (hperm : (bs.take i ++ bs[j] :: rest).Perm bs) :
    (deliverAll c s (bs.take i ++ bs[j] :: rest)).node.currentHeight ≤ s.node.currentHeight + j := by
  obtain ⟨hheight, hbuffer, -⟩ := hacc.spec (i := i) (by omega)
  have hcons := hacc.consecutive j hj
  have hlost : (SyncOrder.give c (deliverAll c s (bs.take i)) bs[j]).2 = deliverAll c s (bs.take i) := by
    have hstale : ¬ bs[j].header.height ≤ (deliverAll c s (bs.take i)).node.currentHeight := by
      unfold nodeAt at hheight
      omega
    unfold SyncOrder.give applySyncBatch
    rw [if_neg hstale]
    cases hcheck : check c (deliverAll c s (bs.take i)).node bs[j] with
    | error e => rfl
    | ok u => exact absurd hcheck hfail
  have hcapped : Capped (s.node.currentHeight + j) (deliverAll c s (bs.take i)) := by
    unfold nodeAt at hheight
    refine ⟨by omega, ?_⟩
    have hnone := ((hacc.spec le_rfl).2.2 (j - 1) (by omega) (by omega)).2.2
    rw [hbuffer, show s.node.currentHeight + j + 1 = s.node.currentHeight + 2 + (j - 1) by omega]
    exact hnone
  have hrest : ∀ b ∈ rest, b.header.height ≠ s.node.currentHeight + j + 1 := by
    intro b hb hh
    have hin : b ∈ bs := hperm.mem_iff.mp (by simp [hb])
    obtain ⟨m, hm, rfl⟩ := List.getElem_of_mem hin
    have hm' := hacc.consecutive m hm
    obtain rfl : m = j := by omega
    have hnodup : (bs.take i ++ bs[m] :: rest).Nodup := hperm.nodup_iff.mpr hacc.nodup
    exact (List.nodup_cons.mp (List.nodup_append.mp hnodup).2.1).1 hb
  rw [deliverAll_append]
  show (SyncOrder.deliverAll c (SyncOrder.give c (SyncOrder.deliverAll c s (bs.take i)) bs[j]).2
    rest).node.currentHeight ≤ _
  rw [hlost]
  exact (hcapped.deliverAll hrest).1

/-- A block of the chain can come right after the first `i` blocks. -/
theorem exists_perm_take (hj : j < bs.length) (hij : i < j) :
    ∃ rest, (bs.take i ++ bs[j] :: rest).Perm bs := by
  have hin : bs[j] ∈ bs.drop i := by
    rw [List.mem_drop_iff_getElem]
    exact ⟨j - i, by omega, by simp [show i + (j - i) = j by omega]⟩
  obtain ⟨before, after, hsplit⟩ := List.append_of_mem hin
  refine ⟨before ++ after, ?_⟩
  have hmiddle : (bs[j] :: (before ++ after)).Perm (bs.drop i) := by
    rw [hsplit]
    exact List.perm_middle.symm
  have hall : (bs.take i ++ bs[j] :: (before ++ after)).Perm (bs.take i ++ bs.drop i) :=
    hmiddle.append_left _
  rwa [List.take_append_drop] at hall

/-- **When the order of delivery does not matter.** For a chain that is accepted in height order, with
room in the buffer, every order leads to the same ledger, canonical tip and heights iff every block passes
the check on each state below it. -/
theorem delivery_order_iff (c : Setup) (s : SyncState) (bs : List Block) (hacc : AcceptedInOrder c s bs)
    (hroom : Room c s bs) :
    (∀ bs' : List Block, bs'.Perm bs → SameOutcome (deliverAll c s bs').node (deliverAll c s bs).node) ↔
      PassEarly c s bs := by
  constructor
  · intro hsame i j hj hij
    by_contra hfail
    obtain ⟨rest, hperm⟩ := exists_perm_take hj hij
    have hlow := height_of_lost hacc hj hij hfail hperm
    have hhigh := hacc.height (i := bs.length) le_rfl
    rw [nodeAt, List.take_length] at hhigh
    rw [(hsame _ hperm).currentHeight, hhigh] at hlow
    omega
  · intro hearly bs' hperm
    rw [node_deliverAll_perm hacc hearly hroom hperm]
    exact ⟨rfl, rfl, rfl, rfl⟩

end AnyOrder

/-! ## A validator that is let in on the way

Two empty blocks on genesis. One validator is active from the start, the other one is jailed until some
height. Hash functions are those of the node on the inputs that occur here, apart from the roots of states,
which play no part and are one value; every signature of the right length passes. -/

open Consensus.ExecutionOrder Consensus.SyncSafety Ledger.MergeAgreement Consensus.RootBinding

def jailedKey : Bytes := List.replicate 1952 10

def secondCommitment : Bytes32 := 0xa69b167a0930bade2325d87e68e1b2177b4404a74723cd0c3c353be2f41ac069

def orderPrim : Primitives where
  blake3 bs := if bs = ofBytes32 emptyCommitment ++ leBytes 8 2 then secondCommitment else syncPrim.blake3 bs
  sha256 bs :=
    if bs = "leader-selection-v2".toUTF8.toList ++ ofBytes32 emptyCommitment ++ leBytes 8 2 ++ leBytes 4 0 then
      0xe737ecf9ac4faaad9b364f0e0ff75da8f5973bcda5ba21e2eb88e6b2856c4098
    else syncPrim.sha256 bs
  verify _ _ _ _ := true

def bufferSizeKey : Bytes32 := 0x3562951c88e43b3b1c13152c97a72163b87da0516d4841af92d2fdf28f3a01b5

def orderSetup : Setup where
  prim := orderPrim
  env := { sampleEnv with
    sha256 := fun bs => if bs = "truthlinked.param.v1streaming.max_sync_buffer_size".toUTF8.toList then
      bufferSizeKey else paramDigest bs }
  split := .bucket
  it := keyOrder
  validatorPubkey := soleKey

def jailNode (jailedUntil : ℕ) : Node :=
  { genesisNode with
    world :=
      { state := { sampleState with
          staking :=
            { validators := ((∅ : Map Bytes ValidatorStake).insert soleKey (.new minValidatorStake)).insert
                jailedKey ⟨minValidatorStake, [], some jailedUntil⟩
              currentHeight := 0, treasuryAccountId := none } }
        globals := { sampleWorld.globals with
          paramCache := sampleWorld.globals.paramCache.insert bufferSizeKey
            (TruthLinked.Governance.Types.encodeU64 100) } }
    chain := .new orderPrim }

def blockHeader (height : ℕ) (parentHash batchHash : Bytes32) (leader bitmap : Bytes)
    (signedStake : ℕ) : BatchHeader where
  height := height
  parentHash := parentHash
  batchHash := batchHash
  executionOrderRoot := 0xe3b0c44298fc1c149afbf4c8996fb92427ae41e4649b934ca495991b7852b855
  stateRoot := blockRoot
  timestamp := 0
  totalFees := 0
  finalityCertificate :=
    { PqFinalityCertificate.empty orderPrim height 0 batchHash blockRoot with
      signerBitmap := bitmap, signedStake }
  leaderPubkey := leader
  leaderSignature := List.replicate 3309 5
  leaderRound := 0

def openingBlock : Block := ⟨blockHeader 1 0 emptyCommitment soleKey [] 0, []⟩

/-- The second block, led by the validator that was jailed until height 1 and signed by the other. -/
def freedBlock : Block :=
  ⟨blockHeader 2 emptyCommitment secondCommitment jailedKey [1] minValidatorStake, []⟩

def followingBlock : Block := ⟨blockHeader 2 emptyCommitment secondCommitment soleKey [] 0, []⟩

theorem acceptedInOrder_pair {c : Setup} {s : SyncState} {b b' : Block}
    (hb : b.header.height = s.node.currentHeight + 1) (hb' : b'.header.height = s.node.currentHeight + 2)
    (h : (give c s b).1 = .ok () ∧ (give c s b).2.node.currentHeight = b.header.height)
    (h' : (give c (give c s b).2 b').1 = .ok () ∧
      (give c (give c s b).2 b').2.node.currentHeight = b'.header.height) :
    AcceptedInOrder c s [b, b'] where
  consecutive i hi := by
    rcases i with _ | _ | i
    · exact hb
    · exact hb'
    · exact absurd hi (by simp)
  accepted i hi := by
    rcases i with _ | _ | i
    · exact h
    · exact h'
    · exact absurd hi (by simp)

theorem room_pair {c : Setup} {s : SyncState} {b b' : Block}
    (h0 : s.syncBuffer.entries.size + 2 ≤ maxSyncBufferSize c s.node)
    (h1 : s.syncBuffer.entries.size + 2 ≤ maxSyncBufferSize c (give c s b).2.node)
    (h2 : s.syncBuffer.entries.size + 2 ≤ maxSyncBufferSize c (give c (give c s b).2 b').2.node) :
    Room c s [b, b'] := by
  intro i hi
  rcases i with _ | _ | _ | i
  · exact h0
  · exact h1
  · exact h2
  · simp at hi

example : (start (jailNode 5) .empty ∅).syncBuffer.entries.size = 0 := by decide +kernel

/-- Where the jail outlasts both blocks, their order does not matter. -/
theorem delivery_order_jailed :
    SameOutcome (deliverAll orderSetup (start (jailNode 5) .empty ∅) [followingBlock, openingBlock]).node
      (deliverAll orderSetup (start (jailNode 5) .empty ∅) [openingBlock, followingBlock]).node := by
  have hacc : AcceptedInOrder orderSetup (start (jailNode 5) .empty ∅)
      [openingBlock, followingBlock] :=
    acceptedInOrder_pair rfl rfl (by decide +kernel) (by decide +kernel)
  have hroom : Room orderSetup (start (jailNode 5) .empty ∅) [openingBlock, followingBlock] :=
    room_pair (by decide +kernel) (by decide +kernel) (by decide +kernel)
  refine (delivery_order_iff orderSetup _ _ hacc hroom).mpr ?_ _ (List.Perm.swap _ _ _)
  intro i j hj hij
  obtain rfl : j = 1 := by
    have : j < 2 := hj
    omega
  obtain rfl : i = 0 := by omega
  have hcheck : check orderSetup (jailNode 5) followingBlock = .ok () := by decide +kernel
  exact hcheck

/-- **An early block is lost**: the second block is led by a validator whose jail ends with the first one.
Given first, it is refused on the genesis state and never comes back. -/
theorem early_block_lost :
    ¬ ∀ (c : Setup) (s : SyncState) (bs : List Block), AcceptedInOrder c s bs → Room c s bs →
      ∀ bs' : List Block, bs'.Perm bs →
        SameOutcome (deliverAll c s bs').node (deliverAll c s bs).node := by
  intro h
  have hacc : AcceptedInOrder orderSetup (start (jailNode 1) .empty ∅) [openingBlock, freedBlock] :=
    acceptedInOrder_pair rfl rfl (by decide +kernel) (by decide +kernel)
  have hroom : Room orderSetup (start (jailNode 1) .empty ∅) [openingBlock, freedBlock] :=
    room_pair (by decide +kernel) (by decide +kernel) (by decide +kernel)
  have hheight := (h _ _ _ hacc hroom [freedBlock, openingBlock] (List.Perm.swap _ _ _)).currentHeight
  revert hheight
  decide +kernel

end TruthLinked.Consensus.SyncOrder
