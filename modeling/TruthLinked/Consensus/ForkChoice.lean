import TruthLinked.Consensus.Types
import TruthLinked.Lib.Ancestry
import TruthLinked.Lib.Except
import TruthLinked.Lib.Run

/-! # The header tree and its canonical tip

`BlockChain` of `blockchain.rs`: headers by batch hash, the fork choice of `set_canonical_tip` and the
finalised height. Beside the chain a run keeps what pruning forgets: the link of every header that was
ever accepted, and the blocks that stood on the canonical chain when their height was finalised. The
guard of the fork choice compares heights only, so a finalised block can be left
(`finalized_block_left`); runs whose reorganisations branch off at or above the finalised height keep
every finalised block on the canonical chain (`finality_irreversible`). -/

namespace TruthLinked.Consensus.ForkChoice

open Core.Types Consensus.Types Lib.Except Lib.Ancestry Lib.Run

/-- `MAX_HEADER_HISTORY`. -/
def maxHeaderHistory : ℕ := 2000

/-- `BlockChain`. -/
structure BlockChain where
  headers : Map Bytes32 BatchHeader
  heightIndex : Map ℕ (List Bytes32)
  stakeWeight : Map Bytes32 ℕ
  canonicalTip : Bytes32
  currentHeight : ℕ
  lastFinalizedHeight : ℕ

/-- `BatchHeader::genesis`. -/
def genesis (prim : Primitives) : BatchHeader :=
  { height := 0, parentHash := 0, batchHash := 0, executionOrderRoot := 0, stateRoot := 0,
    timestamp := 0, totalFees := 0, finalityCertificate := PqFinalityCertificate.empty prim 0 0 0 0,
    leaderPubkey := [], leaderSignature := [], leaderRound := 0 }

namespace BlockChain

/-- `BlockChain::new`. -/
def new (prim : Primitives) : BlockChain :=
  { headers := (∅ : Map Bytes32 BatchHeader).insert 0 (genesis prim)
    heightIndex := (∅ : Map ℕ (List Bytes32)).insert 0 [0]
    stakeWeight := (∅ : Map Bytes32 ℕ).insert 0 0
    canonicalTip := 0, currentHeight := 0, lastFinalizedHeight := 0 }

/-- The checks of `add_header`. -/
def checkHeader (c : BlockChain) (header : BatchHeader) : Except String Unit := do
  failIf (header.height = 0) "Cannot add genesis header"
  match c.headers[header.parentHash]? with
  | none => throw s!"Parent not found: {header.parentHash.toHex}"
  | some parent =>
    failIf (header.height ≠ parent.height + 1)
      s!"Invalid height: expected {parent.height + 1}, got {header.height}"
    failIf (header.timestamp < parent.timestamp) "Timestamp must be >= parent timestamp"

/-- `add_header`: a refused header changes nothing. -/
def addHeader (c : BlockChain) (header : BatchHeader) : Except String Unit × BlockChain :=
  match c.checkHeader header with
  | .error e => (.error e, c)
  | .ok () => (.ok (),
    { c with
      headers := c.headers.insert header.batchHash header
      heightIndex := c.heightIndex.insert header.height
        (c.heightIndex[header.height]?.getD [] ++ [header.batchHash]) })

/-- `seed_canonical_tip`, which looks at no parent. -/
def seedCanonicalTip (c : BlockChain) (header : BatchHeader) (totalStake : ℕ) : BlockChain :=
  { headers := c.headers.insert header.batchHash header
    heightIndex := c.heightIndex.insert header.height
      (c.heightIndex[header.height]?.getD [] ++ [header.batchHash])
    stakeWeight := c.stakeWeight.insert header.batchHash totalStake
    canonicalTip := header.batchHash
    currentHeight := header.height
    lastFinalizedHeight := header.height - 1 }

/-- The fork choice: `new` is preferred to the current tip `cur`. -/
def prefers (c : BlockChain) (tip : Bytes32) (new cur : BatchHeader) (totalStake currentStake : ℕ) : Bool :=
  let signers := fun h : BatchHeader => h.finalityCertificate.signerCount
  let signed := fun h : BatchHeader => h.finalityCertificate.signedStake
  signers cur < signers new || c.currentHeight < new.height ||
    (new.height = c.currentHeight && currentStake < totalStake) ||
    (new.height = c.currentHeight && totalStake = currentStake &&
      (signed cur < signed new ||
        (signed new = signed cur && new.leaderRound < cur.leaderRound) ||
        (signed new = signed cur && new.leaderRound = cur.leaderRound && tip < c.canonicalTip)))

/-- `set_canonical_tip`: the weight of the tip is recorded before the fork choice looks at it. -/
def setCanonicalTip (c : BlockChain) (tip : Bytes32) (totalStake : ℕ) :
    Except String (Bool × Option Bytes32) × BlockChain :=
  match c.headers[tip]? with
  | none => (.error "Header not found", c)
  | some header =>
    if header.height < c.lastFinalizedHeight then
      (.error s!"Cannot reorg past finalized height {c.lastFinalizedHeight}", c)
    else
      let weighed := { c with stakeWeight := c.stakeWeight.insert tip totalStake }
      match c.headers[c.canonicalTip]? with
      | none => (.error "Current canonical tip header missing", weighed)
      | some cur =>
        let currentStake := weighed.stakeWeight[c.canonicalTip]?.getD 0
        if c.prefers tip header cur totalStake currentStake then
          let switched := c.canonicalTip ≠ tip ∧ header.height = c.currentHeight
          (.ok (if switched then (true, some c.canonicalTip) else (false, none)),
            { weighed with currentHeight := header.height, canonicalTip := tip })
        else (.ok (false, none), weighed)

/-- `prune_old_headers`. -/
def pruneOldHeaders (c : BlockChain) (keepFromHeight : ℕ) : BlockChain :=
  let headers := c.headers.filter fun _ h => decide (keepFromHeight ≤ h.height)
  { c with
    headers
    stakeWeight := c.stakeWeight.filter fun k _ => headers.contains k || !c.headers.contains k
    heightIndex := c.heightIndex.filterMap fun height hashes =>
      if height < keepFromHeight then none
      else
        let kept := hashes.filter fun k => headers.contains k
        if kept = [] then none else some kept }

/-- `finalize_height`. -/
def finalizeHeight (c : BlockChain) (height : ℕ) : BlockChain :=
  if c.lastFinalizedHeight < height then
    let c' := { c with lastFinalizedHeight := height }
    if maxHeaderHistory < height then c'.pruneOldHeaders (height - maxHeaderHistory) else c'
  else c

end BlockChain

/-! ## Runs -/

/-- A call of a run. A height is finalised while `block` stands there on the canonical chain. -/
inductive Call where
  | addHeader (header : BatchHeader)
  | setCanonicalTip (tip : Bytes32) (totalStake : ℕ)
  | finalizeHeight (height : ℕ) (block : Bytes32)

/-- A chain with what it may have forgotten: the links of all headers, and the finalised blocks. -/
structure Tracked where
  chain : BlockChain
  links : Bytes32 → Option (Link Bytes32)
  finalized : List Bytes32

/-- The links of the stored headers. A header whose parent is not stored one lower is a root. -/
def linksOf (c : BlockChain) (k : Bytes32) : Option (Link Bytes32) :=
  c.headers[k]?.map fun h =>
    { parent := if (c.headers[h.parentHash]?.map fun p => p.height + 1) = some h.height
        then some h.parentHash else none
      height := h.height }

/-- The start of a run. -/
def Tracked.start (c : BlockChain) : Tracked := ⟨c, linksOf c, []⟩

/-- An accepted header is linked to its parent, whatever its hash stood for before. -/
def addLink (links : Bytes32 → Option (Link Bytes32)) (header : BatchHeader) :
    Bytes32 → Option (Link Bytes32) := fun k =>
  if k = header.batchHash then some ⟨some header.parentHash, header.height⟩ else links k

/-- One call. -/
def step (s : Tracked) : Call → Tracked
  | .addHeader header =>
    match s.chain.addHeader header with
    | (.ok _, chain) => { s with chain, links := addLink s.links header }
    | (.error _, chain) => { s with chain }
  | .setCanonicalTip tip totalStake => { s with chain := (s.chain.setCanonicalTip tip totalStake).2 }
  | .finalizeHeight height block =>
    { s with chain := s.chain.finalizeHeight height, finalized := block :: s.finalized }

/-- The canonical chain contains `block` at `height`. -/
def OnChain (s : Tracked) (block : Bytes32) (height : ℕ) : Prop :=
  Descends s.links s.chain.canonicalTip block ∧ (s.links block).map Link.height = some height

/-- Heights are finalised while the canonical chain contains the block. -/
def FinalizesOnChain (s : Tracked) : Call → Prop
  | .finalizeHeight height block => OnChain s block height
  | _ => True

/-- **Where the chain keeps its finality**: a batch hash is used again only for a block with the same
place in the tree, and a tip that the fork choice would move to branches off at or above the finalised
height. -/
def BranchesAboveFinality (s : Tracked) : Call → Prop
  | .addHeader header => ∀ l, s.links header.batchHash = some l →
      l.height = header.height ∧ (l.parent = none ∨ l.parent = some header.parentHash)
  | .setCanonicalTip tip totalStake => ∀ header cur, s.chain.headers[tip]? = some header →
      s.chain.headers[s.chain.canonicalTip]? = some cur →
      s.chain.lastFinalizedHeight ≤ header.height →
      s.chain.prefers tip header cur totalStake
        ((s.chain.stakeWeight.insert tip totalStake)[s.chain.canonicalTip]?.getD 0) = true →
      ∃ c l, Descends s.links tip c ∧ Descends s.links s.chain.canonicalTip c ∧ s.links c = some l ∧
        s.chain.lastFinalizedHeight ≤ l.height
  | .finalizeHeight _ _ => True

/-! ## The invariant -/

/-- The fields of a chain agree on its tip. -/
structure Sound (c : BlockChain) : Prop where
  tip : ∃ h, c.headers[c.canonicalTip]? = some h ∧ h.height = c.currentHeight
  above : c.lastFinalizedHeight ≤ c.currentHeight

/-- What every call keeps. -/
structure Inv (s : Tracked) : Prop where
  graded : Graded s.links
  stored : ∀ k h, s.chain.headers[k]? = some h → ∃ l, s.links k = some l ∧ l.height = h.height ∧
    (l.parent = none ∨ l.parent = some h.parentHash)
  tip : ∃ l, s.links s.chain.canonicalTip = some l ∧ l.height = s.chain.currentHeight
  above : s.chain.lastFinalizedHeight ≤ s.chain.currentHeight
  finalized : ∀ b ∈ s.finalized, Descends s.links s.chain.canonicalTip b ∧
    ∃ l, s.links b = some l ∧ l.height ≤ s.chain.lastFinalizedHeight

theorem linksOf_eq_some {c : BlockChain} {k : Bytes32} {h : BatchHeader} (hk : c.headers[k]? = some h) :
    ∃ l, linksOf c k = some l ∧ l.height = h.height ∧
      (l.parent = none ∨ l.parent = some h.parentHash) := by
  refine ⟨_, by rw [linksOf, hk]; rfl, rfl, ?_⟩
  dsimp only
  split_ifs
  · exact Or.inr rfl
  · exact Or.inl rfl

theorem graded_linksOf (c : BlockChain) : Graded (linksOf c) := by
  intro t l p ht hp
  unfold linksOf at ht
  obtain ⟨h, hh, rfl⟩ := Option.map_eq_some_iff.mp ht
  dsimp only at hp
  split_ifs at hp with hparent
  obtain rfl := Option.some.inj hp
  obtain ⟨q, hq, hheight⟩ := Option.map_eq_some_iff.mp hparent
  obtain ⟨m, hm, hmh, -⟩ := linksOf_eq_some hq
  exact ⟨m, hm, by dsimp only; omega⟩

theorem inv_start {c : BlockChain} (h : Sound c) : Inv (Tracked.start c) where
  graded := graded_linksOf c
  stored := fun _ _ hk => linksOf_eq_some hk
  tip := by
    obtain ⟨header, hh, hheight⟩ := h.tip
    obtain ⟨l, hl, hlh, -⟩ := linksOf_eq_some hh
    exact ⟨l, hl, hlh.trans hheight⟩
  above := h.above
  finalized := fun _ hb => absurd hb List.not_mem_nil

theorem addHeader_ok {c : BlockChain} {header : BatchHeader} (h : c.checkHeader header = .ok ()) :
    ∃ parent, c.headers[header.parentHash]? = some parent ∧ header.height = parent.height + 1 := by
  rw [BlockChain.checkHeader, failIf_bind_ok] at h
  cases hp : c.headers[header.parentHash]? with
  | none =>
    simp only [hp] at h
    cases h.2
  | some parent =>
    simp only [hp, failIf_bind_ok, failIf_eq_ok, not_not] at h
    exact ⟨parent, rfl, h.2.1⟩

section AddLink
variable {links : Bytes32 → Option (Link Bytes32)} {header : BatchHeader}
  (hsame : ∀ l, links header.batchHash = some l →
    l.height = header.height ∧ (l.parent = none ∨ l.parent = some header.parentHash))
include hsame

theorem addLink_height {k : Bytes32} {l : Link Bytes32} (hk : links k = some l) :
    ∃ l', addLink links header k = some l' ∧ l'.height = l.height := by
  unfold addLink
  by_cases he : k = header.batchHash
  · subst he
    exact ⟨_, if_pos rfl, (hsame l hk).1.symm⟩
  · exact ⟨l, by rw [if_neg he, hk], rfl⟩

theorem parent_addLink {t p : Bytes32} (h : Parent links t p) : Parent (addLink links header) t p := by
  obtain ⟨l, hl, hp⟩ := h
  by_cases he : t = header.batchHash
  · subst he
    rcases (hsame l hl).2 with hn | hs
    · rw [hn] at hp
      cases hp
    · rw [hs] at hp
      exact ⟨_, if_pos rfl, hp⟩
  · exact ⟨l, (if_neg he).trans hl, hp⟩

theorem graded_addLink (hg : Graded links) {l : Link Bytes32} (hl : links header.parentHash = some l)
    (hheight : header.height = l.height + 1) : Graded (addLink links header) := by
  intro t lt p ht hp
  by_cases he : t = header.batchHash
  · simp only [addLink, if_pos he] at ht
    obtain rfl := Option.some.inj ht
    obtain rfl := Option.some.inj hp
    obtain ⟨l', hl', hh⟩ := addLink_height hsame hl
    exact ⟨l', hl', by dsimp only; omega⟩
  · simp only [addLink, if_neg he] at ht
    obtain ⟨m, hm, hmh⟩ := hg t lt p ht hp
    obtain ⟨m', hm', hh⟩ := addLink_height hsame hm
    exact ⟨m', hm', by omega⟩

end AddLink

theorem Inv.addHeader {s : Tracked} {header : BatchHeader} (hI : Inv s)
    (hsame : BranchesAboveFinality s (.addHeader header)) : Inv (step s (.addHeader header)) := by
  cases hc : s.chain.checkHeader header with
  | error e =>
    simp only [step, BlockChain.addHeader, hc]
    exact hI
  | ok u =>
    simp only [step, BlockChain.addHeader, hc]
    obtain ⟨parent, hp, hheight⟩ := addHeader_ok hc
    obtain ⟨l, hl, hlh, -⟩ := hI.stored _ _ hp
    refine ⟨graded_addLink hsame hI.graded hl (by omega), ?_, ?_, hI.above, ?_⟩
    · intro k h hk
      dsimp only at hk ⊢
      rw [Std.ExtTreeMap.getElem?_insert] at hk
      unfold addLink
      split_ifs at hk with hcmp
      · obtain rfl := Option.some.inj hk
        obtain rfl := Std.LawfulEqOrd.eq_of_compare hcmp
        exact ⟨_, if_pos rfl, rfl, Or.inr rfl⟩
      · have hne : k ≠ header.batchHash := by
          rintro rfl
          exact hcmp Std.ReflOrd.compare_self
        rw [if_neg hne]
        exact hI.stored k h hk
    · obtain ⟨l, hl, hh⟩ := hI.tip
      obtain ⟨l', hl', hh'⟩ := addLink_height hsame hl
      exact ⟨l', hl', hh'.trans hh⟩
    · intro b hb
      obtain ⟨hd, l, hl, hh⟩ := hI.finalized b hb
      obtain ⟨l', hl', hh'⟩ := addLink_height hsame hl
      exact ⟨hd.mono fun t p => parent_addLink hsame, l', hl', hh'.le.trans hh⟩

theorem Inv.setCanonicalTip {s : Tracked} {tip : Bytes32} {totalStake : ℕ} (hI : Inv s)
    (hbranch : BranchesAboveFinality s (.setCanonicalTip tip totalStake)) :
    Inv (step s (.setCanonicalTip tip totalStake)) := by
  have hkeep : Inv { s with
      chain := { s.chain with stakeWeight := s.chain.stakeWeight.insert tip totalStake } } :=
    ⟨hI.graded, hI.stored, hI.tip, hI.above, hI.finalized⟩
  unfold step BlockChain.setCanonicalTip
  dsimp only
  cases hh : s.chain.headers[tip]? with
  | none => exact hI
  | some header =>
    dsimp only
    by_cases hlow : header.height < s.chain.lastFinalizedHeight
    · rw [if_pos hlow]
      exact hI
    · rw [if_neg hlow]
      cases hcur : s.chain.headers[s.chain.canonicalTip]? with
      | none => exact hkeep
      | some cur =>
        dsimp only
        by_cases hpref : s.chain.prefers tip header cur totalStake
            ((s.chain.stakeWeight.insert tip totalStake)[s.chain.canonicalTip]?.getD 0) = true
        · rw [if_pos hpref]
          obtain ⟨l, hl, hlh, -⟩ := hI.stored _ _ hh
          refine ⟨hI.graded, hI.stored, ⟨l, hl, hlh⟩, not_lt.mp hlow, ?_⟩
          -- the finalised blocks lie below the branching point, on both sides
          obtain ⟨c, lc, htc, hcc, hlc, hfin⟩ := hbranch header cur hh hcur (not_lt.mp hlow) hpref
          intro b hb
          obtain ⟨hd, lb, hlb, hle⟩ := hI.finalized b hb
          have hcb : Descends s.links c b := hd.of_le hI.graded hcc hlb hlc (hle.trans hfin)
          exact ⟨htc.trans hcb, lb, hlb, hle⟩
        · rw [if_neg hpref]
          exact hkeep

theorem finalizeHeight_spec (c : BlockChain) (height : ℕ) :
    (c.finalizeHeight height).canonicalTip = c.canonicalTip ∧
    (c.finalizeHeight height).currentHeight = c.currentHeight ∧
    (c.finalizeHeight height).lastFinalizedHeight = max c.lastFinalizedHeight height ∧
    ∀ (k : Bytes32) (h : BatchHeader), (c.finalizeHeight height).headers[k]? = some h →
      c.headers[k]? = some h := by
  unfold BlockChain.finalizeHeight
  split_ifs with hlt hmax
  · refine ⟨rfl, rfl, (max_eq_right hlt.le).symm, ?_⟩
    intro k h hk
    unfold BlockChain.pruneOldHeaders at hk
    dsimp only at hk
    rw [Std.ExtTreeMap.getElem?_filter'] at hk
    exact (Option.filter_eq_some_iff.mp hk).1
  · exact ⟨rfl, rfl, (max_eq_right hlt.le).symm, fun _ _ hk => hk⟩
  · exact ⟨rfl, rfl, (max_eq_left (not_lt.mp hlt)).symm, fun _ _ hk => hk⟩

theorem Inv.finalizeHeight {s : Tracked} {height : ℕ} {block : Bytes32} (hI : Inv s)
    (hon : OnChain s block height) : Inv (step s (.finalizeHeight height block)) := by
  obtain ⟨htip, hcur, hlast, hheaders⟩ := finalizeHeight_spec s.chain height
  obtain ⟨hd, hheight⟩ := hon
  obtain ⟨lb, hlb, hlbh⟩ := Option.map_eq_some_iff.mp hheight
  unfold step
  refine ⟨hI.graded, fun k h hk => hI.stored k h (hheaders k h hk), ?_, ?_, ?_⟩
  · dsimp only
    rw [htip, hcur]
    exact hI.tip
  · dsimp only
    rw [hcur, hlast]
    obtain ⟨l, hl, hlh⟩ := hI.tip
    obtain ⟨m, hm, hor⟩ := hd.height hI.graded hl
    rw [hlb] at hm
    cases hm
    have hle : height ≤ s.chain.currentHeight := by
      rcases hor with rfl | hlt
      · rw [hlb] at hl
        cases hl
        omega
      · omega
    exact max_le hI.above hle
  · dsimp only
    rw [htip, hlast]
    intro b hb
    rcases List.mem_cons.mp hb with rfl | hb
    · exact ⟨hd, lb, hlb, hlbh.le.trans (le_max_right _ _)⟩
    · obtain ⟨hdb, l, hl, hle⟩ := hI.finalized b hb
      exact ⟨hdb, l, hl, hle.trans (le_max_left _ _)⟩

/-- **Finality is irreversible in runs that branch off above it.** Every block that stood on the
canonical chain when its height was finalised is the tip or an ancestor of it, and the current height is
not below the finalised one. -/
theorem finality_irreversible (c : BlockChain) (hc : Sound c) (calls : List Call)
    (hfin : Along step FinalizesOnChain (Tracked.start c) calls)
    (hbranch : Along step BranchesAboveFinality (Tracked.start c) calls) :
    let s := run step (Tracked.start c) calls
    (∀ b ∈ s.finalized, Descends s.links s.chain.canonicalTip b) ∧
      s.chain.lastFinalizedHeight ≤ s.chain.currentHeight := by
  intro s
  have hI : Inv s := by
    refine (hfin.and hbranch).invariant ?_ (inv_start hc)
    rintro s (header | ⟨tip, stake⟩ | ⟨height, block⟩) hs ⟨hon, hcond⟩
    · exact hs.addHeader hcond
    · exact hs.setCanonicalTip hcond
    · exact hs.finalizeHeight hon
  exact ⟨fun b hb => (hI.finalized b hb).1, hI.above⟩

/-! ## A finalised block left behind -/

def idlePrim : Primitives := ⟨fun _ => 0, fun _ => 0, fun _ _ _ _ => false⟩

def firstBlock (hash : Bytes32) (bitmap : Bytes) : BatchHeader :=
  { genesis idlePrim with
    height := 1, batchHash := hash
    finalityCertificate :=
      { PqFinalityCertificate.empty idlePrim 1 0 hash 0 with signerBitmap := bitmap } }

theorem sound_new (prim : Primitives) : Sound (BlockChain.new prim) := by
  refine ⟨⟨genesis prim, ?_, rfl⟩, le_rfl⟩
  rw [BlockChain.new, Std.ExtTreeMap.getElem?_insert_self]

def childBlock : BatchHeader := { firstBlock 2 [1] with height := 2, parentHash := 1 }

/-- A first block is finalised, then a child of it is added and chosen. -/
def growingCalls : List Call :=
  [.addHeader (firstBlock 1 [1]), .setCanonicalTip 1 10, .finalizeHeight 1 1, .addHeader childBlock,
    .setCanonicalTip 2 10]

theorem branches_unlinked {s : Tracked} {header : BatchHeader} (h : s.links header.batchHash = none) :
    BranchesAboveFinality s (.addHeader header) := by
  intro l hl
  rw [h] at hl
  cases hl

/-- A child of the tip branches off at the tip. -/
theorem branches_child {s : Tracked} {tip : Bytes32} {stake : ℕ}
    (hlink : (s.links tip).bind Link.parent = some s.chain.canonicalTip)
    (htip : (s.links s.chain.canonicalTip).map Link.height = some s.chain.lastFinalizedHeight) :
    BranchesAboveFinality s (.setCanonicalTip tip stake) := by
  obtain ⟨l, hl, hparent⟩ := Option.bind_eq_some_iff.mp hlink
  obtain ⟨l', hl', hheight⟩ := Option.map_eq_some_iff.mp htip
  exact fun _ _ _ _ _ _ =>
    ⟨_, l', Relation.ReflTransGen.single ⟨l, hl, hparent⟩, Descends.refl _, hl', hheight.ge⟩

theorem first_block_stays_final :
    let s := run step (Tracked.start (BlockChain.new idlePrim)) growingCalls
    (∀ b ∈ s.finalized, Descends s.links s.chain.canonicalTip b) ∧
      s.chain.lastFinalizedHeight ≤ s.chain.currentHeight := by
  refine finality_irreversible _ (sound_new _) _ ⟨trivial, trivial, ⟨?_, ?_⟩, trivial, trivial, trivial⟩
    ⟨branches_unlinked ?_, branches_child ?_ ?_, trivial, branches_unlinked ?_, branches_child ?_ ?_, trivial⟩
  · have htip : (step (step (Tracked.start (BlockChain.new idlePrim)) (.addHeader (firstBlock 1 [1])))
        (.setCanonicalTip 1 10)).chain.canonicalTip = 1 := by decide +kernel
    rw [htip]
    exact Descends.refl _
  all_goals decide +kernel

/-- A first block is finalised, then a rival with one more signer is added and chosen. -/
def rivalCalls : List Call :=
  [.addHeader (firstBlock 1 []), .setCanonicalTip 1 10, .finalizeHeight 1 1,
    .addHeader (firstBlock 2 [1]), .setCanonicalTip 2 10]

/-- **A finalised block can be left**: its height is all that the guard looks at. -/
theorem finalized_block_left :
    ¬ ∀ (c : BlockChain), Sound c → ∀ calls : List Call,
      Along step FinalizesOnChain (Tracked.start c) calls →
      (∀ b ∈ (run step (Tracked.start c) calls).finalized,
        Descends (run step (Tracked.start c) calls).links
          (run step (Tracked.start c) calls).chain.canonicalTip b) ∧
      (run step (Tracked.start c) calls).chain.lastFinalizedHeight ≤
        (run step (Tracked.start c) calls).chain.currentHeight := by
  intro h
  have hon : Along step FinalizesOnChain (Tracked.start (BlockChain.new idlePrim)) rivalCalls := by
    refine ⟨trivial, trivial, ⟨?_, by decide +kernel⟩, trivial, trivial, trivial⟩
    have htip : (step (step (Tracked.start (BlockChain.new idlePrim)) (.addHeader (firstBlock 1 [])))
        (.setCanonicalTip 1 10)).chain.canonicalTip = 1 := by decide +kernel
    rw [htip]
    exact Descends.refl _
  obtain ⟨hdesc, -⟩ := h (BlockChain.new idlePrim) (sound_new _) rivalCalls hon
  have htip : (run step (Tracked.start (BlockChain.new idlePrim)) rivalCalls).chain.canonicalTip = 2 := by
    decide +kernel
  have hd := hdesc 1 (by decide +kernel)
  rw [htip] at hd
  -- from the rival the links lead to the genesis block, and no further
  rcases Relation.ReflTransGen.cases_head hd with he | ⟨p, ⟨l, hl, hp⟩, hrest⟩
  · exact absurd he (by decide)
  · have hl' : (run step (Tracked.start (BlockChain.new idlePrim)) rivalCalls).links 2 =
        some ⟨some 0, 1⟩ := rfl
    rw [hl'] at hl
    obtain rfl := Option.some.inj hl
    obtain rfl := Option.some.inj hp
    rcases Relation.ReflTransGen.cases_head hrest with he | ⟨p, ⟨l, hl, hp⟩, -⟩
    · exact absurd he (by decide)
    · have hroot : (run step (Tracked.start (BlockChain.new idlePrim)) rivalCalls).links 0 =
          some ⟨none, 0⟩ := rfl
      rw [hroot] at hl
      obtain rfl := Option.some.inj hl
      cases hp

end TruthLinked.Consensus.ForkChoice
